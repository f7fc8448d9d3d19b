/-
# The accesses of a page

A page that comes to a pending request brings a total length, a block size, a fragment number and a
fragment of its own, and the tables that it is put in were allocated from those of the first
page. `_mesa_req_pact_done` compares the number only with the total length of the same packet, so
what keeps the accesses inside the tables is what the packet says: here is the condition on the packet
and the state, and that no page of a run that meets it goes outside.

The bitset is safe by itself: it knows how long it is.

Key definitions: `Tame`, `Comes`, `PageFits`, `Inside`, `StaysIn`.
Key theorems: `Tame.bind`, `bitsetHas_tame`, `burnLoop_tame`, `mesaReqPactDone_tame`, `inside_of_run`.
-/
import Ursockets.MesaOut

namespace Ursockets
namespace Mesa

variable {X : Lss.Hasher Hash} {r r' : PendReq} {now fra : UInt64} {nam : Name (List UInt8)} {dat : Data (List UInt8)}

/-! ### Calls that stay inside -/

/-- The call does not go outside a table, and shifts by no more than C has a meaning for. -/
def Tame {α : Type} (x : Except Trap α) : Prop := x ≠ .error .outside ∧ x ≠ .error .shift

section Rules

variable {α β : Type} {x : Except Trap α}

theorem Tame.ok (a : α) : Tame (.ok a : Except Trap α) := ⟨fun h => (nomatch h), fun h => (nomatch h)⟩

theorem Tame.assertion : Tame (.error .assertion : Except Trap α) := ⟨fun h => (nomatch h), fun h => (nomatch h)⟩

theorem Tame.lockstep : Tame (.error .lockstep : Except Trap α) := ⟨fun h => (nomatch h), fun h => (nomatch h)⟩

/-- A call and what follows it. -/
theorem Tame.bind {f : α → Except Trap β} (hx : Tame x) (hf : ∀ a, x = .ok a → Tame (f a)) : Tame (x >>= f) := by
  cases x with
  | ok a => exact hf a rfl
  | error t => exact ⟨fun h => hx.1 (congrArg _ (Except.error.inj h)), fun h => hx.2 (congrArg _ (Except.error.inj h))⟩

theorem entry_tame {t : List α} {i : ℕ} (h : i < t.length) : Tame (entry t i) := by
  unfold entry
  rw [List.getElem?_eq_getElem h]
  exact .ok _

theorem store_tame {t : List α} {i : ℕ} (a : α) (h : i < t.length) : Tame (store t i a) := by
  unfold store
  rw [if_pos h]
  exact .ok _

theorem copyIn_tame {t l : List α} {off : ℕ} (h : l.length = 0 ∨ off + l.length ≤ t.length) :
    Tame (copyIn t off l) := by
  unfold copyIn
  split
  · exact .ok _
  · next hne =>
    rw [if_pos (h.resolve_left hne)]
    exact .ok _

theorem copyOut_tame {t : List α} {off len : ℕ} (h : len = 0 ∨ off + len ≤ t.length) : Tame (copyOut t off len) := by
  unfold copyOut
  split
  · exact .ok _
  · next hne =>
    rw [if_pos (h.resolve_left hne)]
    exact .ok _

end Rules

/-! ### The bitset -/

variable {b : Bitset} {m : UInt32}

theorem byte_lt (hbuf : b.buf.length = (b.len >>> 3).toNat + 1) (h : m ≤ b.len) : (m >>> 3).toNat < b.buf.length := by
  rw [hbuf, shiftRight_three, shiftRight_three]
  exact Nat.lt_succ_of_le (Nat.div_le_div_right (UInt32.le_iff_toNat_le.mp h))

/-- **Asking the bitset goes nowhere outside**, whatever is asked for. -/
theorem bitsetHas_tame (hbuf : b.buf.length = (b.len >>> 3).toNat + 1) (m : UInt32) : Tame (bitsetHas b m) := by
  unfold bitsetHas
  split
  · exact .ok _
  split
  · exact .assertion
  · next hlt =>
    have hle : m ≤ b.len := UInt32.le_of_lt (Decidable.not_not.mp hlt)
    exact (entry_tame (byte_lt hbuf hle)).bind fun _ _ => .ok _

theorem bitsetPut_tame (hbuf : b.buf.length = (b.len >>> 3).toNat + 1) (m : UInt32) : Tame (bitsetPut b m) := by
  unfold bitsetPut
  split
  · exact .ok _
  · next hle =>
    have hlt := byte_lt hbuf (UInt32.not_lt.mp hle)
    exact (entry_tame hlt).bind fun _ _ => (store_tame _ hlt).bind fun _ _ => .ok _

/-! ### The misordered fragments -/

/-- The loop over the misordered fragments comes to the one `num` after `ack`, with the verifier `los`. -/
inductive Comes (X : Lss.Hasher Hash) (r : PendReq) (siz ack : UInt32) : UInt64 → Lss.Verifier Hash → Prop
  | first : Comes X r siz ack 0 r.los
  | next {num : UInt64} {los los' : Lss.Verifier Hash} : Comes X r siz ack num los → num + ack.toUInt64 < r.tof →
      burnOne X r siz (num + ack.toUInt64) los = .ok (some (true, los')) → Comes X r siz ack (num + 1) los'

/-- The blocks of the misordered fragments that the loop comes to are in the buffer. -/
def QueueFits (X : Lss.Hasher Hash) (r : PendReq) (siz ack : UInt32) : Prop :=
  ∀ num los, Comes X r siz ack num los → num + ack.toUInt64 < r.tof →
    bitsetHas r.was (num + ack.toUInt64).toUInt32 = .ok true →
      blockLen r (num + ack.toUInt64) = 0 ∨
        (siz.toUInt64 * (num + ack.toUInt64)).toNat + blockLen r (num + ack.toUInt64) ≤ r.tob.toNat

theorem burnOne_tame {siz : UInt32} {los : Lss.Verifier Hash} (hs : Sized r) (hfra : fra < r.tof)
    (hblock : bitsetHas r.was fra.toUInt32 = .ok true → blockLen r fra = 0 ∨
      (siz.toUInt64 * fra).toNat + blockLen r fra ≤ r.tob.toNat) : Tame (burnOne X r siz fra los) := by
  refine (entry_tame ?_).bind fun pur _ => (bitsetHas_tame hs.buf _).bind fun has hhas => ?_
  · rw [hs.mis]
    exact UInt64.lt_iff_toNat_lt.mp hfra
  · cases has with
    | false => exact .ok _
    | true =>
      refine (copyOut_tame ?_).bind fun leaf _ => ?_
      · rw [hs.dat]
        exact hblock hhas
      · split
        · exact .lockstep
        · exact .ok _

theorem burnLoop_tame {siz ack : UInt32} (hs : Sized r) (hq : QueueFits X r siz ack) {n : ℕ} {num : UInt64}
    {los : Lss.Verifier Hash} (hc : Comes X r siz ack num los) : Tame (burnLoop X r siz ack n num los) := by
  induction n generalizing num los with
  | zero => exact .ok _
  | succ n ih =>
    rw [burnLoop]
    split
    · exact .ok _
    · next hlt =>
      have hlt := Decidable.not_not.mp hlt
      refine (burnOne_tame hs hlt fun hhas => hq num los hc hlt hhas).bind fun o ho => ?_
      match o with
      | none => exact .ok _
      | some (false, _) => exact .ok _
      | some (true, _) => exact ih (hc.next hlt ho)

theorem mesaBurnMisorderQueue_tame {ack : UInt32} (hs : Sized r) (hboq : 3 ≤ nam.boq.toNat ∧ nam.boq.toNat < 35)
    (hq : QueueFits X r (blockBytes nam.boq) ack) : Tame (mesaBurnMisorderQueue X r nam.boq ack) := by
  unfold mesaBurnMisorderQueue blockSize
  rw [if_pos hboq]
  exact (burnLoop_tame hs hq .first).bind fun _ _ => .ok _

/-! ### The page -/

/-- The fragment, its pair and its stamp have places in the tables of the request. -/
structure PageFits (r : PendReq) (nam : Name (List UInt8)) (dat : Data (List UInt8)) : Prop where
  shift : 3 ≤ nam.boq.toNat ∧ nam.boq.toNat < 35
  copy : dat.fra.length = 0 ∨
    ((blockBytes nam.boq).toUInt64 * nam.fra).toNat + dat.fra.length ≤ r.tob.toNat
  pair : ∀ has0 has1, dat.aut = .pair has0 has1 → nam.fra < r.tof
  stat : nam.fra.toNat < r.tof.toNat + 2

/-- A page that is in order and accepted is followed by fragments that fit. -/
def NextFit (X : Lss.Hasher Hash) (r : PendReq) (nam : Name (List UInt8)) (dat : Data (List UInt8)) : Prop :=
  ∀ r1 par los, putPage r nam dat = .ok (r1, par) → r.los.counter = nam.fra.toNat →
    Lss.verifierIngest X r.los dat.fra par = some (true, los) →
      QueueFits X { r1 with los } (blockBytes nam.boq) (UInt32.ofNat los.counter)

theorem putPage_tame (hs : Sized r) (h : PageFits r nam dat) : Tame (putPage r nam dat) := by
  unfold putPage blockSize
  rw [if_pos h.shift]
  refine Tame.bind (.ok _) fun siz hsiz => (copyIn_tame ?_).bind fun buf _ => ?_
  · rw [← Except.ok.inj hsiz, hs.dat]
    exact h.copy
  · split
    · next has0 has1 haut =>
      refine (store_tame _ ?_).bind fun _ _ => .ok _
      rw [hs.mis]
      exact UInt64.lt_iff_toNat_lt.mp (h.pair has0 has1 haut)
    · exact .ok _

theorem ackPage_tame (hs : Sized r) (hfra : fra.toNat < r.tof.toNat + 2) : Tame (ackPage r fra now) := by
  refine (bitsetPut_tame hs.buf _).bind fun was _ => (entry_tame ?_).bind fun _ _ => .ok _
  rw [hs.wat]
  exact hfra

/-- **A page whose places are inside goes nowhere outside.** -/
theorem mesaReqPactDone_tame (hs : Sized r) (h : Dropped r nam dat ∨ PageFits r nam dat ∧ NextFit X r nam dat) :
    Tame (mesaReqPactDone X r nam dat now) := by
  unfold mesaReqPactDone
  split
  · exact .ok _
  next hpast =>
  refine (bitsetHas_tame hs.buf _).bind fun has hhas => ?_
  cases has with
  | true => exact .ok _
  | false =>
    obtain ⟨hfits, hnext⟩ := h.resolve_left fun hd => hd.elim hpast fun hd => nomatch hhas.symm.trans hd
    rw [if_neg Bool.false_ne_true]
    refine (putPage_tame hs hfits).bind fun ⟨r1, par⟩ hput => ?_
    have hnext := hnext r1 par
    obtain ⟨d, m, hd, hm, rfl⟩ := putPage_frame hput
    dsimp only
    split
    · refine Tame.bind (ackPage_tame ?_ ?_) fun _ _ => .ok _
      · exact ⟨hd.trans hs.dat, hm.trans hs.mis, hs.wat, hs.len, hs.buf, hs.nex⟩
      · exact hfits.stat
    · next hcounter =>
      split
      · exact .lockstep
      · exact .ok _
      · next los hlos =>
        have hq := hnext los hput (Decidable.not_not.mp hcounter) hlos
        refine (mesaBurnMisorderQueue_tame ?_ hfits.shift hq).bind fun ⟨ok, r2⟩ hburn => ?_
        · exact ⟨hd.trans hs.dat, hm.trans hs.mis, hs.wat, hs.len, hs.buf, hs.nex⟩
        · obtain ⟨los', lef, hav, rfl⟩ := mesaBurnMisorderQueue_frame hburn
          dsimp only
          split
          · exact .ok _
          · refine Tame.bind (ackPage_tame ?_ ?_) fun _ _ => .ok _
            · exact ⟨hd.trans hs.dat, hm.trans hs.mis, hs.wat, hs.len, hs.buf, hs.nex⟩
            · exact hfits.stat

/-! ### Runs -/

/-- The page is a repeated first page, or is dropped, or is taken for the number that `bitset_has` asserts not to be
asked for, or has its places inside. -/
def Inside (X : Lss.Hasher Hash) (r : PendReq) : Event → Prop
  | .page nam dat _ => nam.nit = true ∨ Dropped r nam dat ∨ bitsetHas r.was nam.fra.toUInt32 = .error .assertion ∨
      PageFits r nam dat ∧ NextFit X r nam dat
  | _ => True

/-- **Every copy and every access that a page makes is inside the tables of the request.** -/
def StaysIn (X : Lss.Hasher Hash) (r : PendReq) : Event → Prop
  | .page nam dat now => Tame (mesaHearPage X r nam dat now)
  | _ => True

theorem Inside.staysIn {e : Event} (hs : Sized r) (h : Inside X r e) : StaysIn X r e := by
  cases e with
  | request now | resend now | gauge gag => exact trivial
  | page nam dat now =>
    show Tame (mesaHearPage X r nam dat now)
    unfold mesaHearPage
    split
    · exact .ok _
    · next hnit =>
      have hdone : Tame (mesaReqPactDone X r nam dat now) := by
        rcases h.resolve_left hnit with hd | hassert | hfits
        · exact mesaReqPactDone_tame hs (.inl hd)
        · unfold mesaReqPactDone
          rw [hassert]
          split
          · exact .ok _
          · exact .assertion
        · exact mesaReqPactDone_tame hs (.inr hfits)
      refine hdone.bind fun o _ => ?_
      match o with
      | none => exact .ok _
      | some _ => exact .ok _

/-- **The pages of a run** of a request go nowhere outside its tables if each that is not dropped has its places
inside. -/
theorem inside_of_run {mem : Memory} {gag : Gage} {nam : Name (List UInt8)} {dat : Data (List UInt8)}
    (h : mesaReqPactInit mem gag nam dat = .ok (some r)) {l : List Event} (hl : Replay.Along (turn X) (Inside X) r l) :
    Replay.Along (turn X) (StaysIn X) r l :=
  Replay.Along.of_inv Sized (fun _ _ _ hs _ ht => (hs.turn ht).1) (fun _ _ hs hin => hin.staysIn hs) hl
    (mesaReqPactInit_sized h).1

/-- The second page of two fits where both were asked for. -/
theorem secondPage_inside : ∃ r, pairRequest = .ok (some r) ∧
    Replay.Along (turn noHash) (StaysIn noHash) r [.request 1000, secondPage 2000] := by
  obtain ⟨r, b, hr, hb, hfields⟩ := pairRun_eq_some (l := [.request 1000])
    (f := fun a => (a.tob, a.tof, a.los.counter)) (x := (2048, 2, 0)) (by decide +kernel)
  obtain ⟨htob, htof, hcounter⟩ := Prod.mk.inj hfields |>.imp_right Prod.mk.inj
  refine ⟨r, hr, inside_of_run hr ⟨trivial, fun a ha => ⟨?_, fun _ _ => trivial⟩⟩⟩
  rw [Replay.follow, ha] at hb
  obtain rfl := Option.some.inj hb
  refine .inr (.inr (.inr ⟨⟨by decide, .inr ?_, (by intro _ _ h; cases h), ?_⟩, fun _ _ _ _ h => ?_⟩))
  · rw [htob, List.length_replicate]
    decide
  · rw [htof]
    decide
  · rw [hcounter] at h
    exact absurd h (by decide)

/-- The name of a page that says it is the sixth. -/
def strayName : Name (List UInt8) := ⟨⟨0, 0⟩, 0, 13, false, false, 5, [47], []⟩

/-- And that the message has a mebibyte. -/
def strayData : Data (List UInt8) := ⟨1048576, .none, List.replicate 1024 1⟩

/-- What it brings is copied past the end of the buffer. -/
theorem strayPage_outside : ∃ r, pairRequest = .ok (some r) ∧
    mesaHearPage noHash r strayName strayData 2000 = .error .outside ∧
      ¬ StaysIn noHash r (.page strayName strayData 2000) := by
  obtain ⟨r, r', hr, hl, hout⟩ := pairRun_eq_some (l := [])
    (f := fun a => match mesaHearPage noHash a strayName strayData 2000 with
      | .error t => some t
      | .ok _ => none) (x := some .outside) (by decide +kernel)
  obtain rfl := Option.some.inj hl
  have herror : mesaHearPage noHash r strayName strayData 2000 = .error .outside := by
    split at hout
    · next t ht => rw [ht, Option.some.inj hout]
    · exact nomatch hout
  exact ⟨r, hr, herror, fun hs => hs.1 herror⟩

end Mesa
end Ursockets
