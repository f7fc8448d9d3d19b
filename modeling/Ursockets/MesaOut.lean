/-
# The fragments in flight

A request counts in `out` the fragments that it has asked for and that have not come. Asking for one
more adds one, sending again changes nothing, and each page that is taken takes one off, whether or not
its fragment was asked for. The peer chooses the number, so the count is right in all states of
a run just when every page that is taken was asked for before; one that was not takes
it below zero, and then the window is closed.

Key definitions: `inFlight`, `OutRight`, `Wanted`.
Key theorems: `came_took`, `inFlight_asked`, `inFlight_took`, `outRight_turn`, `outRight_of_run`.
-/
import Mathlib.Data.Finset.Card
import Ursockets.MesaRun

namespace Ursockets
namespace Mesa

variable {X : Lss.Hasher Hash} {r r' : PendReq} {now fra : UInt64}

/-! ### The count -/

/-- The page of fragment `i` has come. -/
def came (r : PendReq) (i : ℕ) : Bool := (bitsetHas r.was (UInt32.ofNat i)).toOption == some true

/-- How many fragments were asked for and have not come. -/
def inFlight (r : PendReq) : ℕ := ((Finset.range r.nex.toNat).filter fun i => came r i = false).card

/-- **`out_d` is the number of the fragments that were asked for and have not come.** -/
def OutRight (r : PendReq) : Prop := r.out.toNat = inFlight r

/-- A page that is taken is of a fragment that was asked for. -/
def Wanted (r : PendReq) : Event → Prop
  | .page nam dat _ => nam.nit = true ∨ Dropped r nam dat ∨ nam.fra < r.nex
  | _ => True

/-- No fragment has come that was not asked for. -/
def NoneAhead (r : PendReq) : Prop := ∀ i, r.nex.toNat ≤ i → i < r.tof.toNat → came r i = false

theorem inFlight_le (r : PendReq) : inFlight r ≤ r.nex.toNat := by
  refine le_trans (Finset.card_filter_le _ _) ?_
  rw [Finset.card_range]

theorem came_eq_true {i : ℕ} : came r i = true ↔ bitsetHas r.was (UInt32.ofNat i) = .ok true := by
  rw [came, beq_iff_eq, toOption_eq_some]

/-! ### Asking for the next -/

theorem inFlight_asked (h : Asked r r' r.nex now) (hlt : r.nex < r.tof) (hnone : NoneAhead r) :
    r'.nex.toNat = r.nex.toNat + 1 ∧ inFlight r' = inFlight r + 1 ∧ NoneAhead r' := by
  obtain ⟨pekC, stat, -, -, rfl⟩ := h
  have hle : r.nex.toNat < r.tof.toNat := UInt64.lt_iff_toNat_lt.mp hlt
  have hmax := r.tof.toNat_lt
  have hnex : (if r.nex = r.nex then r.nex + 1 else r.nex).toNat = r.nex.toNat + 1 := by
    rw [if_pos rfl, toNat_add_of_lt (show r.nex.toNat + 1 < 2 ^ 64 by omega)]
    rfl
  refine ⟨hnex, ?_, fun i hi hit => ?_⟩
  · have hmem : came r r.nex.toNat = false := hnone _ (Nat.le_refl _) hle
    show ((Finset.range (if r.nex = r.nex then r.nex + 1 else r.nex).toNat).filter fun i => came r i = false).card = _
    rw [hnex, Finset.range_add_one, Finset.filter_insert, if_pos hmem, Finset.card_insert_of_notMem]
    · rfl
    · rw [Finset.mem_filter, Finset.mem_range]
      exact fun h => Nat.lt_irrefl _ h.1
  · have hi : r.nex.toNat + 1 ≤ i := hnex ▸ hi
    exact hnone i (Nat.le_of_succ_le hi) hit

theorem OutRight.asked (h : Asked r r' r.nex now) (hlt : r.nex < r.tof) (hnone : NoneAhead r) (ho : OutRight r) :
    OutRight r' := by
  obtain ⟨-, hfly, -⟩ := inFlight_asked h hlt hnone
  have hle := inFlight_le r
  have hnex : r.nex.toNat < r.tof.toNat := UInt64.lt_iff_toNat_lt.mp hlt
  have hmax := r.tof.toNat_lt
  obtain ⟨pekC, stat, -, -, rfl⟩ := h
  unfold OutRight at ho ⊢
  rw [hfly, ← ho]
  show (if r.nex = r.nex then r.out + 1 else r.out).toNat = _
  rw [if_pos rfl, toNat_add_of_lt (show r.out.toNat + 1 < 2 ^ 64 by omega)]
  rfl

/-! ### Taking a page -/

/-- **A fragment that is taken has come, and no other.** -/
theorem came_took (h : Took r r' fra) (hs : Sized r) (htof : r.tof.toNat + 1 < 2 ^ 32) {i : ℕ} (hi : i < r.tof.toNat) :
    came r' i = true ↔ i = fra.toNat ∨ came r i = true := by
  have hfra : fra.toNat < 2 ^ 32 := by
    have hlt := h.lt
    rw [hs.wat] at hlt
    omega
  have hword : (UInt32.ofNat i).toNat = i := UInt32.toNat_ofNat_of_lt' (show i < 2 ^ 32 by omega)
  have hlen : UInt32.ofNat i < r.was.len := by
    rw [hs.len, UInt32.lt_iff_toNat_lt, hword, UInt64.toNat_toUInt32, Nat.mod_eq_of_lt (by omega)]
    exact hi
  have hsame : UInt32.ofNat i = fra.toUInt32 ↔ i = fra.toNat := by
    rw [← UInt32.toNat_inj, hword, UInt64.toNat_toUInt32, Nat.mod_eq_of_lt hfra]
  rw [came_eq_true, came_eq_true, bitsetHas_put h.was hlen, hsame]

theorem came_took_false (h : Took r r' fra) (hs : Sized r) (htof : r.tof.toNat + 1 < 2 ^ 32) {i : ℕ}
    (hi : i < r.tof.toNat) : came r' i = false ↔ i ≠ fra.toNat ∧ came r i = false := by
  rw [← Bool.not_eq_true, came_took h hs htof hi, not_or, Bool.not_eq_true]

theorem inFlight_took (h : Took r r' fra) (hs : Sized r) (htof : r.tof.toNat + 1 < 2 ^ 32) :
    (fra < r.nex → came r fra.toNat = false → inFlight r' + 1 = inFlight r) ∧
      (¬ fra < r.nex → inFlight r' = inFlight r) := by
  have hnex : r.nex.toNat ≤ r.tof.toNat := UInt64.le_iff_toNat_le.mp hs.nex
  have hfilter : (Finset.range r'.nex.toNat).filter (fun i => came r' i = false) =
      ((Finset.range r.nex.toNat).filter fun i => came r i = false).erase fra.toNat := by
    rw [h.nex]
    ext i
    rw [Finset.mem_erase, Finset.mem_filter, Finset.mem_filter, Finset.mem_range]
    constructor
    · rintro ⟨hi, hc⟩
      obtain ⟨hne, hc⟩ := (came_took_false h hs htof (lt_of_lt_of_le hi hnex)).mp hc
      exact ⟨hne, hi, hc⟩
    · rintro ⟨hne, hi, hc⟩
      exact ⟨hi, (came_took_false h hs htof (lt_of_lt_of_le hi hnex)).mpr ⟨hne, hc⟩⟩
  unfold inFlight
  rw [hfilter]
  constructor
  · intro hlt hc
    refine Finset.card_erase_add_one (Finset.mem_filter.mpr ⟨?_, hc⟩)
    exact Finset.mem_range.mpr (UInt64.lt_iff_toNat_lt.mp hlt)
  · intro hge
    rw [Finset.erase_eq_of_notMem]
    intro hmem
    exact hge (UInt64.lt_iff_toNat_lt.mpr (Finset.mem_range.mp (Finset.mem_filter.mp hmem).1))

theorem sub_one_ne (a : UInt64) : (a - 1).toNat ≠ a.toNat := by
  intro h
  have hval := UInt64.toNat_inj.mp h
  rw [sub_eq_self] at hval
  exact absurd hval (by decide)

/-- **After a page is taken the count is right just when its fragment was asked for.** -/
theorem OutRight.took (h : Took r r' fra) (hs : Sized r) (htof : r.tof.toNat + 1 < 2 ^ 32)
    (hno : ¬ bitsetHas r.was fra.toUInt32 = .ok true) (ho : OutRight r) : OutRight r' ↔ fra < r.nex := by
  obtain ⟨hin, hout⟩ := inFlight_took h hs htof
  unfold OutRight at ho ⊢
  rw [h.out]
  constructor
  · intro hr
    by_contra hge
    rw [hout hge, ← ho] at hr
    exact sub_one_ne _ hr
  · intro hlt
    have hc : came r fra.toNat = false := by
      rw [← Bool.not_eq_true, came_eq_true]
      exact hno
    have hone := hin hlt hc
    rw [UInt64.toNat_sub_of_le r.out 1 (UInt64.le_iff_toNat_le.mpr (show 1 ≤ r.out.toNat by omega))]
    show r.out.toNat - 1 = inFlight r'
    omega

theorem NoneAhead.took (h : Took r r' fra) (hs : Sized r) (htof : r.tof.toNat + 1 < 2 ^ 32) (hlt : fra < r.nex)
    (hnone : NoneAhead r) : NoneAhead r' := by
  intro i hi hit
  rw [h.nex] at hi
  rw [h.tof] at hit
  have hfra : fra.toNat < r.nex.toNat := UInt64.lt_iff_toNat_lt.mp hlt
  exact (came_took_false h hs htof hit).mpr ⟨by omega, hnone i hi hit⟩

/-! ### Runs -/

/-- A message of fewer than `2 ^ 32 - 1` fragments, in tables of its size. -/
def Small (r : PendReq) : Prop := Sized r ∧ r.tof.toNat + 1 < 2 ^ 32

theorem Small.turn {e : Event} (hs : Small r) (h : turn X r e = some r') : Small r' := by
  obtain ⟨hsized, htof⟩ := hs.1.turn h
  exact ⟨hsized, htof.symm ▸ hs.2⟩

/-- A page that is taken is wanted if its fragment was asked for. -/
theorem wanted_taken {nam : Name (List UInt8)} {dat : Data (List UInt8)}
    (h : ¬ (nam.nit = true ∨ Dropped r nam dat)) : Wanted r (.page nam dat now) ↔ nam.fra < r.nex :=
  ⟨fun hw => hw.elim (fun hn => absurd (.inl hn) h) fun hw => hw.resolve_left fun hd => h (.inr hd),
    fun hlt => .inr (.inr hlt)⟩

theorem noneAhead_turn {e : Event} (hs : Small r) (hnone : NoneAhead r) (hw : Wanted r e) (h : turn X r e = some r') :
    NoneAhead r' := by
  cases e with
  | request now =>
    obtain ⟨sent, h⟩ := turn_request h
    exact mesaRequestNextFragments_inv NoneAhead (fun a a1 hn hlt hasked => (inFlight_asked hasked hlt hn).2.2)
      (Nat.lt_of_succ_lt hs.2) hs.1 hnone h
  | page nam dat now =>
    rcases mesaHearPage_cases (turn_page h) with ⟨-, rfl⟩ | ⟨hdrop, htook⟩
    · exact hnone
    · exact hnone.took htook hs.1 hs.2 ((wanted_taken hdrop).mp hw)
  | resend now =>
    obtain ⟨sent, h⟩ := turn_resend h
    obtain ⟨wat, gag, -, rfl⟩ := tryResend_frame h
    exact hnone
  | gauge gag =>
    obtain rfl := Option.some.inj h
    exact hnone

/-- **A step keeps the count right just when it is wanted.** -/
theorem outRight_turn {e : Event} (hs : Small r) (hnone : NoneAhead r) (ho : OutRight r) (h : turn X r e = some r') :
    OutRight r' ↔ Wanted r e := by
  cases e with
  | request now =>
    obtain ⟨sent, h⟩ := turn_request h
    have hkeep := mesaRequestNextFragments_inv (fun a => NoneAhead a ∧ OutRight a)
      (fun a a1 ⟨hn, ho⟩ hlt hasked => ⟨(inFlight_asked hasked hlt hn).2.2, ho.asked hasked hlt hn⟩)
      (Nat.lt_of_succ_lt hs.2) hs.1 ⟨hnone, ho⟩ h
    exact iff_of_true hkeep.2 trivial
  | page nam dat now =>
    rcases mesaHearPage_cases (turn_page h) with ⟨hdrop, rfl⟩ | ⟨hdrop, htook⟩
    · exact iff_of_true ho (hdrop.imp_right .inl)
    · rw [wanted_taken hdrop]
      exact ho.took htook hs.1 hs.2 fun hhas => hdrop (.inr (.inr hhas))
  | resend now =>
    obtain ⟨sent, h⟩ := turn_resend h
    obtain ⟨wat, gag, -, rfl⟩ := tryResend_frame h
    exact iff_of_true ho trivial
  | gauge gag =>
    obtain rfl := Option.some.inj h
    exact iff_of_true ho trivial

theorem bitsetInit_none (len m : UInt32) : bitsetHas (bitsetInit len) m ≠ .ok true := by
  unfold bitsetHas bitsetInit
  split
  · exact fun h => nomatch h
  split
  · exact fun h => nomatch h
  intro h
  obtain ⟨byt, hbyt, h⟩ := bind_eq_ok.mp h
  rw [entry_eq_ok] at hbyt
  obtain ⟨-, rfl⟩ : _ ∧ byt = 0 := by
    rw [List.getElem?_replicate] at hbyt
    split at hbyt
    · exact ⟨trivial, (Option.some.inj hbyt).symm⟩
    · exact nomatch hbyt
  have h := Except.ok.inj h
  rw [UInt8.toNat_zero, Nat.zero_testBit] at h
  exact nomatch h

variable {mem : Memory} {gag : Gage} {nam : Name (List UInt8)} {dat : Data (List UInt8)}

theorem init_right (h : mesaReqPactInit mem gag nam dat = .ok (some r)) : NoneAhead r ∧ OutRight r := by
  obtain ⟨-, -, hnex, hout, hwas⟩ := mesaReqPactInit_sized h
  constructor
  · intro i _ _
    rw [← Bool.not_eq_true, came_eq_true, hwas]
    exact bitsetInit_none _ _
  · have hfly := inFlight_le r
    rw [hnex] at hfly
    rw [OutRight, hout, Nat.le_zero.mp hfly]
    rfl

/-- **The count in the states of a run** of a request for fewer than `2 ^ 32 - 1` fragments is right in all
of them if and only if every page that is taken was asked for. -/
theorem outRight_of_run (h : mesaReqPactInit mem gag nam dat = .ok (some r))
    (hfew : (mesaNumLeaves dat.tob).toNat + 1 < 2 ^ 32) {l : List Event} (hl : Replay.follow (turn X) r l = some r') :
    (∀ n a, Replay.At (turn X) r l n a → OutRight a) ↔ Replay.Along (turn X) Wanted r l := by
  obtain ⟨hsized, htof, -⟩ := mesaReqPactInit_sized h
  obtain ⟨hnone, ho⟩ := init_right h
  exact Replay.Along.iff_all_with Small NoneAhead OutRight (fun _ _ _ hs ht => hs.turn ht)
    (fun _ _ _ hs hn hw ht => noneAhead_turn hs hn hw ht) (fun _ _ _ hs hn ho ht => outRight_turn hs hn ho ht)
    ⟨hsized, htof.symm ▸ hfew⟩ hnone ho hl

/-! ### A message of two fragments -/

instance (r : PendReq) : Decidable (OutRight r) := inferInstanceAs (Decidable (_ = _))

/-- Hashes that are all the same, for runs that check none. -/
def noHash : Lss.Hasher Hash := ⟨fun _ _ => zeroHash, fun _ _ => zeroHash⟩

/-- The request after its first page, which has the proof. -/
def pairRequest : Except Trap (Option PendReq) :=
  mesaReqPactInit ⟨⟨.none, 1, 0, 0⟩, fun _ => 0, fun _ => ⟨0, 0, 0⟩, fun _ => (zeroHash, zeroHash), fun _ => 0⟩
    ⟨1000000, 200000, 1000000, 2, 0, 10000, 0⟩ ⟨⟨0, 0⟩, 0, 13, true, false, 0, [47], []⟩
    ⟨2048, .none, List.replicate 64 0⟩

/-- The page of the second fragment. -/
def secondPage (now : UInt64) : Event :=
  .page ⟨⟨0, 0⟩, 0, 13, false, false, 1, [47], []⟩ ⟨2048, .none, List.replicate 1024 1⟩ now

/-- What a run from the first page comes to. -/
def pairRun (l : List Event) : Option (PendReq × PendReq) :=
  pairRequest.toOption.join.bind fun r => (Replay.follow (turn noHash) r l).map fun r' => (r, r')

theorem pairRun_eq_some {l : List Event} {α : Type} {f : PendReq → α} {x : α}
    (h : ((pairRun l).map fun p => f p.2) = some x) :
    ∃ r r', pairRequest = .ok (some r) ∧ Replay.follow (turn noHash) r l = some r' ∧ f r' = x := by
  obtain ⟨⟨r, r'⟩, hp, rfl⟩ := Option.map_eq_some_iff.mp h
  obtain ⟨r1, hr, hl⟩ := Option.bind_eq_some_iff.mp hp
  obtain ⟨r2, hfollow, heq⟩ := Option.map_eq_some_iff.mp hl
  obtain ⟨rfl, rfl⟩ := Prod.mk.inj heq
  exact ⟨r1, r2, toOption_eq_some.mp (Option.join_eq_some_iff.mp hr), hfollow, rfl⟩

/-- The second page comes after both were asked for. -/
theorem asked_out_right : ∃ r r', pairRequest = .ok (some r) ∧
    Replay.follow (turn noHash) r [.request 1000, secondPage 2000] = some r' ∧ r'.out = 1 ∧
    ∀ n a, Replay.At (turn noHash) r [.request 1000, secondPage 2000] n a → OutRight a := by
  obtain ⟨r, r', hr, hl, hout⟩ := pairRun_eq_some (l := [.request 1000, secondPage 2000]) (f := PendReq.out)
    (x := 1) (by decide +kernel)
  obtain ⟨r1, b, hr1, hb, hnex⟩ := pairRun_eq_some (l := [.request 1000]) (f := PendReq.nex) (x := 2)
    (by decide +kernel)
  obtain rfl := Option.some.inj (Except.ok.inj (hr.symm.trans hr1))
  refine ⟨r, r', hr, hl, hout, (outRight_of_run hr (by decide) hl).mpr ⟨trivial, fun a ha => ⟨?_, fun _ _ => trivial⟩⟩⟩
  rw [Replay.follow, ha] at hb
  obtain rfl := Option.some.inj hb
  exact .inr (.inr (hnex ▸ by decide))

/-- The second page comes before anything was asked for. -/
theorem unasked_out_wraps : ∃ r r', pairRequest = .ok (some r) ∧
    Replay.follow (turn noHash) r [secondPage 2000] = some r' ∧ r'.out = 0xffffffffffffffff ∧ ¬ OutRight r' := by
  obtain ⟨r, r', hr, hl, hout⟩ := pairRun_eq_some (l := [secondPage 2000])
    (f := fun a => (a.out, decide (OutRight a))) (x := (0xffffffffffffffff, false)) (by decide +kernel)
  obtain ⟨hout, hright⟩ := Prod.mk.inj hout
  exact ⟨r, r', hr, hl, hout, of_decide_eq_false hright⟩

end Mesa
end Ursockets
