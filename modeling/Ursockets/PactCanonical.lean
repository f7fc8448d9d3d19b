/-
# Packets that come back as they were

The etcher gives each part of a packet the least bytes that hold it; the sifter takes it in as many
bytes as its tag says, and passes over the bits that nothing uses. So what is sifted and etched again
is the same bytes in just the buffers whose parts are as short as they can be and whose unused bits
are zero.

Key definitions: `Stays`, `Minimal`, `Canonical`.
Key theorems: `accepted_parts`, `tag_eq_iff`, `nameBytes_iff`, `dataBytes_iff`, `etch_sift_iff`.
-/
import Ursockets.PactRoundTrip
import Ursockets.PactSize

namespace Ursockets
namespace Mesa

open Bits

variable {buf : List UInt8} {o : ℕ}

/-! ### Errors stay -/

/-- After an error the action leaves an error. -/
def Stays {α : Type} (m : Sift α) : Prop := ∀ s r, s.err ≠ none → m s = .ok r → r.2.err ≠ none

section Stays

variable {α β : Type} {m : Sift α}

theorem Stays.pure (a : α) : Stays (pure a) := by
  intro s r hs hr
  rw [← Except.ok.inj hr]
  exact hs

theorem Stays.bind {f : α → Sift β} (h : Stays m) (hf : ∀ a, Stays (f a)) : Stays (m >>= f) := by
  intro s r hs hr
  cases hm : m s with
  | error x =>
    rw [run_bind_error hm] at hr
    cases hr
  | ok y =>
    rw [run_bind hm] at hr
    exact hf y.1 y.2 r (h s y hs hm) hr

theorem Stays.check (q : Prop) [Decidable q] : Stays (check (σ := Sifter) q) := by
  intro s r hs hr
  by_cases hq : q
  · rw [check_true hq] at hr
    rw [← Except.ok.inj hr]
    exact hs
  · rw [check_false hq] at hr
    cases hr

theorem Stays.fail (msg : String) : Stays (siftFail msg) := by
  intro s r hs hr
  rw [← Except.ok.inj hr]
  unfold Sifter.fail
  rwa [if_neg hs]

theorem Stays.next (len : ℕ) : Stays (siftNext len) := by
  intro s r hs hr
  unfold siftNext at hr
  split at hr
  · cases hr
  · rw [← Except.ok.inj hr]
    exact hs

theorem Stays.fetch (buf : List UInt8) (pos len : ℕ) : Stays (fetch buf pos len) := by
  intro s r hs hr
  unfold Mesa.fetch at hr
  split at hr
  · rw [← Except.ok.inj hr]
    exact hs
  · split at hr
    · rw [← Except.ok.inj hr]
      exact hs
    · cases hr

theorem Stays.get : Stays get := by
  intro s r hs hr
  rw [← Except.ok.inj hr]
  exact hs

theorem Stays.with {len : ℕ} (z : α) (g : Bytes len → α) : Stays (siftWith buf len z g) :=
  .bind (.next len) fun res => match res with
    | none => .pure z
    | some _ => .bind (.fetch buf _ len) fun l => .pure (g l)

theorem Stays.bytes (len : ℕ) : Stays (siftBytes buf len) := .with _ _

theorem Stays.varWord (len : ℕ) : Stays (siftVarWord buf len) := .bind (.check _) fun _ => .with _ _

theorem Stays.varChub (len : ℕ) : Stays (siftVarChub buf len) := .bind (.check _) fun _ => .with _ _

theorem Stays.turn : Stays (siftTurn buf) := by
  intro s r hs hr
  unfold siftTurn at hr
  rw [run_bind (a := s) (t := s) rfl] at hr
  cases hb : siftTaken buf s s with
  | error x =>
    rw [run_bind_error hb] at hr
    cases hr
  | ok y =>
    rw [run_bind hb] at hr
    rw [← Except.ok.inj hr]
    exact hs

theorem Stays.fill (wid : ℕ) : ∀ n, Stays (siftFill buf wid n)
  | 0 => .pure ()
  | n + 1 => by
    intro s r hs hr
    unfold siftFill at hr
    split at hr
    · exact (Stays.bind .turn fun _ => .fill wid n) s r hs hr
    · rw [← Except.ok.inj hr]
      exact hs

theorem Stays.bits (wid : ℕ) : Stays (siftBits buf wid) := by
  refine .bind (.check _) fun _ => .bind (.fill wid wid) fun _ => ?_
  intro s r hs hr
  rw [run_bind (a := s) (t := s) rfl] at hr
  rw [← Except.ok.inj hr]
  exact hs

theorem Stays.fra (nit tau gaf : ℕ) : Stays (siftFra buf nit tau gaf) := by
  unfold siftFra
  split
  · exact .bind (.check _) fun _ => .bind (.check _) fun _ => .pure _
  · exact .varChub _

theorem Stays.path (len : UInt16) : Stays (siftPath len) := by
  intro s r hs hr
  rw [← Except.ok.inj hr]
  exact hs

theorem Stays.name : Stays (mesaSiftName buf) :=
  .bind .get fun _ => .bind (.bits 2) fun _ => .bind (.bits 2) fun _ => .bind (.bits 1) fun _ =>
    .bind (.bits 1) fun _ => .bind (.bits 2) fun _ => .bind (.bind (.check _) fun _ => .with _ _) fun _ =>
      .bind (.varWord _) fun _ => .bind (.with _ _) fun _ => .bind (.fra _ _ _) fun _ => .bind (.with _ _) fun _ =>
        .bind (.path _) fun _ => .bind .get fun _ => .pure _

theorem Stays.auth (aut auv : ℕ) : Stays (siftAuth buf aut auv) := by
  unfold siftAuth
  split
  · split
    · exact .bind (.bytes _) fun _ => .pure _
    · exact .bind (.bytes _) fun _ => .pure _
  · split
    · exact .pure _
    · exact .bind (.bytes _) fun _ => .bind (.bytes _) fun _ => .pure _

theorem Stays.nel (men : ℕ) : Stays (siftNel buf men) := by
  unfold siftNel
  split
  · exact .bind (.with _ _) fun _ => .pure _
  · exact .pure _

theorem Stays.data : Stays (mesaSiftData buf) :=
  .bind (.bits 2) fun _ => .bind (.bits 1) fun _ => .bind (.bits 1) fun _ => .bind (.bits 2) fun _ =>
    .bind (.bits 2) fun _ => .bind (.varChub _) fun _ => .bind (.auth _ _) fun _ => .bind (.nel _) fun _ =>
      .bind (.varWord _) fun _ => .bind (.next _) fun _ => .pure _

theorem Stays.hops (nex : HopType) : Stays (siftHops buf nex) := by
  cases nex with
  | none => exact .pure _
  | short => exact .bind (.bytes _) fun _ => .pure _
  | long => exact .bind (.fail _) fun _ => .pure _
  | many => exact .bind (.fail _) fun _ => .pure _

theorem Stays.body (nex : HopType) (typ : Ptag) : Stays (mesaSiftBody buf nex typ) := by
  cases typ with
  | resv => exact .pure _
  | peek => exact .bind .name fun _ => .pure _
  | page => exact .bind .name fun _ => .bind .data fun _ => .bind (.hops nex) fun _ => .pure _
  | poke => exact .bind .name fun _ => .bind .name fun _ => .bind .data fun _ => .pure _

theorem Stays.expect (q : Prop) [Decidable q] (msg : String) : Stays (siftExpect q msg) := by
  unfold siftExpect
  split
  · exact .pure _
  · exact .fail _

theorem Stays.summed (headed : Sifter) (hed : Head) (body : Body Slice) : Stays (summed buf headed hed body) :=
  .bind .get fun _ => .bind (.fetch _ _ _) fun _ => .bind (.expect _ _) fun _ => .pure _

end Stays

/-! ### What is accepted -/

/-- The parts of a packet without an error: each stands in the buffer, and the last one ends it. -/
def Parts (buf : List UInt8) (nex : HopType) : Ptag → Body Slice → Prop
  | .resv, b => b = .resv ∧ buf.length = 8
  | .peek, b => b = .peek (nameOf buf 8) ∧ NameFits buf 8 ∧ nameEnd buf 8 = buf.length
  | .page, b => NameFits buf 8 ∧ DataFits buf (nameEnd buf 8) ∧
      fragAt buf (nameEnd buf 8) + fragLen buf (nameEnd buf 8) + hopLen nex = buf.length ∧
      ((nex = .none ∧ b = .page (nameOf buf 8) (dataOf buf (nameEnd buf 8)) .none) ∨
        (nex = .short ∧ b = .page (nameOf buf 8) (dataOf buf (nameEnd buf 8))
          (.short (bytesAt buf (fragAt buf (nameEnd buf 8) + fragLen buf (nameEnd buf 8)) 6))))
  | .poke, b => NameFits buf 8 ∧ NameFits buf (nameEnd buf 8) ∧ DataFits buf (nameEnd buf (nameEnd buf 8)) ∧
      fragAt buf (nameEnd buf (nameEnd buf 8)) + fragLen buf (nameEnd buf (nameEnd buf 8)) = buf.length ∧
      b = .poke (nameOf buf 8) (nameOf buf (nameEnd buf 8)) (dataOf buf (nameEnd buf (nameEnd buf 8)))

section Accepted

variable {nex : HopType} {typ : Ptag} {body : Body Slice} {s : Sifter} {q : ℕ}

/-- Nothing remains only at the end. -/
theorem rem_at_end (hn : buf.length < 2 ^ 32) (h : (Sifter.at buf (8 * q) none).rem = 0)
    (hq : q < buf.length + 2 ^ 31) : q = buf.length := by
  rw [Sifter.at_byte] at h
  rcases Nat.lt_or_ge buf.length q with hlt | hle
  · exact absurd h (rem_ne_zero hlt (by omega))
  · have hz := congrArg UInt32.toNat h
    rw [rem_toNat hn hle, UInt32.toNat_zero] at hz
    omega

/-- Without an error a name ends inside the buffer, or its path ends the sifting behind it. -/
theorem name_accepted (hn : buf.length < 2 ^ 32) (ho : o ≤ buf.length) {r : Name Slice × Sifter}
    (h : mesaSiftName buf (.at buf (8 * o) none) = .ok r) :
    r = (nameOf buf o, .at buf (8 * nameEnd buf o) none) ∧
      (NameFits buf o ∨ buf.length < nameEnd buf o ∧ nameEnd buf o < buf.length + 2 ^ 31) := by
  by_cases hfits : NameFits buf o
  · exact ⟨Except.ok.inj (h.symm.trans (name_lands hn hfits)), .inl hfits⟩
  · rcases name_strays hn ho hfits with ⟨x, hx⟩ | ⟨hr, hout⟩
    · cases h.symm.trans hx
    · exact ⟨Except.ok.inj (h.symm.trans hr), .inr hout⟩

/-- The first of two actions that go through. -/
theorem run_first {α β : Type} {m : Sift α} {f : α → Sift β} {s : Sifter} {r : β × Sifter} (h : (m >>= f) s = .ok r) :
    ∃ y, m s = .ok y ∧ f y.1 y.2 = .ok r := by
  cases hm : m s with
  | error x =>
    rw [run_bind_error hm] at h
    cases h
  | ok y => exact ⟨y, rfl, (run_bind hm).symm.trans h⟩

/-- Behind a name that ends outside nothing goes through. -/
theorem name_then {β : Type} {f : Name Slice → Sift β} (hn : buf.length < 2 ^ 32) (ho : o ≤ buf.length) {r : β × Sifter}
    (hf : ∀ nam q, buf.length < q → q < buf.length + 2 ^ 31 → ∃ x, f nam (.at buf (8 * q) none) = .error x)
    (h : (mesaSiftName buf >>= f) (.at buf (8 * o) none) = .ok r) :
    NameFits buf o ∧ f (nameOf buf o) (.at buf (8 * nameEnd buf o) none) = .ok r := by
  obtain ⟨y, hy, hr⟩ := run_first h
  obtain ⟨rfl, hfits | ⟨hout, hfar⟩⟩ := name_accepted hn ho hy
  · exact ⟨hfits, hr⟩
  · obtain ⟨x, hx⟩ := hf (nameOf buf o) _ hout hfar
    cases hr.symm.trans hx

/-- Data and what follows it, without an error. -/
theorem data_then {β : Type} {f : Data Slice → Sift β} (hn : buf.length < 2 ^ 32) (ho : o ≤ buf.length) {r : β × Sifter}
    (hf : ∀ dat, Stays (f dat)) (h : (mesaSiftData buf >>= f) (.at buf (8 * o) none) = .ok r) (he : r.2.err = none) :
    DataFits buf o ∧ fragAt buf o + fragLen buf o ≤ buf.length ∧
      f (dataOf buf o) (.at buf (8 * (fragAt buf o + fragLen buf o)) none) = .ok r := by
  obtain ⟨y, hy, hr⟩ := run_first h
  by_cases hfits : DataFits buf o
  · obtain ⟨e, hd, hend⟩ := mesaSiftData_inside hn hfits
    obtain rfl := Except.ok.inj (hy.symm.trans hd)
    cases e with
    | none => exact ⟨hfits, hend.mp rfl, hr⟩
    | some msg => exact absurd he (hf _ _ _ (Option.some_ne_none msg) hr)
  · obtain ⟨x, hx⟩ := mesaSiftData_outside hn ho hfits
    cases hy.symm.trans hx

/-- **Sifted without an error and to the last byte, a body is its parts.** -/
theorem body_parts (hn : buf.length < 2 ^ 32) (h8 : 8 ≤ buf.length) (typ : Ptag)
    (h : mesaSiftBody buf nex typ (.at buf (8 * 8) none) = .ok (body, s)) (he : s.err = none) (hrem : s.rem = 0) :
    Parts buf nex typ body ∧ s = .at buf (8 * buf.length) none := by
  have hlt := lt_nameEnd buf 8
  cases typ with
  | resv =>
    obtain ⟨rfl, rfl⟩ := Prod.mk.inj (Except.ok.inj h)
    have hend := rem_at_end hn hrem (by omega)
    exact ⟨⟨rfl, hend.symm⟩, by rw [← hend]⟩
  | peek =>
    obtain ⟨y, hy, hr⟩ := run_first (f := fun nam => pure (Body.peek nam)) h
    obtain ⟨rfl, hrest⟩ := name_accepted hn h8 hy
    obtain ⟨rfl, rfl⟩ := Prod.mk.inj (Except.ok.inj hr)
    have hfar : nameEnd buf 8 < buf.length + 2 ^ 31 := hrest.elim (fun hf => by have := hf.2; omega) And.right
    have hend := rem_at_end hn hrem hfar
    exact ⟨⟨rfl, hrest.resolve_right (by omega), hend⟩, by rw [← hend]⟩
  | page =>
    obtain ⟨hname, hrun⟩ := name_then hn h8 (fun nam q hout hfar =>
      ⟨_, run_bind_error (mesaSiftData_lost hn hout hfar)⟩) h
    obtain ⟨hdata, hin, hrun⟩ := data_then hn hname.2 (fun dat => .bind (.hops nex) fun _ => .pure _) hrun he
    cases nex with
    | none =>
      obtain ⟨rfl, rfl⟩ := Prod.mk.inj (Except.ok.inj hrun)
      have hend := rem_at_end hn hrem (by omega)
      exact ⟨⟨hname, hdata, hend, .inl ⟨rfl, rfl⟩⟩, by rw [← hend]⟩
    | short =>
      rcases Nat.lt_or_ge buf.length (fragAt buf (nameEnd buf 8) + fragLen buf (nameEnd buf 8) + 6) with hout | hin6
      · cases hrun.symm.trans (run_bind_error (siftHops_outside hin (show _ < _ + hopLen .short from hout)))
      · have hhop :
          siftHops buf .short (.at buf (8 * (fragAt buf (nameEnd buf 8) + fragLen buf (nameEnd buf 8))) none) =
            .ok (.short (bytesAt buf (fragAt buf (nameEnd buf 8) + fragLen buf (nameEnd buf 8)) 6),
              .at buf (8 * (fragAt buf (nameEnd buf 8) + fragLen buf (nameEnd buf 8) + 6)) none) :=
          run_bind (siftBytes_inside hn hin6)
        obtain ⟨rfl, rfl⟩ := Prod.mk.inj (Except.ok.inj (hrun.symm.trans (run_bind hhop)))
        have hend := rem_at_end hn hrem (by omega)
        exact ⟨⟨hname, hdata, hend, .inr ⟨rfl, rfl⟩⟩, by rw [← hend]⟩
    | long | many =>
      obtain ⟨-, rfl⟩ := Prod.mk.inj (Except.ok.inj hrun)
      exact absurd he (Option.some_ne_none _)
  | poke =>
    obtain ⟨hname, hrun⟩ := name_then hn h8 (fun nam q hout hfar =>
      ⟨_, run_bind_error (mesaSiftName_lost hn hout hfar)⟩) h
    obtain ⟨hpay, hrun⟩ := name_then hn hname.2 (fun nam q hout hfar =>
      ⟨_, run_bind_error (mesaSiftData_lost hn hout hfar)⟩) hrun
    obtain ⟨hdata, hin, hrun⟩ := data_then hn hpay.2 (fun dat => .pure _) hrun he
    obtain ⟨rfl, rfl⟩ := Prod.mk.inj (Except.ok.inj hrun)
    have hend := rem_at_end hn hrem (by omega)
    exact ⟨⟨hname, hpay, hdata, hend, rfl⟩, by rw [← hend]⟩

/-- Bytes that are fetched are those of the buffer. -/
theorem fetch_ok {pos len : ℕ} {l : Bytes len} {t : Sifter} (h : fetch buf pos len s = .ok (l, t)) :
    t = s ∧ (pos + len ≤ buf.length → l.val = (buf.drop pos).take len) := by
  unfold fetch at h
  split at h
  · obtain ⟨rfl, rfl⟩ := Prod.mk.inj (Except.ok.inj h)
    exact ⟨rfl, fun _ => rfl⟩
  · rename_i hout
    split at h
    · exact ⟨(Prod.mk.inj (Except.ok.inj h)).2.symm, fun hin => absurd hin hout⟩
    · cases h

/-- The bytes behind the head have its checksum. -/
theorem summed_accepted {hed : Head} {p : Pact Slice} {t : Sifter} (hn : buf.length < 2 ^ 32) (h8 : 8 ≤ buf.length)
    (hbody : mesaSiftBody buf nex typ (.at buf (8 * 8) none) = .ok (body, s))
    (h : summed buf (.at buf (8 * 8) none) hed body s = .ok (p, t)) (he : t.err = none) (hrem : t.rem = 0) :
    Noun.mugBytes (buf.drop 8) &&& 0xfffff = hed.mug ∧ p = ⟨hed, body⟩ ∧ Parts buf nex typ body := by
  unfold summed at h
  rw [run_bind (a := s) (t := s) rfl] at h
  obtain ⟨⟨l, u⟩, hl, hrun⟩ := run_first h
  obtain ⟨hu, hval⟩ := fetch_ok hl
  subst hu
  by_cases hmug : Noun.mugBytes l.val &&& 0xfffff = hed.mug
  swap
  · rw [run_bind (siftExpect_false hmug _ _)] at hrun
    obtain ⟨-, rfl⟩ := Prod.mk.inj (Except.ok.inj hrun)
    unfold Sifter.fail at he
    split at he
    · cases he
    · exact absurd he ‹_›
  rw [run_bind (siftExpect_true hmug _ _)] at hrun
  obtain ⟨rfl, rfl⟩ := Prod.mk.inj (Except.ok.inj hrun)
  obtain ⟨hparts, hs⟩ := body_parts hn h8 typ hbody he hrem
  refine ⟨?_, rfl, hparts⟩
  -- what was summed is all that follows the head
  have hpos : (Sifter.at buf (8 * 8) none).pos = 8 := by rw [Sifter.at_byte]
  have hpass := @passed _ _ buf none none h8
  rw [← hs, Nat.mod_eq_of_lt (show buf.length - 8 < 2 ^ 32 by omega)] at hpass
  generalize l.val = taken at hval hmug
  rw [hpass, hpos] at hval
  have hall : (buf.drop 8).take (buf.length - 8) = buf.drop 8 := List.take_of_length_le (by rw [List.length_drop])
  rwa [hval (by omega), hall] at hmug

/-- **What is accepted**: a head of this protocol with its cookie, and parts that fill the rest of the buffer
and have the checksum of the head. -/
theorem accepted_parts {p : Pact Slice} (hn : buf.length < 2 ^ 32) (h : mesaSiftPactFromBuf buf = .ok (p, none)) :
    8 ≤ buf.length ∧ field buf 4 3 = 1 ∧ UInt32.ofNat (field buf 32 32) = mesaCookie ∧
      Noun.mugBytes (buf.drop 8) &&& 0xfffff = (headOf buf).1.mug ∧ p.hed = (headOf buf).1 ∧
        Parts buf (headOf buf).1.nex (headOf buf).2 p.body := by
  unfold mesaSiftPactFromBuf at h
  rw [sifterInit_eq] at h
  cases hrun : mesaSiftPact buf (.at buf 0 none) with
  | error x => cases (except_bind_error hrun).symm.trans h
  | ok y =>
    obtain ⟨p', t⟩ := y
    have hlast := (except_bind hrun).symm.trans h
    obtain ⟨rfl, hend⟩ := Prod.mk.inj (Except.ok.inj hlast)
    have hdone : t.err = none ∧ t.rem = 0 := by
      by_cases ht : t.rem ≠ 0 ∧ t.err = none
      · rw [if_pos ht, Sifter.fail, if_pos ht.2] at hend
        cases hend
      · rw [if_neg ht] at hend
        exact ⟨hend, not_not.mp fun h0 => ht ⟨h0, hend⟩⟩
    -- behind a bad head the error stays
    have hbad (b : ℕ) (msg : String)
        (hhead : mesaSiftHead buf (.at buf 0 none) = .ok (headOf buf, .at buf (8 * b) (some msg))) : False :=
      (Stays.bind (.body (headOf buf).1.nex (headOf buf).2) fun body => .summed (.at buf (8 * b) (some msg))
        (headOf buf).1 body)
        _ _ (Option.some_ne_none msg) ((mesaSiftPact_head hhead).symm.trans hrun) hdone.1
    by_cases hpro : field buf 4 3 = 1
    swap
    · rcases Nat.lt_or_ge buf.length 3 with h3 | h3
      · cases (run_bind_error (mesaSiftHead_outside (by omega) (.inl h3))).symm.trans hrun
      · exact (hbad 4 _ (mesaSiftHead_protocol hn h3 hpro)).elim
    rcases Nat.lt_or_ge buf.length 8 with h8 | h8
    · cases (run_bind_error (mesaSiftHead_outside h8 (.inr hpro))).symm.trans hrun
    have hhead := mesaSiftHead_inside hn h8 hpro
    by_cases hc : UInt32.ofNat (field buf 32 32) = mesaCookie
    swap
    · rw [if_neg hc] at hhead
      exact (hbad 8 _ hhead).elim
    rw [if_pos hc] at hhead
    have hall := (mesaSiftPact_head hhead).symm.trans hrun
    cases hbody : mesaSiftBody buf (headOf buf).1.nex (headOf buf).2 (.at buf (8 * 8) none) with
    | error x => cases (except_bind_error hbody).symm.trans hall
    | ok z =>
      obtain ⟨body, s⟩ := z
      obtain ⟨hmug, rfl, hparts⟩ := summed_accepted hn h8 hbody ((except_bind hbody).symm.trans hall) hdone.1 hdone.2
      exact ⟨h8, hpro, hc, hmug, rfl, hparts⟩

end Accepted

/-! ### The least tags -/

/-- A number of `w tag` bytes would not fit in those of the tag before. -/
def Tight (w : ℕ → ℕ) (tag v : ℕ) : Prop := tag = 0 ∨ 2 ^ (8 * w (tag - 1)) ≤ v

instance (w : ℕ → ℕ) (tag v : ℕ) : Decidable (Tight w tag v) := inferInstanceAs (Decidable (_ ∨ _))

section Tags

variable {w : ℕ → ℕ} {g m tag v : ℕ}

/-- **The least tag of a number is the one it has** when the number is tight. -/
theorem tag_eq_iff (hg : ∀ r ≤ m, (g ≤ r ↔ v < 2 ^ (8 * w r))) (hm : tag ≤ m) (hv : v < 2 ^ (8 * w tag)) :
    g = tag ↔ Tight w tag v := by
  have hle := (hg tag hm).mpr hv
  unfold Tight
  rcases Nat.eq_zero_or_pos tag with h0 | hpos
  · exact ⟨fun _ => .inl h0, fun _ => by omega⟩
  · have hbefore := (hg (tag - 1) (by omega)).not
    rw [Nat.not_lt] at hbefore
    rw [or_iff_right hpos.ne', ← hbefore]
    omega

theorem mesaMet3_le_iff (a : UInt32) (n : ℕ) : mesaMet3 a ≤ n ↔ a.toNat < 2 ^ (8 * n) := by
  rw [← met0_le_iff, mesaMet3, Nat.shiftRight_eq_div_pow]
  omega

theorem safeDec_le_iff (a : UInt32) (n : ℕ) : safeDec (mesaMet3 a) ≤ n ↔ a.toNat < 2 ^ (8 * (n + 1)) := by
  rw [← mesaMet3_le_iff]
  unfold safeDec
  split <;> omega

theorem mesaMakeChubTag_le_iff (a : UInt64) : ∀ r ≤ 3, (mesaMakeChubTag a ≤ r ↔ a.toNat < 2 ^ (8 * 1 <<< r)) := by
  intro r hr
  have h := a.toNat_lt
  unfold mesaMakeChubTag
  have hcases : r = 0 ∨ r = 1 ∨ r = 2 ∨ r = 3 := by omega
  rcases hcases with rfl | rfl | rfl | rfl
  · show _ ↔ a.toNat < 2 ^ 8
    repeat' split
    all_goals omega
  · show _ ↔ a.toNat < 2 ^ 16
    repeat' split
    all_goals omega
  · show _ ↔ a.toNat < 2 ^ 32
    repeat' split
    all_goals omega
  · show _ ↔ a.toNat < 2 ^ 64
    repeat' split
    all_goals omega

/-- The number of a ship. -/
def shipVal (who : Ship) : ℕ := who.lo.toNat + who.hi.toNat * 2 ^ 64

theorem shiftRight_eq_zero_iff (a j : UInt64) (hj : j.toNat < 64) : a >>> j = 0 ↔ a.toNat < 2 ^ j.toNat := by
  rw [← UInt64.toNat_inj, UInt64.toNat_shiftRight, Nat.mod_eq_of_lt hj, UInt64.toNat_zero, Nat.shiftRight_eq_div_pow,
    Nat.div_eq_zero_iff_lt (Nat.two_pow_pos _)]

theorem mesaRank_le_iff (who : Ship) : ∀ r ≤ 3, (mesaRank who ≤ r ↔ shipVal who < 2 ^ (8 * 2 <<< r)) := by
  intro r hr
  have hlo := who.lo.toNat_lt
  have hhi := who.hi.toNat_lt
  have h0 : who.hi = 0 ↔ who.hi.toNat = 0 := by rw [← UInt64.toNat_inj, UInt64.toNat_zero]
  have h32 := shiftRight_eq_zero_iff who.lo 32 (by decide)
  have h16 := shiftRight_eq_zero_iff who.lo 16 (by decide)
  have h8 := shiftRight_eq_zero_iff who.lo 8 (by decide)
  rw [show (32 : UInt64).toNat = 32 from rfl] at h32
  rw [show (16 : UInt64).toNat = 16 from rfl] at h16
  rw [show (8 : UInt64).toNat = 8 from rfl] at h8
  have hrank : mesaRank who = if who.hi ≠ 0 then 3 else if who.lo >>> 32 ≠ 0 then 2
      else if who.lo >>> 16 ≠ 0 then 1 else 0 := by
    unfold mesaRank shipRank
    by_cases c0 : who.hi = 0 <;> by_cases c1 : who.lo >>> 32 = 0 <;> by_cases c2 : who.lo >>> 16 = 0 <;>
      by_cases c3 : who.lo >>> 8 = 0 <;> simp [c0, c1, c2, c3]
  rw [hrank, shipVal]
  simp only [ne_eq, h0, h32, h16]
  have hcases : r = 0 ∨ r = 1 ∨ r = 2 ∨ r = 3 := by omega
  rcases hcases with rfl | rfl | rfl | rfl
  · show _ ↔ _ < 2 ^ 16
    repeat' split
    all_goals omega
  · show _ ↔ _ < 2 ^ 32
    repeat' split
    all_goals omega
  · show _ ↔ _ < 2 ^ 64
    repeat' split
    all_goals omega
  · show _ ↔ _ < 2 ^ 128
    repeat' split
    all_goals omega

/-- The ship of some bytes has their number. -/
theorem shipVal_ofBytes (l : List UInt8) : shipVal (shipOfBytes l) = loadBytes l 16 := by
  have hlo : (shipOfBytes l).lo.toNat = loadBytes l 8 := UInt64.toNat_ofNat_of_lt' (loadBytes_lt l 8)
  have hhi : (shipOfBytes l).hi.toNat = loadBytes (l.drop 8) 8 := UInt64.toNat_ofNat_of_lt' (loadBytes_lt _ 8)
  have hor : loadBytes l 8 + loadBytes (l.drop 8) 8 * 2 ^ 64 = loadBytes l 8 ||| loadBytes (l.drop 8) 8 <<< 64 := by
    rw [← Nat.shiftLeft_eq, Nat.add_comm, Nat.shiftLeft_add_eq_or_of_lt (loadBytes_lt l 8), Nat.or_comm]
  rw [shipVal, hlo, hhi, hor]
  refine Nat.eq_of_testBit_eq fun i => ?_
  rw [Nat.testBit_or, Nat.testBit_shiftLeft, testBit_loadBytes, testBit_loadBytes, testBit_loadBytes, bitAt_drop]
  rcases Nat.lt_or_ge i 64 with h | h
  · simp [h, show i < 128 by omega, Nat.not_le.mpr h]
  · have hi : 8 * 8 + (i - 64) = i := by omega
    have hlt : (decide (i - 64 < 8 * 8)) = decide (i < 8 * 16) := decide_eq_decide.mpr
      ⟨fun h => by omega, fun h => by omega⟩
    rw [decide_eq_false (by omega), Bool.false_and, Bool.false_or, hi, hlt, decide_eq_true h, Bool.true_and]

theorem shipVal_slice {p len : ℕ} (hl : len ≤ 16) :
    shipVal (shipOfBytes ((buf.drop p).take len)) = field buf (8 * p) (8 * len) := by
  rw [shipVal_ofBytes]
  refine eq_field fun i => ?_
  rw [testBit_loadBytes]
  rcases Nat.lt_or_ge i (8 * len) with h | h
  · rw [bitAt_take h, bitAt_drop, decide_eq_true h, decide_eq_true (by omega)]
  · rw [bitAt_of_le ((Nat.mul_le_mul_left 8 (List.length_take_le _ _)).trans h), decide_eq_false (Nat.not_lt.mpr h),
      Bool.and_false, Bool.false_and]

/-- The bytes of a ship are those it was made of. -/
theorem shipToBytes_slice {p len : ℕ} (hl : len ≤ 16) (hp : p + len ≤ buf.length) :
    shipToBytes (shipOfBytes ((buf.drop p).take len)) len = (buf.drop p).take len := by
  have hlen : ((buf.drop p).take len).length = len := by rw [List.length_take, List.length_drop]; omega
  have hlo : (shipOfBytes ((buf.drop p).take len)).lo.toNat = loadBytes ((buf.drop p).take len) 8 :=
    UInt64.toNat_ofNat_of_lt' (loadBytes_lt _ 8)
  have hhi : (shipOfBytes ((buf.drop p).take len)).hi.toNat = loadBytes (((buf.drop p).take len).drop 8) 8 :=
    UInt64.toNat_ofNat_of_lt' (loadBytes_lt _ 8)
  refine ext_bitAt (by rw [length_shipToBytes _ hl, hlen]) fun i hi => ?_
  rw [length_shipToBytes _ hl] at hi
  rw [bitAt_shipToBytes _ hl, decide_eq_true hi, Bool.true_and, hlo, hhi, testBit_loadBytes, testBit_loadBytes]
  rcases Nat.lt_or_ge i 64 with h | h
  · rw [if_pos h, decide_eq_true h, Bool.true_and]
  · have hi8 : 8 * 8 + (i - 64) = i := by omega
    rw [if_neg (Nat.not_lt.mpr h), decide_eq_true (by omega), Bool.true_and, bitAt_drop, hi8]

end Tags

/-! ### Names -/

section Name

/-- **The name at `o` is as short as it can be**: its ship, its rift and the number of its fragment would not
fit in the bytes of a lesser tag. -/
def NameMinimal (buf : List UInt8) (o : ℕ) : Prop :=
  Tight (2 <<< ·) (field buf (8 * o) 2) (field buf (8 * (o + 1)) (8 * 2 <<< field buf (8 * o) 2)) ∧
    Tight (· + 1) (field buf (8 * o + 2) 2) (field buf (8 * riftAt buf o) (8 * (field buf (8 * o + 2) 2 + 1))) ∧
      (field buf (8 * o + 4) 1 = 0 → Tight (1 <<< ·) (field buf (8 * o + 6) 2)
        (field buf (8 * (boqAt buf o + 1)) (8 * 1 <<< field buf (8 * o + 6) 2)))

instance : Decidable (NameMinimal buf o) := inferInstanceAs (Decidable (_ ∧ _ ∧ (_ → _)))

theorem rank_tag (buf : List UInt8) (o : ℕ) :
    (mesaRank (nameOf buf o).her = field buf (8 * o) 2 ↔ Tight (2 <<< ·) (field buf (8 * o) 2)
      (field buf (8 * (o + 1)) (8 * 2 <<< field buf (8 * o) 2))) ∧ mesaRank (nameOf buf o).her ≤ field buf
        (8 * o) 2 := by
  have hval : shipVal (nameOf buf o).her = field buf (8 * (o + 1)) (8 * 2 <<< field buf (8 * o) 2) :=
    shipVal_slice (two_shiftLeft_le buf _)
  have hg := mesaRank_le_iff (nameOf buf o).her
  rw [hval] at hg
  have hm : field buf (8 * o) 2 ≤ 3 := Nat.le_of_lt_succ (field_lt buf _ 2)
  exact ⟨tag_eq_iff (w := (2 <<< ·)) hg hm (field_lt buf _ _), (hg _ hm).mpr (field_lt buf _ _)⟩

theorem rift_tag (buf : List UInt8) (o : ℕ) :
    (safeDec (mesaMet3 (nameOf buf o).rif) = field buf (8 * o + 2) 2 ↔ Tight (· + 1) (field buf (8 * o + 2) 2)
      (field buf (8 * riftAt buf o) (8 * (field buf (8 * o + 2) 2 + 1)))) ∧
        safeDec (mesaMet3 (nameOf buf o).rif) ≤ field buf (8 * o + 2) 2 ∧
          (nameOf buf o).rif.toNat = field buf (8 * riftAt buf o) (8 * (field buf (8 * o + 2) 2 + 1)) := by
  have hm : field buf (8 * o + 2) 2 ≤ 3 := Nat.le_of_lt_succ (field_lt buf _ 2)
  have hval : (nameOf buf o).rif.toNat = field buf (8 * riftAt buf o) (8 * (field buf (8 * o + 2) 2 + 1)) :=
    UInt32.toNat_ofNat_of_lt' (Nat.lt_of_lt_of_le (field_lt buf _ _)
      (Nat.pow_le_pow_right (by decide) (show 8 * (field buf (8 * o + 2) 2 + 1) ≤ 32 by omega)))
  have hg (r : ℕ) (_ : r ≤ 3) := safeDec_le_iff (nameOf buf o).rif r
  rw [hval] at hg
  exact ⟨tag_eq_iff (w := (· + 1)) hg hm (field_lt buf _ _), (hg _ hm).mpr (field_lt buf _ _), hval⟩

/-- A number of one, two, four or eight bytes, and its tag. -/
theorem chub_tag (buf : List UInt8) (t a : ℕ) {v : UInt64}
    (hv : v = UInt64.ofNat (field buf (8 * a) (8 * 1 <<< field buf t 2))) :
    (mesaMakeChubTag v = field buf t 2 ↔ Tight (1 <<< ·) (field buf t 2)
      (field buf (8 * a) (8 * 1 <<< field buf t 2))) ∧
      mesaMakeChubTag v ≤ field buf t 2 ∧ v.toNat = field buf (8 * a) (8 * 1 <<< field buf t 2) := by
  have hm : field buf t 2 ≤ 3 := Nat.le_of_lt_succ (field_lt buf _ 2)
  have hle := one_shiftLeft_le buf t
  have hval : v.toNat = field buf (8 * a) (8 * 1 <<< field buf t 2) := by
    rw [hv]
    exact UInt64.toNat_ofNat_of_lt' (Nat.lt_of_lt_of_le (field_lt buf _ _)
      (Nat.pow_le_pow_right (by decide) (show 8 * 1 <<< field buf t 2 ≤ 64 by omega)))
  have hg := mesaMakeChubTag_le_iff v
  rw [hval] at hg
  exact ⟨tag_eq_iff (w := (1 <<< ·)) hg hm (field_lt buf _ _), (hg _ hm).mpr (field_lt buf _ _), hval⟩

theorem fra_tag (hnit : field buf (8 * o + 4) 1 = 0) :
    (mesaMakeChubTag (nameOf buf o).fra = field buf (8 * o + 6) 2 ↔ Tight (1 <<< ·) (field buf (8 * o + 6) 2)
      (field buf (8 * (boqAt buf o + 1)) (8 * 1 <<< field buf (8 * o + 6) 2))) ∧
        mesaMakeChubTag (nameOf buf o).fra ≤ field buf (8 * o + 6) 2 ∧
          (nameOf buf o).fra.toNat = field buf (8 * (boqAt buf o + 1)) (8 * 1 <<< field buf (8 * o + 6) 2) := by
  refine chub_tag buf (8 * o + 6) (boqAt buf o + 1) ?_
  show fraOf buf o = _
  rw [fraOf, if_neg (not_not.mpr hnit)]

theorem nit_false (h : field buf (8 * o + 4) 1 = 0) : (nameOf buf o).nit = false := decide_eq_false (by omega)

theorem nit_true (h : field buf (8 * o + 4) 1 ≠ 0) : (nameOf buf o).nit = true :=
  decide_eq_true (by have hlt := field_lt buf (8 * o + 4) 1; omega)

/-- The head of a name that is as short as it can be is the byte that stands there. -/
theorem nameTag_minimal (hp : Plain buf o) (h : NameMinimal buf o) : nameTag (nameOf buf o) = field buf (8 * o) 8 := by
  have hsplit : field buf (8 * o) 8 = field buf (8 * o) 2 + field buf (8 * o + 2) 2 * 4 + field buf (8 * o + 4) 1 * 16 +
      field buf (8 * o + 5) 1 * 32 + field buf (8 * o + 6) 2 * 64 := by
    rw [field_add buf (8 * o) 6 2, field_add buf (8 * o) 5 1, field_add buf (8 * o) 4 1, field_add buf (8 * o) 2 2]
    rfl
  have htau := field_lt buf (8 * o + 5) 1
  have haut : (if (nameOf buf o).aut then 1 else 0) = field buf (8 * o + 5) 1 := by
    show (if decide (field buf (8 * o + 5) 1 = 1) then 1 else 0) = _
    by_cases h1 : field buf (8 * o + 5) 1 = 1
    · rw [decide_eq_true h1, if_pos rfl, h1]
    · rw [decide_eq_false h1, if_neg (by decide)]
      omega
  have hnit1 := field_lt buf (8 * o + 4) 1
  rw [hsplit, nameTag, (rank_tag buf o).1.mpr h.1, (rift_tag buf o).1.mpr h.2.1]
  by_cases hnit : field buf (8 * o + 4) 1 = 0
  · simp only [nit_false hnit, Bool.false_eq_true, if_false, haut, (fra_tag hnit).1.mpr (h.2.2 hnit), hnit]
  · obtain ⟨h5, h6⟩ := hp hnit
    have h4 : field buf (8 * o + 4) 1 = 1 := by omega
    rw [nit_true hnit, if_pos rfl, if_pos rfl, if_pos rfl, h4, h5, h6]

/-- The path of a name inside the buffer. -/
theorem namePat_length (h : NameFits buf o) :
    ((nameOf buf o).read buf).pat.length = field buf (8 * pathAt buf o) 16 := by
  have hend := h.2
  unfold nameEnd at hend
  show ((buf.drop (pathAt buf o + 2)).take (field buf (8 * pathAt buf o) 16)).length = _
  rw [List.length_take, List.length_drop]
  omega

theorem nameOf_wf (h : NameFits buf o) : ((nameOf buf o).read buf).Wf := by
  constructor
  · intro hnit
    have h1 : field buf (8 * o + 4) 1 = 1 := of_decide_eq_true hnit
    have hplain := h.1 (by omega)
    refine ⟨decide_eq_false (by omega), ?_⟩
    show fraOf buf o = 0
    rw [fraOf, if_pos (by omega)]
  · rw [namePat_length h]
    exact field_lt buf _ 16

/-- What the tag of the number of a fragment makes of its length. -/
theorem fraBytes_length_le (buf : List UInt8) (o : ℕ) :
    (fraBytes (nameOf buf o)).length ≤ if field buf (8 * o + 4) 1 ≠ 0 then 0 else 1 <<< field buf (8 * o + 6) 2 := by
  rw [length_fraBytes]
  by_cases hnit : field buf (8 * o + 4) 1 = 0
  · have hnit' : (nameOf buf o).nit = false := decide_eq_false (by omega)
    rw [hnit', if_neg (by decide), if_neg (not_not.mpr hnit), mesaBytesOfChubTag, Nat.one_shiftLeft, Nat.one_shiftLeft]
    exact Nat.pow_le_pow_right (by decide) (fra_tag hnit).2.1
  · have hlt := field_lt buf (8 * o + 4) 1
    have hnit' : (nameOf buf o).nit = true := decide_eq_true (by omega)
    rw [hnit', if_pos rfl]
    exact Nat.zero_le _

/-- **Etched again a name is no longer than it was.** -/
theorem nameBytes_length_le (h : NameFits buf o) :
    o + (nameBytes ((nameOf buf o).read buf)).length ≤ nameEnd buf o := by
  have hrank : 2 <<< mesaRank (nameOf buf o).her ≤ 2 <<< field buf (8 * o) 2 := by
    rw [Nat.shiftLeft_eq, Nat.shiftLeft_eq]
    exact Nat.mul_le_mul_left 2 (Nat.pow_le_pow_right (by decide) (rank_tag buf o).2)
  have hrift := (rift_tag buf o).2.1
  have hfra := fraBytes_length_le buf o
  rw [length_fraBytes] at hfra
  rw [length_nameBytes]
  show o + (1 + 2 <<< mesaRank (nameOf buf o).her + (safeDec (mesaMet3 (nameOf buf o).rif) + 1) + 1 +
    (if (nameOf buf o).nit then 0 else mesaBytesOfChubTag (mesaMakeChubTag (nameOf buf o).fra)) + 2 +
      ((nameOf buf o).read buf).pat.length) ≤ _
  rw [namePat_length h, nameEnd, pathAt, boqAt, riftAt]
  omega

/-- **The bytes of a name are those that stand there when it is as short as it can be.** -/
theorem nameBytes_iff (h : NameFits buf o) :
    HasAt buf o (nameBytes ((nameOf buf o).read buf)) ↔ NameMinimal buf o := by
  constructor
  · intro hat
    obtain ⟨hran, hrif, -, -, hgaf⟩ := nameTag_fields hat
    refine ⟨(rank_tag buf o).1.mp hran.symm, (rift_tag buf o).1.mp hrif.symm, fun hnit => (fra_tag hnit).1.mp ?_⟩
    have hnit' : (nameOf buf o).nit = false := decide_eq_false (by omega)
    show mesaMakeChubTag (nameOf buf o).fra = _
    rw [hgaf]
    exact (if_neg (by rw [show ((nameOf buf o).read buf).nit = (nameOf buf o).nit from rfl, hnit']; decide)).symm
  · intro hmin
    have hran := (rank_tag buf o).1.mpr hmin.1
    have hrif := (rift_tag buf o).1.mpr hmin.2.1
    have hend := h.2
    have h1 := riftAt_le buf o
    have h2 := boqAt_le buf o
    have h3 := boqAt_lt buf o
    have h4 := le_nameEnd buf o
    have hlen := length_shipToBytes (nameOf buf o).her (two_shiftLeft_rank (nameOf buf o).her)
    have hship : o + 1 + 2 <<< mesaRank (nameOf buf o).her = riftAt buf o := by rw [riftAt, hran]
    have hfra : boqAt buf o + 1 + (fraBytes (nameOf buf o)).length = pathAt buf o := by
      rw [pathAt, length_fraBytes]
      by_cases hnit : field buf (8 * o + 4) 1 = 0
      · rw [nit_false hnit, if_neg (by decide), if_neg (not_not.mpr hnit), (fra_tag hnit).1.mpr (hmin.2.2 hnit)]
        rfl
      · rw [nit_true hnit, if_pos rfl, if_pos hnit]
    -- where each part stands
    have pTag : HasAt buf o (numBytes 1 (nameTag (nameOf buf o))) := by
      rw [nameTag_minimal h.1 hmin]
      exact hasAt_num (n := 1) (by omega)
    have pShip : HasAt buf (o + 1) (shipToBytes (nameOf buf o).her (2 <<< mesaRank (nameOf buf o).her)) := by
      rw [hran]
      show HasAt buf (o + 1) (shipToBytes (shipOfBytes ((buf.drop (o + 1)).take (2 <<< field buf (8 * o) 2))) _)
      rw [hran] at hship
      rw [shipToBytes_slice (two_shiftLeft_le buf _) (by omega)]
      exact hasAt_slice (by omega)
    have pRift :
      HasAt buf (riftAt buf o) (numBytes (safeDec (mesaMet3 (nameOf buf o).rif) + 1) (nameOf buf o).rif.toNat) := by
      rw [hrif, (rift_tag buf o).2.2]
      exact hasAt_num (show boqAt buf o ≤ buf.length by omega)
    have pBoq : HasAt buf (boqAt buf o) [(nameOf buf o).boq] := hasAt_num (n := 1) (by omega)
    have pFra : HasAt buf (boqAt buf o + 1) (fraBytes (nameOf buf o)) := by
      unfold fraBytes
      unfold pathAt at h4
      by_cases hnit : field buf (8 * o + 4) 1 = 0
      · rw [if_neg (not_not.mpr hnit)] at h4
        rw [nit_false hnit, if_neg (by decide), (fra_tag hnit).1.mpr (hmin.2.2 hnit), (fra_tag hnit).2.2]
        exact hasAt_num (by omega)
      · rw [nit_true hnit, if_pos rfl]
        exact hasAt_nil (by omega)
    have pLen : HasAt buf (pathAt buf o) (numBytes 2 ((nameOf buf o).read buf).pat.length) := by
      rw [namePat_length h]
      exact hasAt_num (n := 2) (by omega)
    have pPat : HasAt buf (pathAt buf o + 2) ((nameOf buf o).read buf).pat := hasAt_slice
      (show _ ≤ buf.length from hend)
    refine pTag.append ?_
    rw [length_numBytes]
    refine pShip.append ?_
    rw [hlen, hship]
    refine pRift.append ?_
    rw [length_numBytes, hrif]
    refine pBoq.append ?_
    refine pFra.append ?_
    rw [hfra]
    refine pLen.append ?_
    rw [length_numBytes]
    exact pPat

end Name

/-! ### Data -/

section Data

/-- **The data at `o` is as short as it can be**: the length of the message and that of the fragment would not
fit in less bytes, the latter is not in a byte of its own where a tag does, and the unused bits are zero. -/
def DataMinimal (buf : List UInt8) (o : ℕ) : Prop :=
  Tight (1 <<< ·) (field buf (8 * o) 2) (field buf (8 * (o + 1)) (8 * 1 <<< field buf (8 * o) 2)) ∧
    field buf (8 * o + 4) 2 = 0 ∧ Tight (fun n => n) (nelOf buf o) (fragLen buf o) ∧
      (field buf (8 * o + 6) 2 = 3 → 3 ≤ nelOf buf o)

instance : Decidable (DataMinimal buf o) := inferInstanceAs (Decidable (_ ∧ _ ∧ _ ∧ (_ → _)))

theorem tob_tag (buf : List UInt8) (o : ℕ) :
    (mesaMakeChubTag (dataOf buf o).tob = field buf (8 * o) 2 ↔ Tight (1 <<< ·) (field buf (8 * o) 2)
      (field buf (8 * (o + 1)) (8 * 1 <<< field buf (8 * o) 2))) ∧
        mesaMakeChubTag (dataOf buf o).tob ≤ field buf (8 * o) 2 ∧
          (dataOf buf o).tob.toNat = field buf (8 * (o + 1)) (8 * 1 <<< field buf (8 * o) 2) :=
  chub_tag buf (8 * o) (o + 1) rfl

theorem nel_tag (h : DataFits buf o) :
    (mesaMet3 (UInt32.ofNat (fragLen buf o)) = nelOf buf o ↔ Tight (fun n => n) (nelOf buf o) (fragLen buf o)) ∧
      mesaMet3 (UInt32.ofNat (fragLen buf o)) ≤ nelOf buf o := by
  have hlt : fragLen buf o < 2 ^ (8 * nelOf buf o) := field_lt buf _ _
  have hval : (UInt32.ofNat (fragLen buf o)).toNat = fragLen buf o :=
    UInt32.toNat_ofNat_of_lt' (Nat.lt_of_lt_of_le hlt
      (Nat.pow_le_pow_right (by decide) (show 8 * nelOf buf o ≤ 32 by have := h.1; omega)))
  have hg (r : ℕ) (_ : r ≤ 4) := mesaMet3_le_iff (UInt32.ofNat (fragLen buf o)) r
  rw [hval] at hg
  exact ⟨tag_eq_iff (w := fun n => n) hg h.1 hlt, (hg _ h.1).mpr hlt⟩

/-- The length of the fragment's length has a byte of its own when it is not below three. -/
theorem nelOf_tag (buf : List UInt8) (o : ℕ) : field buf (8 * o + 6) 2 ≠ 3 → nelOf buf o = field buf (8 * o + 6) 2 :=
  fun h => if_neg h

theorem authOf_flags {p aut auv : ℕ} (haut : aut < 2) (hauv : auv < 2) :
    loob ((authOf buf p aut auv).isSign ∨ (authOf buf p aut auv).isHmac) = aut ∧
      loob ((authOf buf p aut auv).isSign ∨ (authOf buf p aut auv).isNone) = auv := by
  have h1 : aut = 0 ∨ aut = 1 := by omega
  have h2 : auv = 0 ∨ auv = 1 := by omega
  rcases h1 with rfl | rfl <;> rcases h2 with rfl | rfl <;> exact ⟨rfl, rfl⟩

theorem authOf_flags_field (buf : List UInt8) (o : ℕ) :
    loob ((dataOf buf o).aut.isSign ∨ (dataOf buf o).aut.isHmac) = field buf (8 * o + 2) 1 ∧
      loob ((dataOf buf o).aut.isSign ∨ (dataOf buf o).aut.isNone) = field buf (8 * o + 3) 1 :=
  authOf_flags (field_lt buf _ 1) (field_lt buf _ 1)

theorem authBytes_length (buf : List UInt8) (o : ℕ) :
    authAt buf o + (authBytes (dataOf buf o).aut).length = authEnd buf o := by
  obtain ⟨haut, hauv⟩ := authOf_flags_field buf o
  rw [authEnd, ← authLen_loob, haut, hauv]

/-- An authentication inside the buffer has the bytes that stand there. -/
theorem authBytes_hasAt {p aut auv : ℕ} (h : p + authLen aut auv ≤ buf.length) :
    HasAt buf p (authBytes (authOf buf p aut auv)) := by
  have hbytes {q n : ℕ} (hq : q + n ≤ buf.length) : HasAt buf q (bytesAt buf q n).val := by
    rw [bytesAt, dif_pos hq]
    exact hasAt_slice hq
  unfold authLen at h
  unfold authOf
  split
  · rename_i haut
    rw [if_pos haut] at h
    split
    · rename_i hauv
      rw [if_pos hauv] at h
      exact hbytes h
    · rename_i hauv
      rw [if_neg hauv] at h
      exact hbytes h
  · rename_i haut
    rw [if_neg haut] at h
    split
    · exact hasAt_nil (by omega)
    · rename_i hauv
      rw [if_neg hauv] at h
      refine (hbytes (by omega)).append ?_
      rw [(bytesAt buf p 32).property]
      exact hbytes (by omega)

variable (hfrag : fragAt buf o + fragLen buf o ≤ buf.length)

include hfrag

theorem dataFra_length : ((dataOf buf o).read buf).fra.length = fragLen buf o := by
  show ((buf.drop (fragAt buf o)).take (fragLen buf o)).length = _
  rw [List.length_take, List.length_drop]
  omega

theorem dataOf_wf (h : DataFits buf o) : ((dataOf buf o).read buf).Wf := by
  unfold Data.Wf
  rw [dataFra_length hfrag]
  exact Nat.lt_of_lt_of_le (field_lt buf _ _)
    (Nat.pow_le_pow_right (by decide) (show 8 * nelOf buf o ≤ 32 by have := h.1; omega))

/-- **Etched again the data is no longer than it was.** -/
theorem dataBytes_length_le (h : DataFits buf o) :
    o + (dataBytes ((dataOf buf o).read buf)).length ≤ fragAt buf o + fragLen buf o := by
  have htob : 1 <<< mesaMakeChubTag (dataOf buf o).tob ≤ 1 <<< field buf (8 * o) 2 := by
    rw [Nat.one_shiftLeft, Nat.one_shiftLeft]
    exact Nat.pow_le_pow_right (by decide) (tob_tag buf o).2.1
  have hnel := (nel_tag h).2
  have hauth := authBytes_length buf o
  have hmen := nelOf_tag buf o
  have hlt := field_lt buf (8 * o + 6) 2
  have hown : (nelBytes (mesaMet3 (UInt32.ofNat (fragLen buf o)))).length ≤
      if field buf (8 * o + 6) 2 = 3 then 1 else 0 := by
    unfold nelBytes
    split
    · rw [if_pos (by by_contra h3; have := hmen h3; omega)]
      rfl
    · exact Nat.zero_le _
  have hread : (dataBytes ((dataOf buf o).read buf)).length = 1 + (1 <<< mesaMakeChubTag (dataOf buf o).tob +
      ((authBytes (dataOf buf o).aut).length + ((nelBytes (mesaMet3 (UInt32.ofNat (fragLen buf o)))).length +
        (mesaMet3 (UInt32.ofNat (fragLen buf o)) + fragLen buf o)))) := by
    simp only [dataBytes, List.length_append, length_numBytes, dataFra_length hfrag]
    rfl
  rw [hread, fragAt, lenAt, ← hauth, authAt]
  omega

/-- **The bytes of data are those that stand there when it is as short as it can be.** -/
theorem dataBytes_iff (h : DataFits buf o) :
    HasAt buf o (dataBytes ((dataOf buf o).read buf)) ↔ DataMinimal buf o := by
  have hlen := dataFra_length hfrag
  obtain ⟨haut, hauv⟩ := authOf_flags_field buf o
  have hlt4 := field_lt buf (8 * o + 6) 2
  constructor
  · intro hat
    obtain ⟨hbot, -, -, hmen⟩ := dataTag_fields hat
    obtain ⟨-, hend, -⟩ := dataOf_bytes (dataOf_wf hfrag h) hat
    rw [hlen] at hmen
    have hnelLe := (nel_tag h).2
    have hunused : field buf (8 * o + 4) 2 = 0 := by
      have hb := mesaMakeChubTag_lt (dataOf buf o).tob
      have ha := loob_lt ((dataOf buf o).aut.isSign ∨ (dataOf buf o).aut.isHmac)
      have hv := loob_lt ((dataOf buf o).aut.isSign ∨ (dataOf buf o).aut.isNone)
      rw [hat.left.field (by rw [length_numBytes]; decide), field_numBytes _ (by decide)]
      show dataTag (dataOf buf o) ((dataOf buf o).read buf).fra.length / 2 ^ 4 % 2 ^ 2 = 0
      unfold dataTag
      omega
    -- the bytes behind the authentication leave no room for a longer number
    have hnel : mesaMet3 (UInt32.ofNat (fragLen buf o)) = nelOf buf o := by
      by_cases h3 : field buf (8 * o + 6) 2 = 3
      · have hsize : (dataBytes ((dataOf buf o).read buf)).length = 1 + (1 <<< mesaMakeChubTag (dataOf buf o).tob +
            ((authBytes (dataOf buf o).aut).length + ((nelBytes (mesaMet3 (UInt32.ofNat (fragLen buf o)))).length +
              (mesaMet3 (UInt32.ofNat (fragLen buf o)) + fragLen buf o)))) := by
          simp only [dataBytes, List.length_append, length_numBytes, hlen]
          rfl
        have hauth := authBytes_length buf o
        have htob : mesaMakeChubTag (dataOf buf o).tob = field buf (8 * o) 2 := hbot.symm
        have hown : (nelBytes (mesaMet3 (UInt32.ofNat (fragLen buf o)))).length = 1 := by
          unfold nelBytes
          rw [if_pos (hmen.symm.trans h3)]
          rfl
        rw [hsize, htob, hown, fragAt, lenAt, if_pos h3, ← hauth, authAt] at hend
        omega
      · have heq := nelOf_tag buf o h3
        omega
    exact ⟨(tob_tag buf o).1.mp hbot.symm, hunused, (nel_tag h).1.mp hnel, fun h3 => by omega⟩
  · intro hmin
    have hbot := (tob_tag buf o).1.mpr hmin.1
    have hnel := (nel_tag h).1.mpr hmin.2.2.1
    have h1 := authAt_le buf o
    have h2 := authEnd_le buf o
    have h3 := lenAt_le buf o
    have h4 := fragAt_le buf o
    have hmen : min (nelOf buf o) 3 = field buf (8 * o + 6) 2 := by
      by_cases h3 : field buf (8 * o + 6) 2 = 3
      · have := hmin.2.2.2 h3
        omega
      · have := nelOf_tag buf o h3
        omega
    have hauth := authBytes_length buf o
    have hown : authEnd buf o + (nelBytes (nelOf buf o)).length = lenAt buf o := by
      unfold nelBytes lenAt
      rw [hmen]
      split <;> rfl
    have htob : o + 1 + 1 <<< field buf (8 * o) 2 = authAt buf o := rfl
    -- where each part stands
    have hsplit : field buf (8 * o) 8 = field buf (8 * o) 2 + field buf (8 * o + 2) 1 * 4 + field buf
      (8 * o + 3) 1 * 8 +
        field buf (8 * o + 4) 2 * 16 + field buf (8 * o + 6) 2 * 64 := by
      rw [field_add buf (8 * o) 6 2, field_add buf (8 * o) 4 2, field_add buf (8 * o) 3 1, field_add buf (8 * o) 2 1]
      rfl
    have htag : dataTag (dataOf buf o) (fragLen buf o) = field buf (8 * o) 8 := by
      rw [hsplit, dataTag, hbot, haut, hauv, hnel, hmen, hmin.2.1]
      omega
    have pTag : HasAt buf o (numBytes 1 (dataTag (dataOf buf o) (fragLen buf o))) := by
      rw [htag]
      exact hasAt_num (n := 1) (by omega)
    have pTob : HasAt buf (o + 1) (numBytes (1 <<< field buf (8 * o) 2) (dataOf buf o).tob.toNat) := by
      rw [(tob_tag buf o).2.2]
      exact hasAt_num (by omega)
    have pAuth : HasAt buf (authAt buf o) (authBytes (dataOf buf o).aut) :=
      authBytes_hasAt (show authEnd buf o ≤ buf.length by omega)
    have pNel : HasAt buf (authEnd buf o) (nelBytes (nelOf buf o)) := by
      unfold nelBytes nelOf
      unfold nelOf at hmen
      rw [hmen]
      split
      · rename_i h3
        have hone : lenAt buf o = authEnd buf o + 1 := by rw [lenAt, if_pos h3]
        exact hasAt_num (n := 1) (by omega)
      · exact hasAt_nil (by omega)
    have pLen : HasAt buf (lenAt buf o) (numBytes (nelOf buf o) (fragLen buf o)) :=
      hasAt_num (show fragAt buf o ≤ buf.length by omega)
    have pFra : HasAt buf (fragAt buf o) ((dataOf buf o).read buf).fra := hasAt_slice hfrag
    unfold dataBytes
    rw [hlen, hnel]
    show HasAt buf o (numBytes 1 (dataTag (dataOf buf o) (fragLen buf o)) ++
      (numBytes (1 <<< mesaMakeChubTag (dataOf buf o).tob) (dataOf buf o).tob.toNat ++ (authBytes (dataOf buf o).aut ++
        (nelBytes (nelOf buf o) ++ (numBytes (nelOf buf o) (fragLen buf o) ++ _)))))
    rw [hbot]
    refine pTag.append ?_
    rw [length_numBytes]
    refine pTob.append ?_
    rw [length_numBytes, htob]
    refine pAuth.append ?_
    rw [hauth]
    refine pNel.append ?_
    rw [hown]
    refine pLen.append ?_
    rw [length_numBytes]
    exact pFra

end Data

/-! ### Packets -/

section Packet

/-- The parts of a packet are as short as they can be. -/
def BodyMinimal (buf : List UInt8) : Ptag → Prop
  | .resv => True
  | .peek => NameMinimal buf 8
  | .page => NameMinimal buf 8 ∧ DataMinimal buf (nameEnd buf 8)
  | .poke => NameMinimal buf 8 ∧ NameMinimal buf (nameEnd buf 8) ∧ DataMinimal buf (nameEnd buf (nameEnd buf 8))

/-- **The packet is as short as it can be**, and the unused bits of its head are zero. -/
def Canonical (buf : List UInt8) : Prop := field buf 0 2 = 0 ∧ BodyMinimal buf (headOf buf).2

instance (typ : Ptag) : Decidable (BodyMinimal buf typ) :=
  match typ with
  | .resv => .isTrue trivial
  | .peek => inferInstanceAs (Decidable (NameMinimal buf 8))
  | .page => inferInstanceAs (Decidable (_ ∧ _))
  | .poke => inferInstanceAs (Decidable (_ ∧ _ ∧ _))

instance : Decidable (Canonical buf) := inferInstanceAs (Decidable (_ ∧ _))

variable {nex : HopType} {typ : Ptag} {body : Body Slice} {p : Pact Slice}

/-- Hops that are sifted are etched as they stand. -/
theorem hopBytes_parts (h : Parts buf nex .page body) :
    ∃ hop, body = .page (nameOf buf 8) (dataOf buf (nameEnd buf 8)) hop ∧ (hopBytes hop).length = hopLen nex ∧
      HasAt buf (fragAt buf (nameEnd buf 8) + fragLen buf (nameEnd buf 8)) (hopBytes hop) := by
  obtain ⟨-, -, hend, ⟨rfl, rfl⟩ | ⟨rfl, rfl⟩⟩ := h
  · exact ⟨_, rfl, rfl, hasAt_nil (by omega)⟩
  · have hin : fragAt buf (nameEnd buf 8) + fragLen buf (nameEnd buf 8) + 6 ≤ buf.length := hend.le
    refine ⟨_, rfl, (bytesAt buf _ 6).property, ?_⟩
    show HasAt buf _ (bytesAt buf _ 6).val
    rw [bytesAt, dif_pos hin]
    exact hasAt_slice hin

/-- **Etched again the body is no longer than it was**, and it goes through. -/
theorem bodyBytes_le (h : Parts buf nex typ body) (h8 : 8 ≤ buf.length) :
    Writes (mesaEtchBody (body.read buf)) (bodyBytes (body.read buf)) ∧
      8 + (bodyBytes (body.read buf)).length ≤ buf.length := by
  cases typ with
  | resv =>
    obtain ⟨rfl, -⟩ := h
    exact ⟨.nil, h8⟩
  | peek =>
    obtain ⟨rfl, hname, hend⟩ := h
    exact ⟨mesaEtchName_writes (nameOf_wf hname).pat, (nameBytes_length_le hname).trans hend.le⟩
  | page =>
    obtain ⟨hop, rfl, hlen, -⟩ := hopBytes_parts h
    obtain ⟨hname, hdata, hend, -⟩ := h
    have hfrag : fragAt buf (nameEnd buf 8) + fragLen buf (nameEnd buf 8) ≤ buf.length := by omega
    have h1 := nameBytes_length_le hname
    have h2 := dataBytes_length_le hfrag hdata
    refine ⟨.seq (mesaEtchName_writes (nameOf_wf hname).pat) (.seq (mesaEtchData_writes (dataOf_wf hfrag hdata))
      (.hops hop)), ?_⟩
    simp only [Body.read, bodyBytes, List.length_append, hlen]
    omega
  | poke =>
    obtain ⟨hname, hpay, hdata, hend, rfl⟩ := h
    have h1 := nameBytes_length_le hname
    have h2 := nameBytes_length_le hpay
    have h3 := dataBytes_length_le hend.le hdata
    refine ⟨.seq (mesaEtchName_writes (nameOf_wf hname).pat) (.seq (mesaEtchName_writes (nameOf_wf hpay).pat)
      (mesaEtchData_writes (dataOf_wf hend.le hdata))), ?_⟩
    simp only [Body.read, bodyBytes, List.length_append]
    omega

/-- **The bytes of a body are those that stand there when its parts are as short as they can be.** -/
theorem bodyBytes_iff (h : Parts buf nex typ body) :
    (HasAt buf 8 (bodyBytes (body.read buf)) ∧ 8 + (bodyBytes (body.read buf)).length = buf.length) ↔
      BodyMinimal buf typ := by
  cases typ with
  | resv =>
    obtain ⟨rfl, hlen⟩ := h
    exact iff_of_true ⟨hasAt_nil hlen.ge, hlen.symm⟩ trivial
  | peek =>
    obtain ⟨rfl, hname, hend⟩ := h
    refine ⟨fun hat => (nameBytes_iff hname).mp hat.1, fun hmin => ?_⟩
    have hat := (nameBytes_iff hname).mpr hmin
    exact ⟨hat, (nameOf_bytes (nameOf_wf hname) hat).2.1.symm.trans hend⟩
  | page =>
    obtain ⟨hop, rfl, hlen, phop⟩ := hopBytes_parts h
    obtain ⟨hname, hdata, hend, -⟩ := h
    have hfrag : fragAt buf (nameEnd buf 8) + fragLen buf (nameEnd buf 8) ≤ buf.length := by omega
    constructor
    · rintro ⟨hat, -⟩
      have hend' := (nameOf_bytes (nameOf_wf hname) hat.left).2.1
      have pdata := hat.right.left
      rw [← hend'] at pdata
      exact ⟨(nameBytes_iff hname).mp hat.left, (dataBytes_iff hfrag hdata).mp pdata⟩
    · rintro ⟨hmin, hmin'⟩
      have pname := (nameBytes_iff hname).mpr hmin
      have pdata := (dataBytes_iff hfrag hdata).mpr hmin'
      have h1 := (nameOf_bytes (nameOf_wf hname) pname).2.1
      have h2 := (dataOf_bytes (dataOf_wf hfrag hdata) pdata).2.1
      refine ⟨pname.append ?_, ?_⟩
      · rw [← h1]
        refine pdata.append ?_
        rw [← h2]
        exact phop
      · simp only [Body.read, bodyBytes, List.length_append, hlen]
        omega
  | poke =>
    obtain ⟨hname, hpay, hdata, hend, rfl⟩ := h
    constructor
    · rintro ⟨hat, -⟩
      have h1 := (nameOf_bytes (nameOf_wf hname) hat.left).2.1
      have prest := hat.right
      rw [← h1] at prest
      have h2 := (nameOf_bytes (nameOf_wf hpay) prest.left).2.1
      have pdata := prest.right
      rw [← h2] at pdata
      exact ⟨(nameBytes_iff hname).mp hat.left, (nameBytes_iff hpay).mp prest.left,
        (dataBytes_iff hend.le hdata).mp pdata⟩
    · rintro ⟨hmin, hmin', hmin''⟩
      have pname := (nameBytes_iff hname).mpr hmin
      have ppay := (nameBytes_iff hpay).mpr hmin'
      have pdata := (dataBytes_iff hend.le hdata).mpr hmin''
      have h1 := (nameOf_bytes (nameOf_wf hname) pname).2.1
      have h2 := (nameOf_bytes (nameOf_wf hpay) ppay).2.1
      have h3 := (dataOf_bytes (dataOf_wf hend.le hdata) pdata).2.1
      refine ⟨pname.append ?_, ?_⟩
      · rw [← h1]
        refine ppay.append ?_
        rw [← h2]
        exact pdata
      · simp only [Body.read, bodyBytes, List.length_append]
        omega

theorem Body.read_typ (buf : List UInt8) (body : Body Slice) : (body.read buf).typ = body.typ := by
  cases body <;> rfl

theorem Parts.typ_eq (h : Parts buf nex typ body) : body.typ = typ := by
  cases typ with
  | resv => rw [h.1]; rfl
  | peek => rw [h.1]; rfl
  | page =>
    obtain ⟨hop, rfl, -⟩ := hopBytes_parts h
    rfl
  | poke => rw [h.2.2.2.2]; rfl

/-- The head that stands in the buffer has the bytes there but for the bits that nothing uses. -/
theorem headBytes_hasAt (h8 : 8 ≤ buf.length) (hunused : field buf 0 2 = 0)
    (hcookie : UInt32.ofNat (field buf 32 32) = mesaCookie) :
    HasAt buf 0 (headBytes (headOf buf).1 (headOf buf).2) := by
  have hcode4 : ∀ n < 4, (HopType.ofCode n).code = n ∧ (Ptag.ofCode n).code = n := by decide
  have hnex : (headOf buf).1.nex.code = field buf 2 2 := (hcode4 _ (field_lt buf 2 2)).1
  have htyp : (headOf buf).2.code = field buf 7 2 := (hcode4 _ (field_lt buf 7 2)).2
  have hpro : (headOf buf).1.pro.toNat = field buf 4 3 :=
    UInt8.toNat_ofNat_of_lt' (Nat.lt_of_lt_of_le (field_lt buf 4 3) (by decide))
  have hhop : (headOf buf).1.hop.toNat = field buf 9 3 :=
    UInt8.toNat_ofNat_of_lt' (Nat.lt_of_lt_of_le (field_lt buf 9 3) (by decide))
  have hmug : (headOf buf).1.mug.toNat = field buf 12 20 :=
    UInt32.toNat_ofNat_of_lt' (Nat.lt_of_lt_of_le (field_lt buf 12 20) (by decide))
  have hword : field buf 0 32 = field buf 2 2 * 4 + field buf 4 3 * 16 + field buf 7 2 * 128 + field buf 9 3 * 512 +
      field buf 12 20 * 4096 := by
    have h1 : field buf 0 32 = field buf 0 12 + field buf 12 20 * 4096 := field_add_zero buf 12 20
    have h2 : field buf 0 12 = field buf 0 9 + field buf 9 3 * 512 := field_add_zero buf 9 3
    have h3 : field buf 0 9 = field buf 0 7 + field buf 7 2 * 128 := field_add_zero buf 7 2
    have h4 : field buf 0 7 = field buf 0 4 + field buf 4 3 * 16 := field_add_zero buf 4 3
    have h5 : field buf 0 4 = field buf 0 2 + field buf 2 2 * 4 := field_add_zero buf 2 2
    omega
  have hc : field buf 32 32 = mesaCookie.toNat := by
    rw [← hcookie]
    exact (UInt32.toNat_ofNat_of_lt' (field_lt buf 32 32)).symm
  unfold headBytes
  rw [hnex, htyp, hpro, hhop, hmug, ← hword, ← hc]
  refine (hasAt_num (n := 4) (by omega)).append ?_
  rw [length_numBytes]
  exact hasAt_num (n := 4) (by omega)

/-- A sifted packet is etched where there is room for what it was sifted from. -/
theorem etch_sifted (hn : buf.length < 2 ^ 32) (h : mesaSiftPactFromBuf buf = .ok (p, none)) :
    mesaEtchPactToBuf (UInt32.ofNat buf.length) (p.read buf) = .ok (pactBytes (p.read buf), (p.read buf).summed) := by
  obtain ⟨h8, -, -, -, hhed, hparts⟩ := accepted_parts hn h
  obtain ⟨hwrites, hle⟩ := bodyBytes_le hparts h8
  have hcap : (UInt32.ofNat buf.length).toNat = buf.length := UInt32.toNat_ofNat_of_lt' hn
  have hsmall (k : ℕ) : (UInt8.ofNat (field buf k 3)).toNat < 8 :=
    (UInt8.toNat_ofNat_of_lt' (Nat.lt_of_lt_of_le (field_lt buf k 3) (by decide))).trans_lt (field_lt buf k 3)
  have hpro : (p.read buf).hed.pro.toNat < 8 := by
    show p.hed.pro.toNat < 8
    rw [hhed]
    exact hsmall 4
  have hhop : (p.read buf).hed.hop.toNat < 8 := by
    show p.hed.hop.toNat < 8
    rw [hhed]
    exact hsmall 9
  exact mesaEtchPactToBuf_written hwrites hpro hhop (by rw [hcap]; exact hle)

/-- **Its bytes are those it was sifted from when it is as short as it can be.** -/
theorem pactBytes_read_iff (hn : buf.length < 2 ^ 32) (h : mesaSiftPactFromBuf buf = .ok (p, none)) :
    pactBytes (p.read buf) = buf ↔ Canonical buf := by
  obtain ⟨h8, -, hcookie, hmug, hhed, hparts⟩ := accepted_parts hn h
  have hbody := bodyBytes_iff hparts
  have htyp : (p.read buf).typ = (headOf buf).2 := (Body.read_typ buf p.body).trans hparts.typ_eq
  obtain ⟨phead, pbody⟩ := pactBytes_parts (p.read buf)
  have hlen := length_pactBytes (p.read buf)
  constructor
  · intro hbuf
    rw [hbuf] at phead pbody hlen
    refine ⟨?_, hbody.mp ⟨pbody, hlen.symm⟩⟩
    have hunused := phead.left.field (k := 0) (w := 2) (by rw [length_numBytes]; decide)
    rw [hunused, field_numBytes _ (by decide)]
    omega
  · rintro ⟨hunused, hmin⟩
    obtain ⟨hat, hwhole⟩ := hbody.mpr hmin
    have hdrop : bodyBytes (p.read buf).body = buf.drop 8 := by
      have hs := hat.slice rfl
      rwa [List.take_of_length_le (by rw [List.length_drop]; omega), eq_comm] at hs
    have hsummed : (p.read buf).summed.hed = (headOf buf).1 := by
      unfold Pact.summed
      rw [hdrop, hmug]
      unfold Pact.withMug
      show { p.hed with mug := (headOf buf).1.mug } = (headOf buf).1
      rw [hhed]
    refine HasAt.eq ?_ (hlen.trans hwhole)
    unfold pactBytes
    rw [hsummed, htyp]
    refine (headBytes_hasAt h8 hunused hcookie).append ?_
    rw [headBytes, List.length_append, length_numBytes, length_numBytes]
    exact hat

/-- **A packet that is sifted and etched again comes back as it was** just when every part of it is as short
as it can be and its unused bits are zero. -/
theorem etch_sift_iff (hn : buf.length < 2 ^ 32) (h : mesaSiftPactFromBuf buf = .ok (p, none)) :
    (∃ q, mesaEtchPactToBuf (UInt32.ofNat buf.length) (p.read buf) = .ok (buf, q)) ↔ Canonical buf := by
  rw [← pactBytes_read_iff hn h, etch_sifted hn h]
  exact ⟨fun ⟨q, hq⟩ => (Prod.mk.inj (Except.ok.inj hq)).1, fun hbuf => ⟨_, by rw [hbuf]⟩⟩

/-- A peek of galaxy 0, whose ship takes four bytes where two are enough. -/
def longPeek : List UInt8 := [16, 33, 226, 185, 0, 2, 224, 103, 1, 0, 0, 0, 0, 0, 13, 0, 0, 0]

theorem longPeek_accepted : mesaSiftPactFromBuf longPeek =
    .ok (⟨⟨.none, 1, 0, 0xb9e22⟩, .peek ⟨⟨0, 0⟩, 0, 13, false, false, 0, ⟨some 18, 0⟩, ⟨some 8, 10⟩⟩⟩, none) := by
  decide +kernel

/-- It is accepted, and comes back shorter. -/
theorem longPeek_not_back : ¬ ∀ (buf : List UInt8) (p : Pact Slice), buf.length < 2 ^ 32 →
    mesaSiftPactFromBuf buf = .ok (p, none) →
      ∃ q, mesaEtchPactToBuf (UInt32.ofNat buf.length) (p.read buf) = .ok (buf, q) := by
  intro h
  obtain ⟨q, hq⟩ := h longPeek _ (by decide) longPeek_accepted
  have hback := (Prod.mk.inj (Except.ok.inj ((etch_sifted (by decide) longPeek_accepted).symm.trans hq))).1
  exact absurd ((pactBytes_read_iff (by decide) longPeek_accepted).mp hback) (by decide)

/-- The same peek in as few bytes as there can be. -/
def shortPeek : List UInt8 := [16, 193, 1, 196, 0, 2, 224, 103, 0, 0, 0, 0, 13, 0, 0, 0]

theorem shortPeek_accepted : mesaSiftPactFromBuf shortPeek =
    .ok (⟨⟨.none, 1, 0, 0xc401c⟩, .peek ⟨⟨0, 0⟩, 0, 13, false, false, 0, ⟨some 16, 0⟩, ⟨some 8, 8⟩⟩⟩, none) := by
  decide +kernel

theorem shortPeek_back : ∃ p q, mesaSiftPactFromBuf shortPeek = .ok (p, none) ∧
    mesaEtchPactToBuf (UInt32.ofNat shortPeek.length) (p.read shortPeek) = .ok (shortPeek, q) := by
  obtain ⟨q, hq⟩ := (etch_sift_iff (by decide) shortPeek_accepted).mpr (by decide)
  exact ⟨_, q, shortPeek_accepted, hq⟩

end Packet

end Mesa
end Ursockets
