/-
# What is stamped when peeks are sent again

`_try_resend` goes over the fragments in flight and sends the peek again for each that is
missing and past its deadline. What it stamps each time is the entry of the fragment whose number
the template has, and that is the one that was asked for last: the loop reads the number and never
sets it. So the call is right for just the states in which no other fragment is due.

Key definitions: `Due`, `ResendsRight`, `OnlyLastDue`.
Key theorems: `resendLoop_frame`, `resendLoop_last`, `tryResend_right_iff`.
-/
import Ursockets.MesaRequest

namespace Ursockets
namespace Mesa

variable {r r' : PendReq} {now i j : UInt64} {n : ℕ} {sent sent' : List Datagram}

/-- The fragment is missing and past its deadline. -/
def Due (r : PendReq) (now i : UInt64) : Prop :=
  bitsetHas r.was i.toUInt32 = .ok false ∧ ∃ stat, r.wat[i.toNat]? = some stat ∧ r.gag.rto.toUInt64 < now - stat.sen

/-! ### One fragment -/

/-- The entry of the template's fragment is stamped, and nothing else. -/
def Stamped (r r' : PendReq) (now : UInt64) : Prop :=
  ∃ stat, r.wat[r.nam.fra.toNat]? = some stat ∧
    r' = { r with wat := r.wat.set r.nam.fra.toNat { stat with sen := now, tie := stat.tie + 1 } }

theorem mesaReqPactResent_eq_ok : mesaReqPactResent r r.nam now = .ok r' ↔ Stamped r r' now := by
  unfold mesaReqPactResent Stamped
  simp only [bind_eq_ok, entry_eq_ok, store_eq_ok]
  constructor
  · rintro ⟨stat, hstat, _, ⟨-, rfl⟩, h⟩
    exact ⟨stat, hstat, (Except.ok.inj h).symm⟩
  · rintro ⟨stat, hstat, rfl⟩
    exact ⟨stat, hstat, _, ⟨(List.getElem?_eq_some_iff.mp hstat).1, rfl⟩, rfl⟩

theorem Stamped.other (h : Stamped r r' now) (hj : j ≠ r.nam.fra) : r'.wat[j.toNat]? = r.wat[j.toNat]? := by
  obtain ⟨stat, -, rfl⟩ := h
  exact List.getElem?_set_ne fun heq => hj (UInt64.toNat_inj.mp heq.symm)

/-- Nothing else becomes due, and the stamped fragment is due no more. -/
theorem Stamped.due (h : Stamped r r' now) : Due r' now j ↔ Due r now j ∧ j ≠ r.nam.fra := by
  obtain ⟨stat, hstat, rfl⟩ := h
  have hlt := (List.getElem?_eq_some_iff.mp hstat).1
  unfold Due
  by_cases hj : j = r.nam.fra
  · subst hj
    refine iff_of_false (fun ⟨_, stat', hstat', hlate⟩ => ?_) fun h => h.2 rfl
    rw [List.getElem?_set_self hlt] at hstat'
    obtain rfl := Option.some.inj hstat'
    rw [UInt64.sub_self] at hlate
    exact absurd hlate UInt64.not_lt_zero
  · rw [List.getElem?_set_ne fun heq => hj (UInt64.toNat_inj.mp heq.symm)]
    exact ⟨fun h => ⟨h, hj⟩, fun h => h.1⟩

/-- A fragment is passed over if it is not due; else its peek is sent and an entry stamped. -/
theorem resendLoop_succ {p : PendReq × List Datagram} (h : resendLoop now (n + 1) i r sent = .ok p) :
    ¬ Due r now i ∧ resendLoop now n (i + 1) r sent = .ok p ∨
      Due r now i ∧ ∃ bytes r', Stamped r r' now ∧ resendLoop now n (i + 1) r' (sent ++ [⟨i, bytes⟩]) = .ok p := by
  rw [resendLoop] at h
  obtain ⟨has, hhas, h⟩ := bind_eq_ok.mp h
  cases has with
  | true =>
    rw [if_pos rfl] at h
    refine .inl ⟨fun hdue => ?_, h⟩
    exact nomatch hhas.symm.trans hdue.1
  | false =>
    rw [if_neg Bool.false_ne_true] at h
    obtain ⟨stat, hstat, h⟩ := bind_eq_ok.mp h
    rw [entry_eq_ok] at hstat
    split at h
    · next hlate =>
      obtain ⟨bytes, -, h⟩ := bind_eq_ok.mp h
      obtain ⟨r', hr', h⟩ := bind_eq_ok.mp h
      exact .inr ⟨⟨hhas, stat, hstat, hlate⟩, bytes, r', mesaReqPactResent_eq_ok.mp hr', h⟩
    · next hlate =>
      refine .inl ⟨fun ⟨_, stat', hstat', hlate'⟩ => ?_, h⟩
      obtain rfl := Option.some.inj (hstat.symm.trans hstat')
      exact hlate hlate'

/-! ### The loop -/

theorem Stamped.template (h : Stamped r r' now) : r'.nam = r.nam := by
  obtain ⟨stat, -, rfl⟩ := h
  rfl

/-- The loop stamps no entry but the template's. -/
theorem resendLoop_other (h : resendLoop now n i r sent = .ok (r', sent')) (hj : j ≠ r.nam.fra) :
    r'.wat[j.toNat]? = r.wat[j.toNat]? := by
  induction n generalizing i r sent with
  | zero =>
    obtain ⟨rfl, rfl⟩ := Prod.mk.inj (Except.ok.inj h)
    rfl
  | succ n ih =>
    rcases resendLoop_succ h with ⟨-, h⟩ | ⟨-, bytes, r1, hr1, h⟩
    · exact ih h hj
    · exact (ih h (hr1.template.symm ▸ hj)).trans (hr1.other hj)

theorem toNat_add_one {i : UInt64} (hi : i.toNat + (n + 1) < 2 ^ 64) : (i + 1).toNat = i.toNat + 1 :=
  toNat_add_of_lt (lt_of_le_of_lt (Nat.add_le_add_left (Nat.succ_le_succ (Nat.zero_le n)) _) hi)

/-- What the loop sends is due, and among the fragments that it goes over. -/
theorem resendLoop_due (hi : i.toNat + n < 2 ^ 64) (h : resendLoop now n i r sent = .ok (r', sent')) :
    ∀ d ∈ sent', d ∈ sent ∨ i.toNat ≤ d.fra.toNat ∧ d.fra.toNat < i.toNat + n ∧ Due r now d.fra := by
  induction n generalizing i r sent with
  | zero =>
    obtain ⟨rfl, rfl⟩ := Prod.mk.inj (Except.ok.inj h)
    exact fun d hd => .inl hd
  | succ n ih =>
    have hone := toNat_add_one hi
    intro d hd
    rcases resendLoop_succ h with ⟨-, h⟩ | ⟨hdue, bytes, r1, hr1, h⟩
    · rcases ih (by omega) h d hd with hin | ⟨hle, hlt, hd⟩
      · exact .inl hin
      · exact .inr ⟨by omega, by omega, hd⟩
    · rcases ih (by omega) h d hd with hin | ⟨hle, hlt, hd⟩
      · rcases List.mem_append.mp hin with hin | hin
        · exact .inl hin
        · obtain rfl := List.mem_singleton.mp hin
          exact .inr ⟨Nat.le_refl _, Nat.lt_add_of_pos_right (Nat.succ_pos n), hdue⟩
      · exact .inr ⟨by omega, by omega, (hr1.due.mp hd).1⟩

/-- What was sent stays sent. -/
theorem resendLoop_mono (h : resendLoop now n i r sent = .ok (r', sent')) : ∀ d ∈ sent, d ∈ sent' := by
  induction n generalizing i r sent with
  | zero =>
    obtain ⟨rfl, rfl⟩ := Prod.mk.inj (Except.ok.inj h)
    exact fun d hd => hd
  | succ n ih =>
    intro d hd
    rcases resendLoop_succ h with ⟨-, h⟩ | ⟨-, bytes, r1, -, h⟩
    · exact ih h d hd
    · exact ih h d (List.mem_append_left _ hd)

/-- Each fragment that is due is sent, but for the template's. -/
theorem resendLoop_sent (hi : i.toNat + n < 2 ^ 64) (h : resendLoop now n i r sent = .ok (r', sent'))
    (hle : i.toNat ≤ j.toNat) (hlt : j.toNat < i.toNat + n) (hdue : Due r now j) (hj : j ≠ r.nam.fra) :
    ∃ d ∈ sent', d.fra = j := by
  induction n generalizing i r sent with
  | zero => exact absurd hlt (Nat.not_lt.mpr hle)
  | succ n ih =>
    have hone := toNat_add_one hi
    rcases Nat.lt_or_eq_of_le hle with hlt' | heq
    · rcases resendLoop_succ h with ⟨-, h⟩ | ⟨-, bytes, r1, hr1, h⟩
      · exact ih (by omega) h (by omega) (by omega) hdue hj
      · exact ih (by omega) h (by omega) (by omega) (hr1.due.mpr ⟨hdue, hj⟩) (hr1.template.symm ▸ hj)
    · obtain rfl := UInt64.toNat_inj.mp heq
      rcases resendLoop_succ h with ⟨hno, -⟩ | ⟨-, bytes, r1, -, h⟩
      · exact absurd hdue hno
      · exact ⟨_, resendLoop_mono h _ (List.mem_append_right _ (List.mem_singleton_self _)), rfl⟩

/-- Nothing is done where nothing is due. -/
theorem resendLoop_idle (hi : i.toNat + n < 2 ^ 64) (h : resendLoop now n i r sent = .ok (r', sent'))
    (hno : ∀ j, i.toNat ≤ j.toNat → j.toNat < i.toNat + n → ¬ Due r now j) : r' = r ∧ sent' = sent := by
  induction n generalizing i with
  | zero =>
    obtain ⟨rfl, rfl⟩ := Prod.mk.inj (Except.ok.inj h)
    exact ⟨rfl, rfl⟩
  | succ n ih =>
    have hone := toNat_add_one hi
    rcases resendLoop_succ h with ⟨-, h⟩ | ⟨hdue, -⟩
    · exact ih (by omega) h fun j hle hlt => hno j (by omega) (by omega)
    · exact absurd hdue (hno i (Nat.le_refl _) (Nat.lt_add_of_pos_right (Nat.succ_pos n)))

/-- **Where no fragment but the template's is due**, nothing is done, or that one is sent and stamped. -/
theorem resendLoop_last (hi : i.toNat + n < 2 ^ 64) (h : resendLoop now n i r sent = .ok (r', sent'))
    (honly : ∀ j, i.toNat ≤ j.toNat → j.toNat < i.toNat + n → Due r now j → j = r.nam.fra) :
    r' = r ∧ sent' = sent ∧ (∀ j, i.toNat ≤ j.toNat → j.toNat < i.toNat + n → ¬ Due r now j) ∨
      Due r now r.nam.fra ∧ Stamped r r' now ∧ ∃ bytes, sent' = sent ++ [⟨r.nam.fra, bytes⟩] := by
  induction n generalizing i with
  | zero =>
    obtain ⟨rfl, rfl⟩ := Prod.mk.inj (Except.ok.inj h)
    exact .inl ⟨rfl, rfl, fun j hle hlt => absurd hle (Nat.not_le.mpr hlt)⟩
  | succ n ih =>
    have hone := toNat_add_one hi
    rcases resendLoop_succ h with ⟨hno, h⟩ | ⟨hdue, bytes, r1, hr1, h⟩
    · rcases ih (by omega) h fun j hle hlt => honly j (by omega) (by omega) with ⟨hr, hs, hrest⟩ | hlast
      · refine .inl ⟨hr, hs, fun j hle hlt hdue => ?_⟩
        rcases Nat.lt_or_eq_of_le hle with hlt' | heq
        · exact hrest j (by omega) (by omega) hdue
        · exact hno (UInt64.toNat_inj.mp heq ▸ hdue)
      · exact .inr hlast
    · obtain rfl := honly i (Nat.le_refl _) (Nat.lt_add_of_pos_right (Nat.succ_pos n)) hdue
      obtain ⟨rfl, rfl⟩ := resendLoop_idle (by omega) h fun j hle hlt hj => by
        obtain ⟨hj, hne⟩ := hr1.due.mp hj
        exact hne (honly j (by omega) (by omega) hj)
      exact .inr ⟨hdue, hr1, bytes, rfl⟩

/-! ### The call -/

/-- **Sending again touches what it sends again**: the time and the count of a fragment change if its peek
is sent again, and else they do not; what is due among the fragments that are gone over, or below the one
acknowledged last, is sent. -/
structure ResendsRight (r r' : PendReq) (nex now : UInt64) (sent : List Datagram) : Prop where
  stamped : ∀ i stat stat', r.wat[i.toNat]? = some stat → r'.wat[i.toNat]? = some stat' → (∃ d ∈ sent, d.fra = i) →
    stat'.sen ≠ stat.sen ∧ stat'.tie ≠ stat.tie
  kept : ∀ i stat stat', r.wat[i.toNat]? = some stat → r'.wat[i.toNat]? = some stat' → (¬ ∃ d ∈ sent, d.fra = i) →
    stat'.sen = stat.sen ∧ stat'.tie = stat.tie
  scanned : ∀ i, r.lef ≤ i → i < nex → Due r now i → ∃ d ∈ sent, d.fra = i
  acked : ∀ i < r.ack, Due r now i → ∃ d ∈ sent, d.fra = i

/-- No fragment that is gone over is due but the one that was asked for last, and what is due below the one
acknowledged last is gone over. -/
structure OnlyLastDue (r : PendReq) (nex now : UInt64) : Prop where
  last : ∀ i, r.lef ≤ i → i < nex → Due r now i → i = r.nam.fra
  below : ∀ i < r.ack, Due r now i → r.lef ≤ i ∧ i < nex

variable {nex : UInt64}

theorem tryResend_loop (h : tryResend r nex now = .ok (r', sent)) :
    ∃ r1, resendLoop now (nex.toNat - r.lef.toNat) r.lef r [] = .ok (r1, sent) ∧ r'.wat = r1.wat := by
  obtain ⟨⟨r1, sent1⟩, hloop, h⟩ := bind_eq_ok.mp h
  dsimp only at h
  split at h
  · obtain ⟨rfl, rfl⟩ := Prod.mk.inj (Except.ok.inj h)
    exact ⟨r1, hloop, rfl⟩
  · obtain ⟨rfl, rfl⟩ := Prod.mk.inj (Except.ok.inj h)
    exact ⟨_, hloop, rfl⟩

/-- The fragments that the loop goes over. -/
theorem scan_iff {lef : UInt64} :
    lef.toNat ≤ i.toNat ∧ i.toNat < lef.toNat + (nex.toNat - lef.toNat) ↔ lef ≤ i ∧ i < nex := by
  rw [UInt64.le_iff_toNat_le, UInt64.lt_iff_toNat_lt]
  omega

theorem scan_lt (lef nex : UInt64) : lef.toNat + (nex.toNat - lef.toNat) < 2 ^ 64 := by
  have hlef := lef.toNat_lt
  have hnex := nex.toNat_lt
  omega

/-- A fragment that is due was not stamped now. -/
theorem Due.sen_ne (h : Due r now i) {stat : PactStat} (hstat : r.wat[i.toNat]? = some stat) : now ≠ stat.sen := by
  obtain ⟨-, stat', hstat', hlate⟩ := h
  obtain rfl := Option.some.inj (hstat.symm.trans hstat')
  rintro rfl
  rw [UInt64.sub_self] at hlate
  exact absurd hlate UInt64.not_lt_zero

theorem add_one_ne (a : UInt8) : a + 1 ≠ a := fun h => by
  have hval := congrArg UInt8.toNat h
  rw [UInt8.toNat_add] at hval
  have hlt := a.toNat_lt
  change (a.toNat + 1) % 2 ^ 8 = a.toNat at hval
  omega

theorem OnlyLastDue.right (h : tryResend r nex now = .ok (r', sent)) (ho : OnlyLastDue r nex now) :
    ResendsRight r r' nex now sent := by
  obtain ⟨r1, hloop, hwat⟩ := tryResend_loop h
  rcases resendLoop_last (scan_lt _ _) hloop fun j hle hlt => (scan_iff.mp ⟨hle, hlt⟩).elim (ho.last j) with
    ⟨rfl, rfl, hno⟩ | ⟨hdue, hstamped, bytes, rfl⟩
  · have hnone {i : UInt64} (hle : r1.lef ≤ i) (hlt : i < nex) : ¬ Due r1 now i :=
      (scan_iff.mpr ⟨hle, hlt⟩).elim (hno i)
    refine ⟨fun i stat stat' _ _ hsent => ?_, fun i stat stat' hs hs' _ => ?_, fun i hle hlt hdue => ?_,
      fun i hlt hdue => ?_⟩
    · exact nomatch hsent.choose_spec.1
    · rw [hwat] at hs'
      obtain rfl := Option.some.inj (hs.symm.trans hs')
      exact ⟨rfl, rfl⟩
    · exact absurd hdue (hnone hle hlt)
    · obtain ⟨hle, hlt'⟩ := ho.below i hlt hdue
      exact absurd hdue (hnone hle hlt')
  · have hin : ∃ d ∈ ([] ++ [(⟨r.nam.fra, bytes⟩ : Datagram)]), d.fra = r.nam.fra := ⟨_, List.mem_singleton_self _, rfl⟩
    refine ⟨fun i stat stat' hs hs' hsent => ?_, fun i stat stat' hs hs' hsent => ?_, fun i hle hlt hd => ?_,
      fun i hlt hd => ?_⟩
    · obtain ⟨d, hd, rfl⟩ := hsent
      obtain rfl := List.mem_singleton.mp hd
      obtain ⟨stat1, hstat1, rfl⟩ := hstamped
      obtain rfl := Option.some.inj (hs.symm.trans hstat1)
      rw [hwat, List.getElem?_set_self (List.getElem?_eq_some_iff.mp hs).1] at hs'
      obtain rfl := Option.some.inj hs'
      exact ⟨hdue.sen_ne hs, add_one_ne _⟩
    · have hne : i ≠ r.nam.fra := fun heq => hsent (heq ▸ hin)
      rw [hwat, hstamped.other hne] at hs'
      obtain rfl := Option.some.inj (hs.symm.trans hs')
      exact ⟨rfl, rfl⟩
    · exact ho.last i hle hlt hd ▸ hin
    · obtain ⟨hle, hlt'⟩ := ho.below i hlt hd
      exact ho.last i hle hlt' hd ▸ hin

theorem ResendsRight.onlyLast (h : tryResend r nex now = .ok (r', sent)) (hr : ResendsRight r r' nex now sent) :
    OnlyLastDue r nex now := by
  obtain ⟨r1, hloop, hwat⟩ := tryResend_loop h
  constructor
  · intro i hle hlt hdue
    by_contra hne
    obtain ⟨hle', hlt'⟩ := scan_iff.mpr ⟨hle, hlt⟩
    obtain ⟨stat, hstat, -⟩ := hdue.2
    have hsame : r'.wat[i.toNat]? = some stat := by rw [hwat, resendLoop_other hloop hne, hstat]
    have hsent := resendLoop_sent (scan_lt _ _) hloop hle' hlt' hdue hne
    exact (hr.stamped i stat stat hstat hsame hsent).1 rfl
  · intro i hlt hdue
    obtain ⟨d, hd, rfl⟩ := hr.acked i hlt hdue
    rcases resendLoop_due (scan_lt _ _) hloop d hd with hin | ⟨hle, hlt', -⟩
    · exact nomatch hin
    · exact scan_iff.mp ⟨hle, hlt'⟩

/-- **Sending again is right in just the states where nothing is due but the fragment asked for last.** -/
theorem tryResend_right_iff (h : tryResend r nex now = .ok (r', sent)) :
    ResendsRight r r' nex now sent ↔ OnlyLastDue r nex now :=
  ⟨ResendsRight.onlyLast h, OnlyLastDue.right h⟩

/-! ### Two fragments in flight -/

/-- A request for two fragments, asked for one after the other, of which those in `buf` have come. -/
def twoInFlight (buf : UInt8) : PendReq where
  hed := ⟨.none, 1, 0, 0⟩
  nam := ⟨⟨0, 0⟩, 0, 13, false, false, 1, [47], []⟩
  nex := 2
  tof := 2
  tob := 2048
  dat := List.replicate 2048 0
  hav := 0
  lef := 0
  out := 2
  ack := 0
  gag := ⟨1000000, 200000, 1000000, 4, 0, 10000, 0⟩
  mis := List.replicate 2 (zeroHash, zeroHash)
  los := ⟨0, 2, 0, [(zeroHash, zeroHash)]⟩
  wat := [⟨1, 1000, 0⟩, ⟨1, 1001, 0⟩, ⟨0, 0, 0⟩, ⟨0, 0, 0⟩]
  was := ⟨2, [buf]⟩
  pekC := List.replicate 2048 0
  pek := 17

/-- What a call comes to: the fragments that it sends again, and the entries after it. -/
def resends (r : PendReq) (nex now : UInt64) : Option (List UInt64 × List PactStat) :=
  (tryResend r nex now).toOption.map fun p => (p.2.map Datagram.fra, p.1.wat)

theorem resends_eq_some {x : List UInt64 × List PactStat} (h : resends r nex now = some x) :
    ∃ r' sent, tryResend r nex now = .ok (r', sent) ∧ sent.map Datagram.fra = x.1 ∧ r'.wat = x.2 := by
  obtain ⟨⟨r', sent⟩, hp, rfl⟩ := Option.map_eq_some_iff.mp h
  cases hr : tryResend r nex now with
  | error e =>
    rw [hr] at hp
    exact nomatch hp
  | ok p =>
    rw [hr] at hp
    obtain rfl := Option.some.inj hp
    exact ⟨r', sent, rfl, rfl, rfl⟩

/-- Where the first of them has come, the call is right. -/
theorem one_missing_right : ∃ r' sent, tryResend (twoInFlight 1) 2 300000 = .ok (r', sent) ∧
    ResendsRight (twoInFlight 1) r' 2 300000 sent := by
  obtain ⟨r', sent, h, -⟩ := resends_eq_some (show resends (twoInFlight 1) 2 300000 =
    some ([1], [⟨1, 1000, 0⟩, ⟨2, 300000, 0⟩, ⟨0, 0, 0⟩, ⟨0, 0, 0⟩]) by decide +kernel)
  refine ⟨r', sent, h, (tryResend_right_iff h).mpr ⟨fun i _ hlt hdue => ?_, fun i hlt _ => ?_⟩⟩
  · have hi : i.toNat < 2 := UInt64.lt_iff_toNat_lt.mp hlt
    have hcases : i = 0 ∨ i = 1 := by
      rcases Nat.lt_succ_iff_lt_or_eq.mp hi with h0 | h1
      · exact .inl (UInt64.toNat_inj.mp (Nat.lt_one_iff.mp h0))
      · exact .inr (UInt64.toNat_inj.mp h1)
    rcases hcases with rfl | rfl
    · exact absurd hdue.1 (by decide)
    · rfl
  · exact absurd hlt UInt64.not_lt_zero

/-- Where both are missing, the first is sent and the second stamped. -/
theorem two_missing_not_right : ∃ r' sent, tryResend (twoInFlight 0) 2 300000 = .ok (r', sent) ∧
    sent.map Datagram.fra = [0] ∧ ¬ ResendsRight (twoInFlight 0) r' 2 300000 sent := by
  obtain ⟨r', sent, h, hsent, hwat⟩ := resends_eq_some (show resends (twoInFlight 0) 2 300000 =
    some ([0], [⟨1, 1000, 0⟩, ⟨2, 300000, 0⟩, ⟨0, 0, 0⟩, ⟨0, 0, 0⟩]) by decide +kernel)
  refine ⟨r', sent, h, hsent, fun hr => ?_⟩
  have hzero : ∃ d ∈ sent, d.fra = 0 := List.mem_map.mp (hsent ▸ List.mem_singleton_self 0)
  exact (hr.stamped 0 ⟨1, 1000, 0⟩ ⟨1, 1000, 0⟩ rfl (by rw [hwat]; rfl) hzero).1 rfl

end Mesa
end Ursockets
