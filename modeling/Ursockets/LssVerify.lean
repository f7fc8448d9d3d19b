/-
# What the verifier accepts

The verifier's pairs of height `h` are the two subtrees of height `h` that it met last or
meets next: when `c` leaves are in, those that subtree `(c + 2 ^ h - 1) / 2 ^ (h + 1)` of
height `h + 1` joins. A subtree at the right end is kept higher up, where it has a
neighbour, and `_lss_verifier_check_hash` finds it there.

What the verifier takes the subtrees for are values of any kind at first; those of a
message that was committed are the roots of its tree.

Key definitions: `committedPair`, `Lone`, `Holds`, `Slots`.
Key theorems: `checkHash_eq`, `Holds.check`, `Holds.ingest_iff`, `init_holds`, `committed_of_accept`.
-/
import Ursockets.LssBuild

namespace Ursockets
namespace Lss

open Bits Merkle

variable {H : Type} (X : Hasher H) (g : ℕ → H) (n : ℕ)

/-- The pair that goes with leaf `i`: two subtrees of the height of its trailing zeros. -/
def committedPair (i : ℕ) : Option (H × H) :=
  (tzWord i).bind fun h =>
    if i + 2 ^ (h + 1) < n then
      some (node X.parentHash g n h (i / 2 ^ h + 1), node X.parentHash g n h (i / 2 ^ h + 2))
    else none

variable {X g n}

/-! ### Pairs -/

theorem committedPair_zero : committedPair X g n 0 = none := by
  have h : tzWord 0 = none := by
    rw [tzWord, List.find?_eq_none]
    intro j _
    rw [Nat.zero_testBit]
    decide
  rw [committedPair, h, Option.bind_none]

theorem committedPair_odd {m h : ℕ} (hh : h < 32) : committedPair X g n ((2 * m + 1) * 2 ^ h) =
    if (2 * (m + 1) + 1) * 2 ^ h < n then
      some (node X.parentHash g n h (2 * (m + 1)), node X.parentHash g n h (2 * (m + 1) + 1))
    else none := by
  have h1 : (2 * m + 1) * 2 ^ h + 2 ^ (h + 1) = (2 * (m + 1) + 1) * 2 ^ h := by ring
  have h2 : 2 * m + 1 + 1 = 2 * (m + 1) := by ring
  have h3 : 2 * m + 1 + 2 = 2 * (m + 1) + 1 := by ring
  rw [committedPair, tzWord_odd m hh, Option.bind_some, Nat.mul_div_cancel _ (Nat.two_pow_pos h), h1, h2, h3]

/-- The height of a leaf's trailing zeros. -/
theorem height_lt {m h : ℕ} (hi : (2 * m + 1) * 2 ^ h < n) (hn : n ≤ 2 ^ 31) : h < 31 := by
  have h1 : 2 ^ h ≤ (2 * m + 1) * 2 ^ h := Nat.le_mul_of_pos_left _ (by omega)
  exact (Nat.pow_lt_pow_iff_right (a := 2) (by decide)).mp (show 2 ^ h < 2 ^ 31 by omega)

theorem lt_bitsWord {x h : ℕ} (hx : 0 < x) (hn : x * 2 ^ h < n) : h < bitsWord n := by
  by_contra hge
  have h1 := met0_le_iff.mp (Nat.le_of_not_lt hge)
  have h2 : 2 ^ h ≤ x * 2 ^ h := Nat.le_mul_of_pos_left _ hx
  exact Nat.lt_irrefl _ (hn.trans (h1.trans_le h2))

/-- **`_lss_expect_pair` tells which leaves have a pair.** -/
theorem expectPair_spec {i : ℕ} (hi : i < n) (hn : n ≤ 2 ^ 31) :
    expectPair n i = some (committedPair X g n i).isSome := by
  by_cases h0 : i = 0
  · rw [expectPair, if_pos h0, h0, committedPair_zero]
    rfl
  obtain ⟨m, h, hh, rfl⟩ := exists_odd_mul h0 (by omega)
  have hlt := height_lt hi hn
  have hpow : 2 ^ (1 + h) ≤ 2 ^ 31 := Nat.pow_le_pow_right (by decide) (by omega)
  have h1 : (2 * m + 1) * 2 ^ h + 2 ^ (1 + h) = (2 * (m + 1) + 1) * 2 ^ h := by ring
  unfold expectPair
  rw [if_neg h0, tzWord_odd m hh]
  simp only [Option.bind_eq_bind, Option.bind_some]
  rw [shl1_of_lt (by omega), Option.bind_some, Nat.mod_eq_of_lt (by omega), h1, committedPair_odd hh]
  by_cases h2 : (2 * (m + 1) + 1) * 2 ^ h < n
  · rw [if_pos h2, decide_eq_true h2]
    rfl
  · rw [if_neg h2, decide_eq_false h2]
    rfl

/-- **The builder gives the pairs that go with the leaves.** -/
theorem builderPair_spec {b : Builder H} (hb : Finished X g n b) {i : ℕ} (hi : i < n) (hn : n ≤ 2 ^ 31) :
    builderPair b i = some (committedPair X g n i) := by
  unfold builderPair
  rw [hb.leaves, expectPair_spec (X := X) (g := g) hi hn]
  simp only [Option.bind_eq_bind, Option.bind_some]
  by_cases h0 : i = 0
  · rw [h0, committedPair_zero]
    rfl
  obtain ⟨m, h, hh, rfl⟩ := exists_odd_mul h0 (by omega)
  rw [committedPair_odd hh]
  by_cases h2 : (2 * (m + 1) + 1) * 2 ^ h < n
  · have hknown := hb.known h (m + 1) hh h2
    rw [Known, if_neg (Nat.succ_ne_zero m), pair_place (Nat.succ_ne_zero m)] at hknown
    rw [if_pos h2]
    simp only [Option.isSome_some, if_true]
    rw [show m + 1 - 1 = m from rfl] at hknown
    rw [hknown]
    rfl
  · rw [if_neg h2]
    rfl

/-! ### Where a hash is kept -/

theorem met0_xor_le {i l r : ℕ} : met0 (i ^^^ l) ≤ r ↔ i / 2 ^ r = l / 2 ^ r := by
  rw [met0_le_iff, ← Nat.div_eq_zero_iff_lt (Nat.two_pow_pos r), Nat.xor_div_two_pow, Nat.xor_eq_zero_iff]

/-- Values of subtrees, of which one without a right half has that of its left half. -/
def Lone (n : ℕ) (V : ℕ → ℕ → H) : Prop := ∀ h j, n ≤ (2 * j + 1) * 2 ^ h → V (h + 1) j = V h (2 * j)

theorem lone_node : Lone n (node X.parentHash g n) := fun _ _ => node_alone

variable [DecidableEq H]

/-- **Where `_lss_verifier_check_hash` looks.** Subtree `q` of height `a` is
also subtree `q'` of height `a + s`, which has a neighbour, and its hash is
compared with that of the pair of this height. -/
theorem checkHash_eq {V : ℕ → ℕ → H} (hV : Lone n V) {v : Verifier H} {i a q : ℕ} (hv : v.leaves = n)
    (hn : n ≤ 2 ^ 31) (ha : 2 ^ a < n) (hi : i = q * 2 ^ a) (hin : i < n) :
    ∃ s q', q = q' * 2 ^ s ∧ (i = 0 → s = 0) ∧ a + s < 32 ∧ V a q = V (a + s) q' ∧
      (q' % 2 = 1 ∨ (q' + 1) * 2 ^ (a + s) < n) ∧
      ∀ h, checkHash v i a h = v.pairs[a + s]?.map fun p => decide ((if q' % 2 = 0 then p.1 else p.2) = h) := by
  subst hv
  obtain ⟨last, hlast⟩ : ∃ last, v.leaves = last + 1 := ⟨v.leaves - 1, by omega⟩
  have hpred : pred v.leaves = last := by rw [pred_eq (by omega) (by omega), hlast, Nat.add_sub_cancel]
  have hk : met0 last ≤ 31 := met0_le_iff.mpr (by omega)
  have hxor : met0 (i ^^^ last) ≤ 31 := met0_le_iff.mpr (Nat.xor_lt_two_pow (by omega) (by omega))
  have hak : a < met0 last := by
    by_contra hle
    have := met0_le_iff.mp (Nat.le_of_not_lt hle)
    omega
  have htop := lt_two_pow_met0 last
  have hpow : 2 ^ met0 last ≤ 2 ^ 31 := Nat.pow_le_pow_right (by decide) hk
  have hodd : (2 ^ met0 last + 2 ^ 32 - v.leaves) % 2 ^ 32 = 2 ^ met0 last - (last + 1) := by
    rw [hlast]
    omega
  -- a bit is set where the subtree of that height has no right half
  have hbit : ∀ r, a + r < 32 → (((2 ^ met0 last - (last + 1)) &&& inv (2 ^ met0 (i ^^^ last) - 1)) / 2 ^ a).testBit r =
      (decide (a + r < met0 last) && !last.testBit (a + r) && decide (met0 (i ^^^ last) ≤ a + r)) := by
    intro r hr
    rw [Nat.testBit_div_two_pow, Nat.testBit_and, Nat.add_comm r a, Nat.testBit_two_pow_sub_succ htop,
      testBit_inv _ hr, Nat.testBit_two_pow_sub_one, ← decide_not, decide_eq_decide.mpr Nat.not_lt]
  generalize hw : ((2 ^ met0 last - (last + 1)) &&& inv (2 ^ met0 (i ^^^ last) - 1)) / 2 ^ a = w at hbit
  have hex : ∃ r, w.testBit r = false :=
    ⟨met0 last - a, by rw [hbit _ (by omega), decide_eq_false (by omega)]; rfl⟩
  classical
  have hfind := Nat.find_spec hex
  have hle : Nat.find hex ≤ met0 last - a :=
    Nat.find_min' hex (by rw [hbit _ (by omega), decide_eq_false (by omega)]; rfl)
  have hmin : ∀ r < Nat.find hex, w.testBit r = true := fun r hr => Bool.not_eq_false _ ▸ Nat.find_min hex hr
  generalize Nat.find hex = s at hfind hle hmin
  -- up to height `a + s` the subtree is the left half of the one above it
  have hstep : ∀ r < s, i / 2 ^ (a + r) = last / 2 ^ (a + r) ∧ last / 2 ^ (a + r) % 2 = 0 := by
    intro r hr
    have h1 := hmin r hr
    rw [hbit r (by omega), Bool.and_eq_true, Bool.and_eq_true, decide_eq_true_eq, decide_eq_true_eq,
      Bool.not_eq_true', Nat.testBit_eq_decide_div_mod_eq, decide_eq_false_iff_not] at h1
    exact ⟨met0_xor_le.mp h1.2, by omega⟩
  have hup : ∀ r ≤ s, q = i / 2 ^ (a + r) * 2 ^ r ∧ V a q = V (a + r) (i / 2 ^ (a + r)) := by
    intro r
    induction r with
    | zero =>
      intro _
      have h1 : i / 2 ^ a = q := by rw [hi, Nat.mul_div_cancel _ (Nat.two_pow_pos a)]
      rw [Nat.add_zero, h1, Nat.pow_zero, Nat.mul_one]
      exact ⟨rfl, rfl⟩
    | succ r ih =>
      intro hr
      obtain ⟨h1, h2⟩ := ih (by omega)
      obtain ⟨h3, h4⟩ := hstep r (by omega)
      have h5 : i / 2 ^ (a + (r + 1)) = i / 2 ^ (a + r) / 2 := by
        rw [← Nat.add_assoc, Nat.pow_succ, Nat.div_div_eq_div_mul]
      have h6 : i / 2 ^ (a + r) = 2 * (i / 2 ^ (a + r) / 2) := by omega
      have h7 : v.leaves ≤ (2 * (i / 2 ^ (a + r) / 2) + 1) * 2 ^ (a + r) := by
        rw [← h6, h3, hlast, Nat.mul_comm]
        exact Nat.lt_mul_div_succ _ (Nat.two_pow_pos _)
      refine ⟨?_, ?_⟩
      · rw [h5, Nat.pow_succ']
        calc q = 2 * (i / 2 ^ (a + r) / 2) * 2 ^ r := by rw [← h6]; exact h1
          _ = i / 2 ^ (a + r) / 2 * (2 * 2 ^ r) := by ring
      · rw [h2, h5, ← Nat.add_assoc, hV _ _ h7, ← h6]
  have hzero : i = 0 → s = 0 := by
    intro h0
    by_contra hs
    have h1 := (hstep 0 (Nat.pos_of_ne_zero hs)).1
    rw [h0, Nat.zero_div, Nat.add_zero] at h1
    have := (Nat.div_eq_zero_iff_lt (Nat.two_pow_pos a)).mp h1.symm
    omega
  have hneighbour : i / 2 ^ (a + s) % 2 = 1 ∨ (i / 2 ^ (a + s) + 1) * 2 ^ (a + s) < v.leaves := by
    rcases Nat.mod_two_eq_zero_or_one (i / 2 ^ (a + s)) with heven | hodd'
    swap
    · exact .inl hodd'
    refine .inr ?_
    rw [hlast]
    refine Nat.lt_succ_of_le ((Nat.le_div_iff_mul_le (Nat.two_pow_pos _)).mp ?_)
    refine Nat.lt_of_le_of_ne (Nat.div_le_div_right (by omega)) fun heq => ?_
    -- then the subtree ends with the last leaf, and its height is that of the whole tree
    have hnot : ¬ 0 = 1 := Nat.zero_ne_one
    rw [hbit s (by omega), Nat.testBit_eq_decide_div_mod_eq, ← heq, heven, decide_eq_false hnot,
      decide_eq_true (met0_xor_le.mpr heq), Bool.and_true, Bool.not_false, Bool.and_true,
        decide_eq_false_iff_not] at hfind
    have hs : a + (s - 1) = met0 last - 1 := by omega
    have h1 := (hstep (s - 1) (by omega)).2
    have h2 : 2 ^ (met0 last - 1) ≤ last := two_pow_le (by rintro rfl; omega)
    have h3 : last < 2 ^ (met0 last - 1) * 2 := by
      rw [← Nat.pow_succ, Nat.succ_eq_add_one, Nat.sub_add_cancel (by omega)]
      exact htop
    have h4 : last / 2 ^ (met0 last - 1) = 1 := Nat.div_eq_of_lt_le (by omega) (by omega)
    rw [hs, h4] at h1
    omega
  refine ⟨s, i / 2 ^ (a + s), (hup s (Nat.le_refl s)).1, hzero, by omega, (hup s (Nat.le_refl s)).2, hneighbour,
    fun h => ?_⟩
  have htz : tzWord (inv w) = some s := by
    refine tzWord_eq (by omega) ?_ fun r hr => ?_
    · rw [testBit_inv _ (by omega), hfind, Bool.not_false]
    · rw [testBit_inv _ (by omega), hmin r hr, Bool.not_true]
  unfold checkHash
  simp only [hpred, bitsWord, Option.bind_eq_bind]
  rw [shl1_of_lt (by omega), Option.bind_some, shl1_of_lt (by omega), Option.bind_some, hodd, shr_of_lt (by omega),
    Option.bind_some, hw, htz, Option.bind_some, shr_of_lt (by omega), Option.bind_some]
  cases v.pairs[a + s]? with
  | none => rfl
  | some p =>
    rw [Option.bind_some, Option.map_some, Nat.and_one_is_mod]

/-! ### The pairs of the verifier -/

/-- A verifier of `n` leaves that has accepted `c` and takes the subtrees for `V`. -/
structure Holds (V : ℕ → ℕ → H) (n : ℕ) (v : Verifier H) (c : ℕ) : Prop where
  leaves : v.leaves = n
  counter : v.counter = c
  length : v.pairs.length = bitsWord n
  slot : ∀ h j, (2 * j + 1) * 2 ^ h < n → (c + 2 ^ h - 1) / 2 ^ (h + 1) = j →
    ∃ p, v.pairs[h]? = some p ∧ p.2 = V h (2 * j + 1) ∧ (j ≠ 0 ∨ h = 0 → p.1 = V h (2 * j))

/-- A verifier of `n` leaves that has accepted `c`. -/
structure Slots (X : Hasher H) (g : ℕ → H) (n : ℕ) (v : Verifier H) (c : ℕ) : Prop where
  leaves : v.leaves = n
  counter : v.counter = c
  length : v.pairs.length = bitsWord n
  slot : ∀ h j, (2 * j + 1) * 2 ^ h < n → (c + 2 ^ h - 1) / 2 ^ (h + 1) = j →
    ∃ p, v.pairs[h]? = some p ∧ p.2 = node X.parentHash g n h (2 * j + 1) ∧
      (j ≠ 0 ∨ h = 0 → p.1 = node X.parentHash g n h (2 * j))
  first : ∃ x y, x < n ∧ y < n ∧ v.pairs[0]? = some (g x, g y)

omit [DecidableEq H] in
theorem Slots.holds {v : Verifier H} {c : ℕ} (hs : Slots X g n v c) : Holds (node X.parentHash g n) n v c :=
  ⟨hs.leaves, hs.counter, hs.length, hs.slot⟩

variable {V : ℕ → ℕ → H}

/-- **A hash is accepted if it is the value of the subtree.** -/
theorem Holds.check (hV : Lone n V) {v : Verifier H} {c i a q d : ℕ} (hs : Holds V n v c) (hn : n ≤ 2 ^ 31)
    (ha : 2 ^ a < n) (hi : i = q * 2 ^ a) (hin : i < n) (hd : c + d = i) (hda : d < 2 ^ a) (h0 : i = 0 → a = 0)
    (h : H) : checkHash v i a h = some (decide (V a q = h)) := by
  obtain ⟨s, q', hq, hs0, has, hnode, hside, hcheck⟩ := checkHash_eq hV hs.leaves hn ha hi hin
  have hi' : i = q' * 2 ^ (a + s) := by
    rw [hi, hq]
    ring
  have hpow : 2 ^ a ≤ 2 ^ (a + s) := Nat.pow_le_pow_right (by decide) (Nat.le_add_right a s)
  have hdiv : (c + 2 ^ (a + s) - 1) / 2 ^ (a + s) = q' := by
    have h1 : (q' + 1) * 2 ^ (a + s) = q' * 2 ^ (a + s) + 2 ^ (a + s) := by ring
    exact Nat.div_eq_of_lt_le (by omega) (by omega)
  have hj : (c + 2 ^ (a + s) - 1) / 2 ^ (a + s + 1) = q' / 2 := by
    rw [Nat.pow_succ, ← Nat.div_div_eq_div_mul, hdiv]
  have hfit : (2 * (q' / 2) + 1) * 2 ^ (a + s) < n := by
    rcases Nat.mod_two_eq_zero_or_one q' with heven | hodd
    · have h1 : 2 * (q' / 2) + 1 = q' + 1 := by omega
      rw [h1]
      exact hside.resolve_left (by omega)
    · have h1 : 2 * (q' / 2) + 1 = q' := by omega
      rw [h1, ← hi']
      exact hin
  obtain ⟨p, hp, hright, hleft⟩ := hs.slot (a + s) (q' / 2) hfit hj
  rw [hcheck, hp, Option.map_some, hnode]
  congr 2
  rcases Nat.mod_two_eq_zero_or_one q' with heven | hodd
  · have h1 : 2 * (q' / 2) = q' := by omega
    rw [if_pos heven, hleft ?_, h1]
    by_cases hq0 : q' = 0
    · right
      rw [hq0, Nat.zero_mul] at hi'
      rw [h0 hi', hs0 hi']
    · left
      omega
  · have h1 : 2 * (q' / 2) + 1 = q' := by omega
    rw [if_neg (by omega), hright, h1]

/-- When a leaf is in, the pair of one height at most is another one. -/
theorem succ_slot (c h : ℕ) : (c + 1 + 2 ^ h - 1) / 2 ^ (h + 1) = (c + 2 ^ h - 1) / 2 ^ (h + 1) ∨
    ∃ x, c = (2 * x + 1) * 2 ^ h ∧ (c + 1 + 2 ^ h - 1) / 2 ^ (h + 1) = x + 1 := by
  have hpos := Nat.two_pow_pos h
  have h1 : c + 1 + 2 ^ h - 1 = c + 2 ^ h - 1 + 1 := by omega
  by_cases hdvd : 2 ^ (h + 1) ∣ c + 2 ^ h - 1 + 1
  · right
    obtain ⟨x, hx⟩ := hdvd
    have h2 : x ≠ 0 := by
      rintro rfl
      omega
    obtain ⟨y, rfl⟩ := Nat.exists_eq_succ_of_ne_zero h2
    have h3 : 2 ^ (h + 1) * y.succ = (2 * y + 1) * 2 ^ h + 2 ^ h := by
      rw [Nat.succ_eq_add_one]
      ring
    refine ⟨y, by omega, ?_⟩
    rw [h1, hx, Nat.mul_div_cancel_left _ (Nat.two_pow_pos _)]
  · left
    rw [h1, Nat.succ_div_of_not_dvd hdvd]

omit [DecidableEq H] in
/-- A leaf without a pair. -/
theorem Holds.alone {v : Verifier H} {c : ℕ} (hs : Holds V n v c) (hc : c < 2 ^ 32)
    (hp : committedPair X g n c = none) : Holds V n { v with counter := c + 1 } (c + 1) := by
  refine ⟨hs.leaves, rfl, hs.length, fun h j hfit hj => ?_⟩
  rcases succ_slot c h with heq | ⟨x, hx, heq⟩
  · exact hs.slot h j hfit (heq ▸ hj)
  · have hh : h < 32 := by
      by_contra hge
      have h1 : 2 ^ 32 ≤ 2 ^ h := Nat.pow_le_pow_right (by decide) (by omega)
      have h2 : 2 ^ h ≤ (2 * x + 1) * 2 ^ h := Nat.le_mul_of_pos_left _ (by omega)
      omega
    rw [heq] at hj
    rw [hx, committedPair_odd hh, hj, if_pos hfit] at hp
    cases hp

omit [DecidableEq H] in
/-- A leaf with the pair that subtree `m + 1` of the height above joins. -/
theorem Holds.paired {v : Verifier H} {m h : ℕ} (hs : Holds V n v ((2 * m + 1) * 2 ^ h)) (hn : n ≤ 2 ^ 31)
    (hfit : (2 * (m + 1) + 1) * 2 ^ h < n) :
    Holds V n { v with
      pairs := v.pairs.set h (V h (2 * (m + 1)), V h (2 * (m + 1) + 1))
      counter := (2 * m + 1) * 2 ^ h + 1 } ((2 * m + 1) * 2 ^ h + 1) := by
  have hh := height_lt hfit hn
  have hlen : h < v.pairs.length := by
    rw [hs.length]
    exact lt_bitsWord (Nat.succ_pos _) hfit
  refine ⟨hs.leaves, rfl, ?_, fun h' j hfit' hj => ?_⟩
  · rw [List.length_set, hs.length]
  · by_cases hh' : h' = h
    · subst hh'
      have h1 : j = m + 1 := by
        have h2 : (2 * m + 1) * 2 ^ h' + 1 + 2 ^ h' - 1 = (m + 1) * 2 ^ (h' + 1) := by
          have h3 : (m + 1) * 2 ^ (h' + 1) = (2 * m + 1) * 2 ^ h' + 2 ^ h' := by ring
          omega
        rw [← hj, h2, Nat.mul_div_cancel _ (Nat.two_pow_pos _)]
      subst h1
      exact ⟨_, List.getElem?_set_self hlen, rfl, fun _ => rfl⟩
    · rw [List.getElem?_set_ne (fun heq => hh' heq.symm)]
      rcases succ_slot ((2 * m + 1) * 2 ^ h) h' with heq | ⟨x, hx, -⟩
      · exact hs.slot h' j hfit' (heq ▸ hj)
      · obtain ⟨-, hne⟩ := odd_mul_inj hx (by omega) (by have := height_lt hfit' hn; omega)
        exact absurd hne.symm hh'

omit [DecidableEq H] in
theorem Slots.none {v : Verifier H} {c : ℕ} (hs : Slots X g n v c) (hc : c < 2 ^ 32)
    (hp : committedPair X g n c = none) : Slots X g n { v with counter := c + 1 } (c + 1) := by
  have h := hs.holds.alone hc hp
  exact ⟨h.leaves, h.counter, h.length, h.slot, hs.first⟩

omit [DecidableEq H] in
theorem Slots.pair {v : Verifier H} {m h : ℕ} (hs : Slots X g n v ((2 * m + 1) * 2 ^ h)) (hn : n ≤ 2 ^ 31)
    (hfit : (2 * (m + 1) + 1) * 2 ^ h < n) :
    Slots X g n { v with
      pairs := v.pairs.set h (node X.parentHash g n h (2 * (m + 1)), node X.parentHash g n h (2 * (m + 1) + 1))
      counter := (2 * m + 1) * 2 ^ h + 1 } ((2 * m + 1) * 2 ^ h + 1) := by
  have hp := hs.holds.paired hn hfit
  refine ⟨hp.leaves, hp.counter, hp.length, hp.slot, ?_⟩
  by_cases h0 : h = 0
  · subst h0
    have hlen : 0 < v.pairs.length := by
      rw [hs.length]
      exact lt_bitsWord (Nat.succ_pos _) hfit
    rw [Nat.pow_zero, Nat.mul_one] at hfit
    refine ⟨2 * (m + 1), 2 * (m + 1) + 1, by omega, hfit, ?_⟩
    rw [List.getElem?_set_self hlen, node_zero, node_zero]
  · rw [List.getElem?_set_ne h0]
    exact hs.first

/-! ### One leaf -/

/-- **`lss_verifier_ingest` accepts the leaf of the value**, alone or with a pair that joins to
the value of the subtree above. -/
theorem Holds.ingest_iff (hV : Lone n V) {v v' : Verifier H} {c : ℕ} {leaf : List UInt8} {pair : Option (H × H)}
    (hs : Holds V n v c) (hsteps : v.steps < 32) (h1 : 1 < n) (hn : n ≤ 2 ^ 31) (hc : c < n) :
    verifierIngest X v leaf pair = some (true, v') ↔
      subtreeRoot X leaf (c <<< v.steps % 2 ^ 32) = some (V 0 c) ∧
        (pair = none ∧ committedPair X g n c = none ∧ v' = { v with counter := c + 1 } ∨
          ∃ m h l r, pair = some (l, r) ∧ c = (2 * m + 1) * 2 ^ h ∧ (2 * (m + 1) + 1) * 2 ^ h < n ∧
            V (h + 1) (m + 1) = X.parentHash l r ∧
              v' = { v with pairs := v.pairs.set h (l, r), counter := c + 1 }) := by
  obtain rfl := hs.leaves
  have hcheck := hs.check hV hn (a := 0) (q := c) (d := 0) (by omega) (by ring) hc rfl (by decide) fun _ => rfl
  unfold verifierIngest
  generalize hword : 2 ^ 32 = word
  rw [shl1_of_lt hsteps, hs.counter]
  simp only [Option.bind_eq_bind, Option.bind_some, expectPair_spec (X := X) (g := g) hc hn,
    Nat.mod_eq_of_lt (show c + 1 < word by omega)]
  cases hroot : subtreeRoot X leaf (c <<< v.steps % word) with
  | none => simp
  | some h =>
    rw [Option.bind_some, hcheck, Option.bind_some]
    by_cases hleaf : V 0 c = h
    swap
    · simp [hleaf, Ne.symm hleaf]
    subst hleaf
    simp only [decide_true, Bool.not_true, Bool.false_eq_true, if_false, true_and]
    rcases Nat.eq_zero_or_pos c with rfl | hpos
    · -- the first leaf has no pair
      rw [committedPair_zero]
      cases pair with
      | none => simp [eq_comm]
      | some p =>
        simp only [Option.isSome_some, Option.isSome_none, ne_eq, Bool.true_eq_false, not_false_eq_true, if_true]
        constructor
        · intro h2
          cases h2
        · rintro (⟨h2, -⟩ | ⟨m, h, l, r, -, h2, -⟩)
          · cases h2
          · have := Nat.mul_pos (show 0 < 2 * m + 1 by omega) (Nat.two_pow_pos h)
            omega
    obtain ⟨m, h, hh, rfl⟩ := exists_odd_mul hpos.ne' (show c < 2 ^ 32 by omega)
    have hlt := height_lt hc hn
    have hpow : 2 ^ h ≤ 2 ^ 31 := Nat.pow_le_pow_right (by decide) (by omega)
    rw [committedPair_odd hh, tzWord_odd m hh]
    by_cases hfit : (2 * (m + 1) + 1) * 2 ^ h < v.leaves
    swap
    · rw [if_neg hfit]
      cases pair with
      | none => simp [eq_comm]
      | some p =>
        simp only [Option.isSome_some, Option.isSome_none, ne_eq, Bool.true_eq_false, not_false_eq_true, if_true]
        constructor
        · intro h2
          cases h2
        · rintro (⟨h2, -⟩ | ⟨m', h', l, r, -, h2, h3, -⟩)
          · cases h2
          · obtain ⟨rfl, rfl⟩ := odd_mul_inj h2 hh (by have := height_lt h3 hn; omega)
            exact absurd h3 hfit
    rw [if_pos hfit]
    cases pair with
    | none =>
      simp only [Option.isSome_some, Option.isSome_none, ne_eq, Bool.false_eq_true, not_false_eq_true, if_true]
      constructor
      · intro h2
        cases h2
      · rintro (⟨-, h2, -⟩ | ⟨m', h', l, r, h2, -⟩)
        · cases h2
        · cases h2
    | some p =>
      obtain ⟨l, r⟩ := p
      have hstart : (2 * m + 1) * 2 ^ h + 2 ^ h = (m + 1) * 2 ^ (h + 1) := by ring
      have hlow : (m + 1) * 2 ^ (h + 1) + 2 ^ h = (2 * (m + 1) + 1) * 2 ^ h := by ring
      have hup : 2 ^ (h + 1) ≤ (m + 1) * 2 ^ (h + 1) := Nat.le_mul_of_pos_left _ (Nat.succ_pos m)
      have hp := Nat.two_pow_pos h
      have hjoin := hs.check hV hn (i := (m + 1) * 2 ^ (h + 1)) (a := h + 1) (q := m + 1) (d := 2 ^ h) (by omega) rfl
        (by omega) hstart (Nat.pow_lt_pow_right (by decide) (Nat.lt_succ_self h)) (by omega) (X.parentHash l r)
      have hlen : h < v.pairs.length := by
        rw [hs.length]
        exact lt_bitsWord (Nat.succ_pos _) hfit
      simp only [Option.isSome_some, ne_eq, not_true, if_false]
      rw [Option.bind_some, shl1_of_lt hh, Option.bind_some]
      rw [Nat.mod_eq_of_lt (by omega), hstart, hjoin, Option.bind_some, write_of_lt hlen, Option.bind_some]
      by_cases hnode : V (h + 1) (m + 1) = X.parentHash l r
      · rw [decide_eq_true hnode]
        simp only [Bool.not_true, Bool.false_eq_true, if_false]
        constructor
        · intro h2
          cases h2
          exact .inr ⟨m, h, l, r, rfl, rfl, hfit, hnode, rfl⟩
        · rintro (⟨h2, -⟩ | ⟨m', h', l', r', h2, h3, h4, -, rfl⟩)
          · cases h2
          · obtain ⟨-, rfl⟩ := odd_mul_inj h3 hh (by have := height_lt h4 hn; omega)
            cases h2
            rfl
      · rw [decide_eq_false hnode]
        simp only [Bool.not_false, if_true]
        constructor
        · intro h2
          cases h2
        · rintro (⟨h2, -⟩ | ⟨m', h', l', r', h2, h3, h4, h5, -⟩)
          · cases h2
          · obtain ⟨rfl, rfl⟩ := odd_mul_inj h3 hh (by have := height_lt h4 hn; omega)
            cases h2
            exact absurd h5 hnode

/-- **`lss_verifier_ingest` accepts the committed leaf**, alone or with a pair that
joins to the same subtree as the committed pair. -/
theorem ingest_iff {v v' : Verifier H} {c : ℕ} {leaf : List UInt8} {pair : Option (H × H)} (hs : Slots X g n v c)
    (hsteps : v.steps < 32) (h1 : 1 < n) (hn : n ≤ 2 ^ 31) (hc : c < n) :
    verifierIngest X v leaf pair = some (true, v') ↔
      subtreeRoot X leaf (c <<< v.steps % 2 ^ 32) = some (g c) ∧
        (pair = none ∧ committedPair X g n c = none ∧ v' = { v with counter := c + 1 } ∨
          ∃ m h l r, pair = some (l, r) ∧ c = (2 * m + 1) * 2 ^ h ∧ (2 * (m + 1) + 1) * 2 ^ h < n ∧
            node X.parentHash g n (h + 1) (m + 1) = X.parentHash l r ∧
              v' = { v with pairs := v.pairs.set h (l, r), counter := c + 1 }) := by
  simpa only [node_zero] using hs.holds.ingest_iff (X := X) (g := g) lone_node hsteps h1 hn hc

theorem accept_committed {v : Verifier H} {c : ℕ} {leaf : List UInt8} (hs : Slots X g n v c) (hsteps : v.steps < 32)
    (h1 : 1 < n) (hn : n ≤ 2 ^ 31) (hc : c < n) (hroot : subtreeRoot X leaf (c <<< v.steps % 2 ^ 32) = some (g c)) :
    ∃ v', verifierIngest X v leaf (committedPair X g n c) = some (true, v') ∧ v'.steps = v.steps ∧
      Slots X g n v' (c + 1) := by
  cases hpair : committedPair X g n c with
  | none =>
    exact ⟨_, (ingest_iff hs hsteps h1 hn hc).mpr ⟨hroot, .inl ⟨rfl, hpair, rfl⟩⟩, rfl, hs.none (by omega) hpair⟩
  | some p =>
    have h0 : c ≠ 0 := by
      rintro rfl
      rw [committedPair_zero] at hpair
      cases hpair
    obtain ⟨m, h, hh, rfl⟩ := exists_odd_mul h0 (by omega)
    rw [committedPair_odd hh] at hpair
    split at hpair
    · rename_i hfit
      cases hpair
      exact ⟨_, (ingest_iff hs hsteps h1 hn hc).mpr ⟨hroot, .inr ⟨m, h, _, _, rfl, rfl, hfit, node_pair hfit, rfl⟩⟩,
        rfl, hs.pair hn hfit⟩
    · cases hpair

/-- **What is accepted is what was committed.** -/
theorem committed_of_accept {v v' : Verifier H} {c : ℕ} {leaf : List UInt8} {pair : Option (H × H)}
    (hx : CollisionFree X.parentHash) (hs : Slots X g n v c) (hsteps : v.steps < 32) (h1 : 1 < n) (hn : n ≤ 2 ^ 31)
    (hc : c < n) (h : verifierIngest X v leaf pair = some (true, v')) :
    subtreeRoot X leaf (c <<< v.steps % 2 ^ 32) = some (g c) ∧ pair = committedPair X g n c ∧
      v'.steps = v.steps ∧ Slots X g n v' (c + 1) := by
  obtain ⟨hroot, ⟨rfl, hnone, rfl⟩ | ⟨m, t, l, r, rfl, rfl, hfit, hjoin, rfl⟩⟩ := (ingest_iff hs hsteps h1 hn hc).mp h
  · exact ⟨hroot, hnone.symm, rfl, hs.none (by omega) hnone⟩
  · rw [node_pair hfit] at hjoin
    obtain ⟨rfl, rfl⟩ := hx _ _ _ _ hjoin
    have ht : t < 32 := by
      have := height_lt hc hn
      omega
    exact ⟨hroot, by rw [committedPair_odd ht, if_pos hfit], rfl, hs.pair hn hfit⟩

/-- The hash of a leaf past the end is compared with that of another leaf. -/
theorem check_past {v : Verifier H} (hs : Slots X g n v n) (h1 : 1 < n) (hn : n ≤ 2 ^ 31) {h : H}
    (hc : checkHash v n 0 h = some true) : ∃ x < n, g x = h := by
  obtain ⟨x, y, hx, hy, hfirst⟩ := hs.first
  have hlow : (n ^^^ (n - 1)).testBit 0 = true := by
    rw [Nat.testBit_xor, Nat.testBit_zero, Nat.testBit_zero]
    rcases Nat.mod_two_eq_zero_or_one n with heven | hodd
    · rw [decide_eq_false (by omega), decide_eq_true (by omega)]
      rfl
    · rw [decide_eq_true hodd, decide_eq_false (by omega)]
      rfl
  have hbits : 0 < met0 (n ^^^ (n - 1)) := by
    refine met0_pos fun h0 => ?_
    rw [h0, Nat.zero_testBit] at hlow
    cases hlow
  unfold checkHash at hc
  rw [hs.leaves, pred_eq (by omega) (by omega)] at hc
  simp only [bitsWord, Option.bind_eq_bind] at hc
  rw [shl1_of_lt (Nat.lt_succ_of_le (met0_le_iff.mpr (by omega))), Option.bind_some] at hc
  generalize (2 ^ met0 (n - 1) + 2 ^ 32 - n) % 2 ^ 32 = odd at hc
  by_cases hlt : met0 (n ^^^ (n - 1)) < 32
  swap
  · rw [shl1, if_neg hlt, Option.bind_none] at hc
    cases hc
  have htz : tzWord (inv ((odd &&& inv (2 ^ met0 (n ^^^ (n - 1)) - 1)) / 2 ^ 0)) = some 0 := by
    refine tzWord_eq (by decide) ?_ fun j hj => absurd hj (Nat.not_lt_zero j)
    rw [testBit_inv _ (by decide), Nat.pow_zero, Nat.div_one, Nat.testBit_and, testBit_inv _ (by decide),
      Nat.testBit_two_pow_sub_one, decide_eq_true hbits, Bool.not_true, Bool.and_false, Bool.not_false]
  rw [shl1_of_lt hlt, Option.bind_some, shr_of_lt (by decide), Option.bind_some, htz, Option.bind_some,
    shr_of_lt (by decide), Option.bind_some, Nat.add_zero, hfirst, Option.bind_some] at hc
  have heq := of_decide_eq_true (Option.some.inj hc)
  split at heq
  · exact ⟨x, hx, heq⟩
  · exact ⟨y, hy, heq⟩

/-! ### The proof -/

omit [DecidableEq H] in
theorem initLoop_spec (proof : List H) (pairs : List (H × H)) : ∀ {k : ℕ}, k ≤ pairs.length → k < proof.length →
    ∃ pairs', initLoop proof pairs k = some pairs' ∧ pairs'.length = pairs.length ∧
      ∀ i, pairs'[i]? = if i < k then pairs[i]?.bind fun p => proof[i + 1]?.map fun h => (p.1, h) else pairs[i]?
  | 0, _, _ => ⟨pairs, rfl, rfl, fun i => (if_neg (Nat.not_lt_zero i)).symm⟩
  | k + 1, hk, hp => by
    obtain ⟨pairs', hloop, hlen, hpairs⟩ := initLoop_spec proof pairs (k := k) (by omega) (by omega)
    have hk' : k < pairs'.length := by omega
    obtain ⟨h, hh⟩ : ∃ h, proof[k + 1]? = some h := ⟨_, List.getElem?_eq_getElem hp⟩
    obtain ⟨p, hpk⟩ : ∃ p, pairs'[k]? = some p := ⟨_, List.getElem?_eq_getElem hk'⟩
    refine ⟨pairs'.set k (p.1, h), ?_, by rw [List.length_set, hlen], fun i => ?_⟩
    · unfold initLoop
      simp only [hloop, hh, hpk, Option.bind_eq_bind, Option.bind_some]
      exact write_of_lt hk' _
    · rcases Nat.lt_trichotomy i k with hlt | rfl | hgt
      · rw [List.getElem?_set_ne (by omega), hpairs, if_pos hlt, if_pos (by omega)]
      · have hi := hpairs i
        rw [if_neg (Nat.lt_irrefl i), hpk] at hi
        rw [List.getElem?_set_self hk', if_pos (Nat.lt_succ_self i), ← hi, hh]
        rfl
      · rw [List.getElem?_set_ne (by omega), hpairs, if_neg (by omega), if_neg (by omega)]

omit [DecidableEq H] in
/-- **`lss_verifier_init` takes the proof** for the first leaf and the right neighbours of the subtrees
that begin with it. -/
theorem init_holds {proof : List H} (mem : ℕ → H × H) (steps : ℕ) (h1 : 1 < n) (hn : n ≤ 2 ^ 31)
    (hlen : proof.length = proofSize n) (hhead : proof[0]? = some (V 0 0))
    (htail : ∀ h < bitsWord (n - 1), proof[h + 1]? = some (V h 1)) :
    ∃ v, verifierInit mem steps n proof = some v ∧ v.steps = steps ∧ Holds V n v 0 := by
  have hbits : bitsWord (n - 1) ≤ bitsWord n :=
    met0_le_iff.mpr ((Nat.sub_lt (by omega) Nat.one_pos).trans (lt_two_pow_met0 n))
  have hpos : 0 < bitsWord (n - 1) := met0_pos (by omega)
  rw [proofSize, pred_eq (by omega) (by omega)] at hlen
  obtain ⟨p, hp⟩ : ∃ p, ((List.range (bitsWord n)).map mem)[0]? = some p := by
    rw [List.getElem?_map, List.getElem?_range (by omega)]
    exact ⟨mem 0, rfl⟩
  obtain ⟨pairs, hloop, hplen, hpairs⟩ := initLoop_spec proof
    (((List.range (bitsWord n)).map mem).set 0 (V 0 0, p.2)) (k := bitsWord (n - 1))
    (by rw [List.length_set, List.length_map, List.length_range]; exact hbits) (by omega)
  rw [List.length_set, List.length_map, List.length_range] at hplen
  have hslot : ∀ h < bitsWord (n - 1), ∃ q, pairs[h]? = some q ∧ q.2 = V h 1 ∧ (h = 0 → q.1 = V 0 0) := by
    intro h hh
    rw [hpairs, if_pos hh, htail h hh]
    by_cases h0 : h = 0
    · subst h0
      rw [List.getElem?_set_self (by rw [List.length_map, List.length_range]; omega)]
      exact ⟨_, rfl, rfl, fun _ => rfl⟩
    · rw [List.getElem?_set_ne (Ne.symm h0), List.getElem?_map, List.getElem?_range (by omega)]
      exact ⟨_, rfl, rfl, fun h2 => absurd h2 h0⟩
  refine ⟨⟨steps, n, 0, pairs⟩, ?_, rfl, rfl, rfl, hplen, fun h j hfit hj => ?_⟩
  · unfold verifierInit
    rw [hhead]
    simp only [Option.bind_eq_bind, Option.bind_some, hp]
    rw [write_of_lt (by rw [List.length_map, List.length_range]; omega), Option.bind_some, proofSize,
      pred_eq (by omega) (by omega), Nat.add_sub_cancel_left, hloop, Option.bind_some]
  · have hj0 : j = 0 := by
      rw [← hj, Nat.zero_add]
      exact Nat.div_eq_of_lt ((Nat.sub_lt (Nat.two_pow_pos h) Nat.one_pos).trans
        (Nat.pow_lt_pow_right (by decide) (Nat.lt_succ_self h)))
    subst hj0
    have hh : h < bitsWord (n - 1) := by
      by_contra hge
      have := met0_le_iff.mp (Nat.le_of_not_lt hge)
      omega
    obtain ⟨q, hq, hright, hleft⟩ := hslot h hh
    refine ⟨q, hq, hright, fun hor => ?_⟩
    have h0 : h = 0 := hor.resolve_left (not_not.mpr rfl)
    rw [hleft h0, h0]

omit [DecidableEq H] in
/-- **`lss_verifier_init` takes the committed proof.** -/
theorem init_slots {proof : List H} (mem : ℕ → H × H) (steps : ℕ) (h1 : 1 < n) (hn : n ≤ 2 ^ 31)
    (hproof : proof = spine X.parentHash g n (bitsWord (n - 1))) :
    ∃ v, verifierInit mem steps n proof = some v ∧ v.steps = steps ∧ Slots X g n v 0 := by
  have hlen : proof.length = proofSize n := by
    rw [hproof, length_spine, proofSize, pred_eq (by omega) (by omega), Nat.add_comm]
  have hhead : proof[0]? = some (node X.parentHash g n 0 0) := by
    rw [hproof, node_zero]
    rfl
  have htail : ∀ h < bitsWord (n - 1), proof[h + 1]? = some (node X.parentHash g n h 1) := by
    intro h hh
    rw [hproof, spine, List.getElem?_cons_succ, List.getElem?_map, List.getElem?_range hh]
    rfl
  obtain ⟨v, hinit, hsteps, hs⟩ := init_holds mem steps h1 hn hlen hhead htail
  refine ⟨v, hinit, hsteps, hs.leaves, hs.counter, hs.length, hs.slot, ?_⟩
  obtain ⟨p, hp, hright, hleft⟩ := hs.slot 0 0 (by omega) rfl
  have hl := hleft (.inr rfl)
  rw [node_zero] at hright hl
  exact ⟨0, 1, by omega, h1, by rw [hp, ← hl, ← hright]⟩

end Lss
end Ursockets
