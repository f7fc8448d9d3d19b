/-
# Sparse arrays

An array of up to 32 slots kept as a bitmap of the slots that are filled and
the list of their contents in order: the content of slot `b` is found at the
number of filled slots below it.

Key definitions: `cutEnd`, `popcount`, `rank`, `sget`.
Key theorems: `popcount_cutEnd`, `sget_set`, `sget_insert`, `sget_erase`, `mem_iff_sget`.
-/
import Mathlib.Data.List.Basic
import Mathlib.Data.Nat.Bitwise
import Mathlib.Tactic.Set

namespace Sparse

variable {α : Type}

/-! ### Bitmaps -/

/-- The `b` low bits of `a`. -/
def cutEnd (a b : ℕ) : ℕ := a &&& ((1 <<< b) - 1)

/-- Bit `b` of `a` is set. -/
def bitSet (a b : ℕ) : Bool := (a &&& (1 <<< b)) != 0

/-- The number of set bits below `b`. -/
def rank (a b : ℕ) : ℕ := (List.range b).countP a.testBit

/-- The number of set bits of a word. -/
def popcount (a : ℕ) : ℕ := rank a 32

/-- `a` with bit `b` set. -/
def setBit (a b : ℕ) : ℕ := a ||| (1 <<< b)

/-- The word `a` with bit `b` cleared. -/
def clearBit (a b : ℕ) : ℕ := a &&& ((2 ^ 32 - 1) ^^^ (1 <<< b))

theorem cutEnd_eq (a b : ℕ) : cutEnd a b = a % 2 ^ b := by
  rw [cutEnd, Nat.shiftLeft_eq, Nat.one_mul, Nat.and_two_pow_sub_one_eq_mod]

theorem bitSet_eq (a b : ℕ) : bitSet a b = a.testBit b := by
  have h1 : a &&& 1 <<< b = (a.testBit b).toNat * 2 ^ b := by
    rw [Nat.shiftLeft_eq, Nat.one_mul, Nat.and_two_pow]
  rw [bitSet, h1]
  cases a.testBit b <;> simp

theorem testBit_setBit (a b i : ℕ) : (setBit a b).testBit i = (a.testBit i || decide (b = i)) := by
  rw [setBit, Nat.testBit_or, Nat.shiftLeft_eq, Nat.one_mul, Nat.testBit_two_pow]

theorem testBit_clearBit {a b i : ℕ} (hi : i < 32) :
    (clearBit a b).testBit i = (a.testBit i && !decide (b = i)) := by
  rw [clearBit, Nat.testBit_and, Nat.testBit_xor, Nat.testBit_two_pow_sub_one, Nat.shiftLeft_eq,
    Nat.one_mul, Nat.testBit_two_pow]
  simp [hi]

theorem setBit_lt {a b : ℕ} (ha : a < 2 ^ 32) (hb : b < 32) : setBit a b < 2 ^ 32 := by
  have h1 : 1 <<< b < 2 ^ 32 := by
    rw [Nat.shiftLeft_eq, Nat.one_mul]
    exact Nat.pow_lt_pow_right (by omega) hb
  exact Nat.or_lt_two_pow ha h1

theorem clearBit_lt {a b : ℕ} (ha : a < 2 ^ 32) : clearBit a b < 2 ^ 32 :=
  Nat.lt_of_le_of_lt Nat.and_le_left ha

@[simp] theorem rank_zero (a : ℕ) : rank a 0 = 0 := rfl

theorem rank_succ (a b : ℕ) : rank a (b + 1) = rank a b + if a.testBit b then 1 else 0 := by
  rw [rank, rank, List.range_succ, List.countP_append, List.countP_singleton]

theorem rank_mono {a b c : ℕ} (h : b ≤ c) : rank a b ≤ rank a c := by
  induction c, h using Nat.le_induction with
  | base => exact Nat.le_refl _
  | succ c _ ih => rw [rank_succ]; omega

/-- A set bit counts for every bit above it. -/
theorem rank_lt {a b c : ℕ} (hb : a.testBit b) (h : b < c) : rank a b < rank a c := by
  have h1 : rank a (b + 1) = rank a b + 1 := by rw [rank_succ, if_pos hb]
  have h2 : rank a (b + 1) ≤ rank a c := rank_mono h
  omega

theorem rank_inj {a b c : ℕ} (hb : a.testBit b) (hc : a.testBit c) (h : rank a b = rank a c) :
    b = c := by
  rcases Nat.lt_trichotomy b c with h1 | h1 | h1
  · have := rank_lt hb h1; omega
  · exact h1
  · have := rank_lt hc h1; omega

theorem rank_congr {a a' : ℕ} : ∀ b, (∀ i < b, a.testBit i = a'.testBit i) → rank a b = rank a' b
  | 0, _ => rfl
  | b + 1, h => by
    rw [rank_succ, rank_succ, rank_congr b fun i hi => h i (by omega), h b (by omega)]

theorem rank_zero_left (b : ℕ) : rank 0 b = 0 := by
  rw [rank, List.countP_eq_zero]
  simp

theorem popcount_cutEnd (a : ℕ) {b : ℕ} (hb : b ≤ 32) : popcount (cutEnd a b) = rank a b := by
  have h : ∀ c, rank (cutEnd a b) (b + c) = rank a b := by
    intro c
    induction c with
    | zero =>
      refine rank_congr b fun i hi => ?_
      rw [cutEnd_eq, Nat.testBit_mod_two_pow]
      simp [hi]
    | succ c ih =>
      rw [← Nat.add_assoc, rank_succ, ih, cutEnd_eq, Nat.testBit_mod_two_pow]
      simp
  have := h (32 - b)
  rwa [Nat.add_sub_cancel' hb] at this

theorem rank_setBit {a b : ℕ} (hb : a.testBit b = false) (c : ℕ) :
    rank (setBit a b) c = rank a c + if b < c then 1 else 0 := by
  induction c with
  | zero => simp
  | succ c ih =>
    rw [rank_succ, rank_succ, ih, testBit_setBit]
    by_cases h : b = c
    · subst h
      rw [hb]
      simp
    · have h1 : b < c + 1 ↔ b < c := by omega
      simp only [h, decide_false, Bool.or_false, h1]
      omega

theorem rank_clearBit {a b : ℕ} (hb : a.testBit b) {c : ℕ} (hc : c ≤ 32) :
    rank a c = rank (clearBit a b) c + if b < c then 1 else 0 := by
  induction c with
  | zero => simp
  | succ c ih =>
    rw [rank_succ, rank_succ, ih (by omega), testBit_clearBit (by omega)]
    by_cases h : b = c
    · subst h
      rw [hb]
      simp
    · have h1 : b < c + 1 ↔ b < c := by omega
      simp only [h, decide_false, Bool.not_false, Bool.and_true, h1]
      omega

/-! ### The slots -/

/-- The content of slot `b`. -/
def sget (m : ℕ) (xs : List α) (b : ℕ) : Option α :=
  if m.testBit b then xs[rank m b]? else none

theorem sget_none {m : ℕ} {xs : List α} {b : ℕ} (h : m.testBit b = false) : sget m xs b = none := by
  rw [sget, h]; rfl

/-- A filled slot has a content. -/
theorem sget_some {m : ℕ} {xs : List α} {b : ℕ} (hx : xs.length = popcount m) (hb : b < 32)
    (h : m.testBit b) : ∃ x, sget m xs b = some x ∧ xs[rank m b]? = some x := by
  have h1 : rank m b < xs.length := by rw [hx]; exact rank_lt h hb
  exact ⟨xs[rank m b], by rw [sget, if_pos h, List.getElem?_eq_getElem h1],
    List.getElem?_eq_getElem h1⟩

theorem sget_set {m : ℕ} {xs : List α} {b : ℕ} (x : α) (hx : xs.length = popcount m) (hb : b < 32)
    (h : m.testBit b) (c : ℕ) :
    sget m (xs.set (rank m b) x) c = if c = b then some x else sget m xs c := by
  have h1 : rank m b < xs.length := by rw [hx]; exact rank_lt h hb
  by_cases hc : c = b
  · subst hc
    rw [if_pos rfl, sget, if_pos h, List.getElem?_set_self h1]
  · rw [if_neg hc, sget, sget]
    split
    · rename_i hm
      rw [List.getElem?_set_ne fun he => hc (rank_inj hm h he.symm)]
    · rfl

theorem length_insert {m : ℕ} {xs : List α} {b : ℕ} (x : α) (hx : xs.length = popcount m)
    (hb : b < 32) (h : m.testBit b = false) :
    (xs.insertIdx (rank m b) x).length = popcount (setBit m b) := by
  have h1 : rank m b ≤ xs.length := by rw [hx]; exact rank_mono (by omega)
  rw [List.length_insertIdx_of_le_length h1, hx, popcount, popcount, rank_setBit h, if_pos hb]

theorem sget_insert {m : ℕ} {xs : List α} {b : ℕ} (x : α) (hx : xs.length = popcount m) (hb : b < 32)
    (h : m.testBit b = false) (c : ℕ) :
    sget (setBit m b) (xs.insertIdx (rank m b) x) c = if c = b then some x else sget m xs c := by
  have h1 : rank m b ≤ xs.length := by rw [hx]; exact rank_mono (by omega)
  rw [sget, testBit_setBit, rank_setBit h]
  by_cases hc : c = b
  · subst hc
    have h2 : ¬ c < c := Nat.lt_irrefl c
    rw [if_pos rfl, if_neg h2, if_pos (by simp), Nat.add_zero, List.getElem?_insertIdx_self, if_pos h1]
  · rw [if_neg hc, sget]
    have hbc : decide (b = c) = false := by simp [Ne.symm hc]
    rw [hbc, Bool.or_false]
    split
    · rename_i hm
      rcases Nat.lt_or_ge b c with h2 | h2
      · have h3 : rank m b ≤ rank m c := rank_mono h2.le
        rw [if_pos h2, List.getElem?_insertIdx_of_gt (by omega)]
        rfl
      · have h3 : rank m c < rank m b := rank_lt hm (by omega)
        rw [if_neg (by omega), Nat.add_zero, List.getElem?_insertIdx_of_lt h3]
    · rfl

theorem length_erase {m : ℕ} {xs : List α} {b : ℕ} (hx : xs.length = popcount m) (hb : b < 32)
    (h : m.testBit b) : (xs.eraseIdx (rank m b)).length = popcount (clearBit m b) := by
  have h1 : rank m b < xs.length := by rw [hx]; exact rank_lt h hb
  have h2 := rank_clearBit h (Nat.le_refl 32)
  rw [if_pos hb] at h2
  rw [List.length_eraseIdx_of_lt h1, hx, popcount, popcount, h2]
  omega

theorem sget_erase {m : ℕ} {xs : List α} {b : ℕ} (h : m.testBit b) {c : ℕ} (hc : c < 32) :
    sget (clearBit m b) (xs.eraseIdx (rank m b)) c = if c = b then none else sget m xs c := by
  rw [sget, testBit_clearBit hc]
  by_cases he : c = b
  · subst he
    simp
  · rw [if_neg he, sget]
    have hbc : decide (b = c) = false := by simp [Ne.symm he]
    rw [hbc, Bool.not_false, Bool.and_true]
    split
    · rename_i hm
      have h2 := rank_clearBit h (Nat.le_of_lt hc)
      rcases Nat.lt_or_ge b c with h3 | h3
      · have h4 : rank m b < rank m c := rank_lt h h3
        rw [if_pos h3] at h2
        rw [List.getElem?_eraseIdx_of_ge (by omega), h2]
      · have h4 : rank m c < rank m b := rank_lt hm (by omega)
        rw [if_neg (by omega)] at h2
        rw [List.getElem?_eraseIdx_of_lt (by omega), h2, Nat.add_zero]
    · rfl

theorem exists_rank {m : ℕ} : ∀ {n i : ℕ}, i < rank m n → ∃ b < n, m.testBit b ∧ rank m b = i
  | 0, _, h => by simp at h
  | n + 1, i, h => by
    rw [rank_succ] at h
    by_cases h1 : i < rank m n
    · obtain ⟨b, hb, h2⟩ := exists_rank h1
      exact ⟨b, by omega, h2⟩
    · by_cases h2 : m.testBit n
      · rw [if_pos h2] at h
        exact ⟨n, by omega, h2, by omega⟩
      · rw [if_neg h2] at h
        omega

/-- The contents are those of the slots. -/
theorem mem_iff_sget {m : ℕ} {xs : List α} (hx : xs.length = popcount m) {x : α} :
    x ∈ xs ↔ ∃ b < 32, sget m xs b = some x := by
  constructor
  · intro h
    obtain ⟨i, hi, rfl⟩ := List.mem_iff_getElem.mp h
    have hr : i < rank m 32 := by rwa [hx] at hi
    obtain ⟨b, hb, h1, h2⟩ := exists_rank hr
    exact ⟨b, hb, by rw [sget, if_pos h1, h2, List.getElem?_eq_getElem hi]⟩
  · rintro ⟨b, _, h⟩
    rw [sget] at h
    split at h
    · exact List.mem_of_getElem? h
    · cases h

/-- An array of one filled slot. -/
theorem sget_single (x : α) (b c : ℕ) : sget (1 <<< b) [x] c = if c = b then some x else none := by
  have h1 : 1 <<< b = setBit 0 b := by simp [setBit]
  have h2 := rank_setBit (Nat.zero_testBit b) c
  rw [sget, h1, testBit_setBit, h2, rank_zero_left, Nat.zero_testBit, Bool.false_or]
  by_cases h : c = b
  · subst h; simp
  · simp [h, Ne.symm h]

theorem popcount_single {b : ℕ} (hb : b < 32) : popcount (1 <<< b) = 1 := by
  have h1 : 1 <<< b = setBit 0 b := by simp [setBit]
  rw [h1, popcount, rank_setBit (Nat.zero_testBit b), rank_zero_left, if_pos hb]

end Sparse
