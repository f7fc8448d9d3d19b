/-
# Bits of a word buffer

A buffer of 32-bit words read as a string of bits, least significant first: what
bit `i` of it is, what an exclusive or into a word does, the words of a number,
and the bytes a buffer is in memory.

Key definitions: `wordBit`, `xorWord`, `wordsOf`, `valueOf`, `toBytes`.
Key theorems: `wordBit_xorWord`, `wordBit_wordsOf`, `testBit_valueOf`, `wordBit_take`, `bitAt_toBytes`.
-/
import Ursockets.Lib.Bits

namespace Words

open Bits

/-- Bit `i` of a buffer; past its end all bits are zero. -/
def wordBit (l : List UInt32) (i : ℕ) : Bool := (l.getD (i / 32) 0).toNat.testBit (i % 32)

/-- The buffer with the word at `i` exclusive-ored. -/
def xorWord (l : List UInt32) (i b : ℕ) : List UInt32 :=
  l.set i (UInt32.ofNat ((l.getD i 0).toNat ^^^ b))

/-- The words of a number, least significant first. -/
def wordsOf (a : ℕ) : List UInt32 :=
  (List.range ((met0 a + 31) / 32)).map fun i => UInt32.ofNat (a >>> (32 * i))

/-- The bytes of a buffer, least significant first. -/
def toBytes (l : List UInt32) : List UInt8 :=
  (List.range (4 * l.length)).map fun i => UInt8.ofNat ((l.getD (i / 4) 0).toNat >>> (8 * (i % 4)))

theorem testBit_ofNat32 (n k : ℕ) :
    (UInt32.ofNat n).toNat.testBit k = (decide (k < 32) && n.testBit k) := by
  rw [UInt32.toNat_ofNat', Nat.testBit_mod_two_pow]

theorem testBit_word {w : UInt32} {k : ℕ} (h : 32 ≤ k) : w.toNat.testBit k = false :=
  Nat.testBit_lt_two_pow (Nat.lt_of_lt_of_le w.toNat_lt (Nat.pow_le_pow_right (by decide) h))

theorem wordBit_of_le {l : List UInt32} {i : ℕ} (h : 32 * l.length ≤ i) : wordBit l i = false := by
  have h1 : l.length ≤ i / 32 := by omega
  rw [wordBit, List.getD_eq_default _ _ h1]
  simp

theorem testBit_getD32 (l : List UInt32) {j k : ℕ} (h : k < 32) :
    (l.getD j 0).toNat.testBit k = wordBit l (32 * j + k) := by
  have h1 : (32 * j + k) / 32 = j := by omega
  have h2 : (32 * j + k) % 32 = k := by omega
  rw [wordBit, h1, h2]

@[simp] theorem length_xorWord (l : List UInt32) (i b : ℕ) : (xorWord l i b).length = l.length :=
  List.length_set

theorem wordBit_xorWord {l : List UInt32} {i b : ℕ} (h : i < l.length) (k : ℕ) :
    wordBit (xorWord l i b) k =
      if k / 32 = i then (wordBit l k ^^ b.testBit (k % 32)) else wordBit l k := by
  rw [xorWord, wordBit, List.getD_eq_getElem?_getD, List.getElem?_set]
  by_cases hi : k / 32 = i
  · rw [if_pos hi, if_pos hi.symm, if_pos h, Option.getD_some, testBit_ofNat32, Nat.testBit_xor,
      wordBit, hi]
    simp [Nat.mod_lt k (by decide : 32 > 0)]
  · rw [if_neg hi, if_neg fun h => hi h.symm, ← List.getD_eq_getElem?_getD, wordBit]

theorem wordBit_append_replicate (l : List UInt32) (n i : ℕ) :
    wordBit (l ++ List.replicate n 0) i = wordBit l i := by
  rw [wordBit, wordBit]
  congr 2
  rcases Nat.lt_or_ge (i / 32) l.length with h | h
  · rw [List.getD_append _ _ _ _ h]
  · rw [List.getD_append_right _ _ _ _ h, List.getD_eq_default l _ h, List.getD_eq_getElem?_getD,
      List.getElem?_getD_replicate_default_eq]

theorem wordBit_replicate (n i : ℕ) : wordBit (List.replicate n 0) i = false := by
  rw [wordBit, List.getD_eq_getElem?_getD, List.getElem?_getD_replicate_default_eq]
  simp

/-! ### The words of a number -/

theorem wordBit_one {v i : ℕ} (hi : i < 32) : wordBit [UInt32.ofNat v] i = v.testBit i := by
  have h1 : i / 32 = 0 := by omega
  have h2 : i % 32 = i := by omega
  rw [wordBit, h1, h2, List.getD_cons_zero, testBit_ofNat32, decide_eq_true hi, Bool.true_and]

@[simp] theorem length_wordsOf (a : ℕ) : (wordsOf a).length = (met0 a + 31) / 32 := by
  rw [wordsOf, List.length_map, List.length_range]

theorem wordBit_wordsOf (a i : ℕ) : wordBit (wordsOf a) i = a.testBit i := by
  rcases Nat.lt_or_ge (i / 32) ((met0 a + 31) / 32) with h | h
  · have h1 : (wordsOf a).getD (i / 32) 0 = UInt32.ofNat (a >>> (32 * (i / 32))) := by
      rw [List.getD_eq_getElem _ _ (by rwa [length_wordsOf])]
      simp only [wordsOf, List.getElem_map, List.getElem_range]
    have h2 : 32 * (i / 32) + i % 32 = i := by omega
    rw [wordBit, h1, testBit_ofNat32, Nat.testBit_shiftRight, h2]
    simp [Nat.mod_lt i (by decide : 32 > 0)]
  · rw [wordBit_of_le (by rw [length_wordsOf]; omega), testBit_of_met0_le (by omega)]

/-! ### The number of a buffer -/

/-- The number that words make, the least significant first. -/
def valueOf : List UInt32 → ℕ
  | [] => 0
  | w :: l => w.toNat + 2 ^ 32 * valueOf l

theorem testBit_valueOf : ∀ (l : List UInt32) (i : ℕ), (valueOf l).testBit i = wordBit l i
  | [], i => by simp [valueOf, wordBit]
  | w :: l, i => by
    rw [valueOf, Nat.add_comm, Nat.testBit_two_pow_mul_add _ w.toNat_lt]
    split
    · rename_i h
      have h1 : i / 32 = 0 := by omega
      rw [wordBit, h1, List.getD_cons_zero, Nat.mod_eq_of_lt h]
    · rename_i h
      have h1 : i / 32 = (i - 32) / 32 + 1 := by omega
      have h2 : i % 32 = (i - 32) % 32 := by omega
      rw [testBit_valueOf l, wordBit, wordBit, h1, h2, List.getD_cons_succ]

/-- Two buffers with the same bits are the same number. -/
theorem valueOf_eq_iff {l : List UInt32} {v : ℕ} : valueOf l = v ↔ ∀ i, wordBit l i = v.testBit i := by
  constructor
  · rintro rfl i
    rw [testBit_valueOf]
  · intro h
    apply Nat.eq_of_testBit_eq
    intro i
    rw [testBit_valueOf, h]

theorem wordBit_take (l : List UInt32) (n i : ℕ) :
    wordBit (l.take n) i = (decide (i < 32 * n) && wordBit l i) := by
  rw [wordBit, wordBit, List.getD_eq_getElem?_getD, List.getElem?_take]
  split
  · rename_i h
    rw [decide_eq_true (by omega), Bool.true_and, List.getD_eq_getElem?_getD]
  · rename_i h
    rw [decide_eq_false (by omega), Bool.false_and]
    simp

/-- The words up to `n` are the number below that width. -/
theorem valueOf_take (l : List UInt32) (n : ℕ) : valueOf (l.take n) = valueOf l % 2 ^ (32 * n) := by
  rw [valueOf_eq_iff]
  intro i
  rw [wordBit_take, Nat.testBit_mod_two_pow, testBit_valueOf]

theorem valueOf_lt (l : List UInt32) : valueOf l < 2 ^ (32 * l.length) := by
  apply Nat.lt_pow_two_of_testBit
  intro i hi
  rw [testBit_valueOf, wordBit_of_le hi]

/-! ### The bytes of a buffer -/

@[simp] theorem length_toBytes (l : List UInt32) : (toBytes l).length = 4 * l.length := by
  rw [toBytes, List.length_map, List.length_range]

theorem bitAt_toBytes (l : List UInt32) (i : ℕ) : bitAt (toBytes l) i = wordBit l i := by
  rcases Nat.lt_or_ge (i / 8) (4 * l.length) with h | h
  · have h1 : (toBytes l).getD (i / 8) 0 =
        UInt8.ofNat ((l.getD (i / 8 / 4) 0).toNat >>> (8 * (i / 8 % 4))) := by
      rw [List.getD_eq_getElem _ _ (by rwa [length_toBytes])]
      simp only [toBytes, List.getElem_map, List.getElem_range]
    have h2 : i / 8 / 4 = i / 32 := by omega
    have h3 : 8 * (i / 8 % 4) + i % 8 = i % 32 := by omega
    rw [bitAt, h1, testBit_ofNat, Nat.testBit_shiftRight, h2, h3, wordBit]
    simp [Nat.mod_lt i (by decide : 8 > 0)]
  · rw [bitAt_of_le (by rw [length_toBytes]; omega), wordBit_of_le (by omega)]

end Words
