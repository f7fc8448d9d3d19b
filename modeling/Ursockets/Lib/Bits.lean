/-
# Bits of a byte buffer

A buffer of bytes read as a string of bits, least significant first: what bit
`i` of a buffer is, what a store of some bytes does to it, and the strings of
bits that stand at a place of it.

Key definitions: `bitAt`, `storeBytes`, `xorByte`, `loadBytes`, `bitsOf`, `ofNat`, `met0`, `StandsAt`.
Key theorems: `bitAt_storeBytes`, `bitAt_xorByte`, `standsAt_append`, `standsAt_bitsOf`.
-/
import Mathlib.Data.List.GetD
import Mathlib.Data.Nat.Bitwise
import Mathlib.Data.UInt

namespace Bits

/-- Bit `i` of a buffer; past its end all bits are zero. -/
def bitAt (l : List UInt8) (i : ℕ) : Bool := (l.getD (i / 8) 0).toNat.testBit (i % 8)

/-- The buffer with `n` bytes stored from place `i` on. -/
def storeBytes (l : List UInt8) (i : ℕ) : ℕ → (ℕ → ℕ) → List UInt8
  | 0, _ => l
  | n + 1, f => (storeBytes l i n f).set (i + n) (UInt8.ofNat (f n))

/-- The buffer with the byte at `i` exclusive-ored. -/
def xorByte (l : List UInt8) (i b : ℕ) : List UInt8 :=
  l.set i (UInt8.ofNat ((l.getD i 0).toNat ^^^ b))

/-- The number that `n` bytes of a buffer make, the least significant first. -/
def loadBytes (l : List UInt8) : ℕ → ℕ
  | 0 => 0
  | n + 1 => loadBytes l n ^^^ (l.getD n 0).toNat <<< (8 * n)

/-- The first `n` bits of a string without end. -/
def bitsOf (n : ℕ) (f : ℕ → Bool) : List Bool := (List.range n).map f

/-- The `n` low bits of a number. -/
def ofNat (n v : ℕ) : List Bool := bitsOf n v.testBit

/-- The length of a number in bits. -/
def met0 (a : ℕ) : ℕ := if a = 0 then 0 else a.log2 + 1

/-- The bits `bs` stand in the buffer at place `c`. -/
def StandsAt (l : List UInt8) (c : ℕ) (bs : List Bool) : Prop :=
  c + bs.length ≤ 8 * l.length ∧ ∀ i (h : i < bs.length), bitAt l (c + i) = bs[i]

/-! ### Stores -/

theorem testBit_ofNat (n k : ℕ) : (UInt8.ofNat n).toNat.testBit k = (decide (k < 8) && n.testBit k) := by
  rw [UInt8.toNat_ofNat', Nat.testBit_mod_two_pow]

theorem testBit_byte {b : UInt8} {k : ℕ} (h : 8 ≤ k) : b.toNat.testBit k = false :=
  Nat.testBit_lt_two_pow (Nat.lt_of_lt_of_le b.toNat_lt (Nat.pow_le_pow_right (by decide) h))

theorem bitAt_of_le {l : List UInt8} {i : ℕ} (h : 8 * l.length ≤ i) : bitAt l i = false := by
  have h1 : l.length ≤ i / 8 := by omega
  rw [bitAt, List.getD_eq_default _ _ h1]
  simp

theorem bitAt_set {l : List UInt8} {i j : ℕ} {b : UInt8} (h : j < l.length) :
    bitAt (l.set j b) i = if i / 8 = j then b.toNat.testBit (i % 8) else bitAt l i := by
  rw [bitAt, List.getD_eq_getElem?_getD, List.getElem?_set]
  split
  · rename_i hj; rw [if_pos hj.symm]; rfl
  · rename_i hj; rw [if_neg fun h => hj h.symm, ← List.getD_eq_getElem?_getD]; rfl

@[simp] theorem length_storeBytes (l : List UInt8) (i : ℕ) :
    ∀ n f, (storeBytes l i n f).length = l.length
  | 0, _ => rfl
  | n + 1, f => by rw [storeBytes, List.length_set, length_storeBytes l i n f]

@[simp] theorem length_xorByte (l : List UInt8) (i b : ℕ) : (xorByte l i b).length = l.length :=
  List.length_set

/-- What a store of `n` bytes does to each bit. -/
theorem bitAt_storeBytes {l : List UInt8} {i : ℕ} {f : ℕ → ℕ} (k : ℕ) :
    ∀ {n : ℕ}, i + n ≤ l.length →
      bitAt (storeBytes l i n f) k =
        if i ≤ k / 8 ∧ k / 8 < i + n then (f (k / 8 - i)).testBit (k % 8) else bitAt l k
  | 0, _ => by rw [storeBytes, if_neg (by omega)]
  | n + 1, h => by
    have hlt : i + n < (storeBytes l i n f).length := by rw [length_storeBytes]; omega
    rw [storeBytes, bitAt_set hlt, bitAt_storeBytes k (by omega)]
    by_cases h1 : k / 8 = i + n
    · rw [if_pos h1, if_pos (by omega), testBit_ofNat]
      have h2 : k / 8 - i = n := by omega
      rw [h2]
      simp [Nat.mod_lt k (by decide : 8 > 0)]
    · rw [if_neg h1]
      by_cases h2 : i ≤ k / 8 ∧ k / 8 < i + n
      · rw [if_pos h2, if_pos (by omega)]
      · rw [if_neg h2, if_neg (by omega)]

theorem bitAt_xorByte {l : List UInt8} {i b : ℕ} (h : i < l.length) (k : ℕ) :
    bitAt (xorByte l i b) k =
      if k / 8 = i then (bitAt l k ^^ b.testBit (k % 8)) else bitAt l k := by
  rw [xorByte, bitAt_set h]
  split
  · rename_i hi
    rw [testBit_ofNat, Nat.testBit_xor, bitAt, hi]
    simp [Nat.mod_lt k (by decide : 8 > 0)]
  · rfl

theorem bitAt_append_replicate (l : List UInt8) (n i : ℕ) :
    bitAt (l ++ List.replicate n 0) i = bitAt l i := by
  rw [bitAt, bitAt]
  congr 2
  rcases Nat.lt_or_ge (i / 8) l.length with h | h
  · rw [List.getD_append _ _ _ _ h]
  · rw [List.getD_append_right _ _ _ _ h, List.getD_eq_default l _ h, List.getD_eq_getElem?_getD,
      List.getElem?_getD_replicate_default_eq]

theorem bitAt_replicate (n i : ℕ) : bitAt (List.replicate n 0) i = false := by
  rw [bitAt, List.getD_eq_getElem?_getD, List.getElem?_getD_replicate_default_eq]
  simp

theorem bitAt_take {l : List UInt8} {n i : ℕ} (h : i < 8 * n) : bitAt (l.take n) i = bitAt l i := by
  rw [bitAt, bitAt, List.getD_eq_getElem?_getD, List.getElem?_take_of_lt (by omega),
    List.getD_eq_getElem?_getD]

theorem bitAt_drop (l : List UInt8) (n i : ℕ) : bitAt (l.drop n) i = bitAt l (8 * n + i) := by
  have h1 : (8 * n + i) / 8 = n + i / 8 := by omega
  have h2 : (8 * n + i) % 8 = i % 8 := by omega
  rw [bitAt, bitAt, List.getD_eq_getElem?_getD, List.getElem?_drop, List.getD_eq_getElem?_getD, h1, h2]

theorem testBit_getD (l : List UInt8) {j k : ℕ} (h : k < 8) :
    (l.getD j 0).toNat.testBit k = bitAt l (8 * j + k) := by
  rw [bitAt]
  congr 2
  · congr 1; omega
  · omega

/-- Two buffers of one length are equal if all their bits are. -/
theorem ext_bitAt {l l' : List UInt8} (hl : l.length = l'.length)
    (h : ∀ i < 8 * l.length, bitAt l i = bitAt l' i) : l = l' := by
  refine List.ext_getElem hl fun j h1 h2 => UInt8.toNat_inj.mp (Nat.eq_of_testBit_eq fun k => ?_)
  rcases Nat.lt_or_ge k 8 with hk | hk
  · have := h (8 * j + k) (by omega)
    rwa [← testBit_getD l hk, ← testBit_getD l' hk, List.getD_eq_getElem _ _ h1,
      List.getD_eq_getElem _ _ h2] at this
  · rw [testBit_byte hk, testBit_byte hk]

/-! ### Loads -/

theorem testBit_loadBytes (l : List UInt8) (k : ℕ) :
    ∀ n, (loadBytes l n).testBit k = (decide (k < 8 * n) && bitAt l k)
  | 0 => by simp [loadBytes]
  | n + 1 => by
    rw [loadBytes, Nat.testBit_xor, testBit_loadBytes l k n, Nat.testBit_shiftLeft]
    rcases Nat.lt_or_ge k (8 * n) with h | h
    · rw [decide_eq_true h, decide_eq_false (Nat.not_le.mpr h), decide_eq_true (by omega)]
      simp
    rw [decide_eq_false (Nat.not_lt.mpr h), decide_eq_true h, Bool.false_and, Bool.false_xor,
      Bool.true_and]
    rcases Nat.lt_or_ge k (8 * (n + 1)) with h1 | h1
    · rw [decide_eq_true h1, testBit_getD l (by omega), Nat.add_sub_cancel' h, Bool.true_and]
    · rw [decide_eq_false (Nat.not_lt.mpr h1), testBit_byte (by omega), Bool.false_and]

/-! ### Lengths -/

theorem met0_le_iff {a n : ℕ} : met0 a ≤ n ↔ a < 2 ^ n := by
  rw [met0]
  split
  · rename_i h; exact iff_of_true (Nat.zero_le n) (h ▸ Nat.two_pow_pos n)
  · rename_i h; rw [Nat.succ_le_iff, Nat.log2_lt h]

theorem lt_two_pow_met0 (a : ℕ) : a < 2 ^ met0 a := met0_le_iff.mp (Nat.le_refl _)

theorem met0_pos {a : ℕ} (h : a ≠ 0) : 0 < met0 a := by rw [met0, if_neg h]; exact Nat.succ_pos _

theorem two_pow_le {a : ℕ} (h : a ≠ 0) : 2 ^ (met0 a - 1) ≤ a := by
  have h1 : ¬ met0 a ≤ met0 a - 1 := by have := met0_pos h; omega
  rw [met0_le_iff] at h1
  omega

theorem testBit_of_met0_le {a i : ℕ} (h : met0 a ≤ i) : a.testBit i = false :=
  Nat.testBit_lt_two_pow (met0_le_iff.mp h)

/-! ### Strings of bits -/

@[simp] theorem length_bitsOf (n : ℕ) (f : ℕ → Bool) : (bitsOf n f).length = n := by simp [bitsOf]

@[simp] theorem length_ofNat (n v : ℕ) : (ofNat n v).length = n := length_bitsOf _ _

theorem getD_bitsOf (n : ℕ) (f : ℕ → Bool) (i : ℕ) :
    (bitsOf n f).getD i false = (decide (i < n) && f i) := by
  by_cases h : i < n
  · rw [List.getD_eq_getElem _ _ (by rwa [length_bitsOf])]
    simp [bitsOf, h]
  · rw [List.getD_eq_default _ _ (by rw [length_bitsOf]; omega)]
    simp [h]

theorem bitsOf_append (n m : ℕ) (f : ℕ → Bool) :
    bitsOf (n + m) f = bitsOf n f ++ bitsOf m fun i => f (n + i) := by
  rw [bitsOf, List.range_add, List.map_append, List.map_map]
  rfl

theorem bitsOf_congr {n : ℕ} {f g : ℕ → Bool} (h : ∀ i < n, f i = g i) : bitsOf n f = bitsOf n g :=
  List.map_congr_left fun i hi => h i (List.mem_range.mp hi)

theorem ofNat_append (n m v : ℕ) : ofNat (n + m) v = ofNat n v ++ ofNat m (v >>> n) := by
  rw [ofNat, bitsOf_append]
  congr 1
  exact bitsOf_congr fun i _ => (Nat.testBit_shiftRight v).symm

theorem standsAt_nil {l : List UInt8} {c : ℕ} (h : c ≤ 8 * l.length) : StandsAt l c [] :=
  ⟨h, fun _ h => absurd h (Nat.not_lt_zero _)⟩

theorem standsAt_append {l : List UInt8} {c : ℕ} {bs bs' : List Bool} :
    StandsAt l c (bs ++ bs') ↔ StandsAt l c bs ∧ StandsAt l (c + bs.length) bs' := by
  constructor
  · rintro ⟨hl, h⟩
    rw [List.length_append] at hl
    refine ⟨⟨by omega, fun i hi => ?_⟩, by omega, fun i hi => ?_⟩
    · rw [h i (by rw [List.length_append]; omega), List.getElem_append_left hi]
    · rw [Nat.add_assoc, h (bs.length + i) (by rw [List.length_append]; omega),
        List.getElem_append_right (by omega)]
      congr 1; omega
  · rintro ⟨⟨-, h1⟩, hl, h2⟩
    refine ⟨by rw [List.length_append]; omega, fun i hi => ?_⟩
    rw [List.getElem_append]
    split
    · rename_i h; exact h1 i h
    · rename_i h
      rw [← h2 (i - bs.length), Nat.add_assoc, Nat.add_sub_cancel' (by omega)]

theorem standsAt_bitsOf {l : List UInt8} {c n : ℕ} {f : ℕ → Bool} :
    StandsAt l c (bitsOf n f) ↔ c + n ≤ 8 * l.length ∧ ∀ i < n, bitAt l (c + i) = f i := by
  refine and_congr (by rw [length_bitsOf]) ⟨fun h i hi => ?_, fun h i hi => ?_⟩
  · rw [h i (by rwa [length_bitsOf])]; simp [bitsOf]
  · rw [h i (by rwa [length_bitsOf] at hi)]; simp [bitsOf]

end Bits
