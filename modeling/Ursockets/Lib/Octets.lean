/-
# Numbers as byte strings

A number cut or padded to some bytes, the least significant first, and the number that some
bytes make. A byte string is got back from its number and its length; the zeros at its end count
for its length only.

Key definitions: `ofNum`, `num`, `size`.
Key theorems: `ofNum_num`, `ofNum_add`, `num_append`, `size_le_iff`, `pow_le_num_iff`.
-/
import Ursockets.Lib.Bits

namespace Octets

open Bits

/-- The first `n` bytes of a number. -/
def ofNum : ℕ → ℕ → List UInt8
  | 0, _ => []
  | n + 1, v => UInt8.ofNat v :: ofNum n (v / 256)

/-- The number that bytes make. -/
def num : List UInt8 → ℕ
  | [] => 0
  | b :: l => b.toNat + 256 * num l

/-- How many bytes a number has. -/
def size (v : ℕ) : ℕ := (met0 v + 7) / 8

/-- How many words of four bytes a number has. -/
def words (v : ℕ) : ℕ := (met0 v + 31) / 32

theorem length_ofNum (n v : ℕ) : (ofNum n v).length = n := by
  induction n generalizing v with
  | zero => rfl
  | succ n ih => rw [ofNum, List.length_cons, ih]

theorem ofNum_zero (n : ℕ) : ofNum n 0 = List.replicate n 0 := by
  induction n with
  | zero => rfl
  | succ n ih =>
    rw [ofNum, Nat.zero_div, ih]
    rfl

theorem ofNum_add (n m v : ℕ) : ofNum (n + m) v = ofNum n v ++ ofNum m (v / 256 ^ n) := by
  induction n generalizing v with
  | zero => rw [Nat.zero_add, ofNum, List.nil_append, Nat.pow_zero, Nat.div_one]
  | succ n ih =>
    rw [Nat.add_right_comm, ofNum, ofNum, ih, List.cons_append, Nat.div_div_eq_div_mul, ← Nat.pow_succ']

/-- Past a number's bytes there are zeros. -/
theorem ofNum_pad {k v : ℕ} (h : v < 256 ^ k) (m : ℕ) : ofNum (k + m) v = ofNum k v ++ List.replicate m 0 := by
  rw [ofNum_add, Nat.div_eq_of_lt h, ofNum_zero]

theorem take_ofNum {k n : ℕ} (h : k ≤ n) (v : ℕ) : (ofNum n v).take k = ofNum k v := by
  obtain ⟨m, rfl⟩ := Nat.exists_eq_add_of_le h
  rw [ofNum_add, List.take_left' (length_ofNum k v)]

/-- The bytes of a number, place by place. -/
theorem ofNum_eq_map (n v : ℕ) : ofNum n v = (List.range n).map fun i => UInt8.ofNat (v / 256 ^ i) := by
  induction n generalizing v with
  | zero => rfl
  | succ n ih =>
    rw [ofNum, ih, List.range_succ_eq_map, List.map_cons, List.map_map, Nat.pow_zero, Nat.div_one]
    refine congrArg _ (List.map_congr_left fun i _ => ?_)
    rw [Nat.div_div_eq_div_mul, ← Nat.pow_succ']
    rfl

theorem num_lt (l : List UInt8) : num l < 256 ^ l.length := by
  induction l with
  | nil => exact Nat.one_pos
  | cons b l ih =>
    have hb := b.toNat_lt
    rw [num, List.length_cons, Nat.pow_succ]
    omega

/-- **Bytes are got back from their number.** -/
theorem ofNum_num (l : List UInt8) : ofNum l.length (num l) = l := by
  induction l with
  | nil => rfl
  | cons b l ih =>
    have hb := b.toNat_lt
    have hdiv : (b.toNat + 256 * num l) / 256 = num l := by omega
    have hbyte : UInt8.ofNat (b.toNat + 256 * num l) = b := by
      refine UInt8.toNat_inj.mp ?_
      rw [UInt8.toNat_ofNat']
      omega
    rw [List.length_cons, ofNum, num, hdiv, ih, hbyte]

/-- A number is got back from its bytes. -/
theorem num_ofNum {n v : ℕ} (h : v < 256 ^ n) : num (ofNum n v) = v := by
  induction n generalizing v with
  | zero => exact (Nat.lt_one_iff.mp h).symm
  | succ n ih =>
    have hrest : v / 256 < 256 ^ n := Nat.div_lt_of_lt_mul (by rwa [← Nat.pow_succ'])
    rw [ofNum, num, ih hrest, UInt8.toNat_ofNat']
    exact Nat.mod_add_div v 256

/-- The number of a number's first bytes. -/
theorem num_ofNum_mod (n v : ℕ) : num (ofNum n v) = v % 256 ^ n := by
  induction n generalizing v with
  | zero => exact (Nat.mod_one v).symm
  | succ n ih =>
    rw [ofNum, num, ih, UInt8.toNat_ofNat', @Nat.pow_succ' 256]
    exact (Nat.mod_mul).symm

theorem num_append (l l' : List UInt8) : num (l ++ l') = num l + 256 ^ l.length * num l' := by
  induction l with
  | nil => rw [List.nil_append, num, List.length_nil, Nat.pow_zero, Nat.one_mul, Nat.zero_add]
  | cons b l ih =>
    rw [List.cons_append, num, ih, num, List.length_cons, Nat.pow_succ', Nat.mul_add, Nat.mul_assoc, Nat.add_assoc]

theorem num_eq_zero_iff {l : List UInt8} : num l = 0 ↔ ∀ b ∈ l, b = 0 := by
  induction l with
  | nil => exact ⟨fun _ b hb => absurd hb List.not_mem_nil, fun _ => rfl⟩
  | cons b l ih =>
    rw [num, List.forall_mem_cons, ← ih]
    constructor
    · intro h
      exact ⟨UInt8.toNat_inj.mp (show b.toNat = 0 by omega), by omega⟩
    · rintro ⟨rfl, h⟩
      rw [h]
      rfl

/-- The bytes of a number that bytes make, with zeros after them. -/
theorem ofNum_num_pad {l : List UInt8} {n : ℕ} (h : l.length ≤ n) :
    ofNum n (num l) = l ++ List.replicate (n - l.length) 0 := by
  obtain ⟨m, rfl⟩ := Nat.exists_eq_add_of_le h
  rw [ofNum_pad (num_lt l), ofNum_num, Nat.add_sub_cancel_left]

/-- A byte past the first `k` is not zero just when the number has as much. -/
theorem pow_le_num_iff {l : List UInt8} {k : ℕ} (h : k ≤ l.length) : 256 ^ k ≤ num l ↔ ∃ b ∈ l.drop k, b ≠ 0 := by
  have hlen : (l.take k).length = k := List.length_take_of_le h
  have hlt := num_lt (l.take k)
  have hsum := num_append (l.take k) (l.drop k)
  rw [List.take_append_drop, hlen] at hsum
  rw [hlen] at hlt
  constructor
  · intro hle
    by_contra hnone
    have hzero : num (l.drop k) = 0 := num_eq_zero_iff.mpr fun b hb => not_not.mp fun hne => hnone ⟨b, hb, hne⟩
    rw [hzero, Nat.mul_zero, Nat.add_zero] at hsum
    omega
  · rintro ⟨b, hb, hne⟩
    have hpos : 0 < num (l.drop k) := Nat.pos_of_ne_zero fun h0 => hne (num_eq_zero_iff.mp h0 b hb)
    rw [hsum]
    exact (Nat.le_mul_of_pos_right _ hpos).trans (Nat.le_add_left _ _)

theorem size_le_iff {v n : ℕ} : size v ≤ n ↔ v < 256 ^ n := by
  have hpow : 256 ^ n = 2 ^ (8 * n) := by rw [Nat.pow_mul]
  have hmet := met0_le_iff (a := v) (n := 8 * n)
  rw [hpow, ← hmet, size]
  omega

theorem words_le_iff {v n : ℕ} : words v ≤ n ↔ v < 256 ^ (4 * n) := by
  have hpow : 256 ^ (4 * n) = 2 ^ (32 * n) := by
    rw [show 32 * n = 8 * (4 * n) by omega, Nat.pow_mul 2 8 (4 * n)]
  have hmet := met0_le_iff (a := v) (n := 32 * n)
  rw [hpow, ← hmet, words]
  omega

theorem size_le_words (v : ℕ) : size v ≤ 4 * words v := by
  rw [size, words]
  omega

end Octets
