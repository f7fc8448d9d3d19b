/-
# Fields of a byte buffer

The numbers that stand in a buffer of bytes: a field is some bits from a place on, read as a
number, least significant first. A field of whole bytes is what its bytes make, and the bytes of
a number hold the number's own bits.

Key definitions: `field`, `numBytes`, `HasAt`.
Key theorems: `loadBytes_slice`, `field_append`, `field_numBytes`, `HasAt.num`.
-/
import Ursockets.Lib.Bits

namespace Bits

/-- The number that `w` bits make from bit `k` on; past the end of the buffer all bits are zero. -/
def field (l : List UInt8) (k w : ℕ) : ℕ := (loadBytes l l.length >>> k) % 2 ^ w

/-- The `n` low bytes of a number, the least significant first. -/
def numBytes (n v : ℕ) : List UInt8 := (List.range n).map fun i => UInt8.ofNat (v >>> (8 * i))

variable {l : List UInt8} {k w n : ℕ}

/-! ### Bits of fields -/

theorem testBit_field (l : List UInt8) (k w i : ℕ) :
    (field l k w).testBit i = (decide (i < w) && bitAt l (k + i)) := by
  rw [field, Nat.testBit_mod_two_pow, Nat.testBit_shiftRight, testBit_loadBytes]
  rcases Nat.lt_or_ge (k + i) (8 * l.length) with h | h
  · simp [h]
  · simp [bitAt_of_le h]

theorem field_lt (l : List UInt8) (k w : ℕ) : field l k w < 2 ^ w :=
  Nat.mod_lt _ (Nat.two_pow_pos w)

/-- A number with the bits of the field is the field. -/
theorem eq_field {x : ℕ} (h : ∀ i, x.testBit i = (decide (i < w) && bitAt l (k + i))) :
    x = field l k w :=
  Nat.eq_of_testBit_eq fun i => (h i).trans (testBit_field l k w i).symm

@[simp] theorem field_zero (l : List UInt8) (k : ℕ) : field l k 0 = 0 := by
  rw [field, pow_zero, Nat.mod_one]

/-- A field without its low bits is a field further on. -/
theorem field_shiftRight (l : List UInt8) (k w v : ℕ) : field l k w >>> v = field l (k + v) (w - v) := by
  refine eq_field fun i => ?_
  rw [Nat.testBit_shiftRight, testBit_field, Nat.add_assoc]
  congr 1
  exact decide_eq_decide.mpr ⟨fun h => by omega, fun h => by omega⟩

/-- The low bits of a field. -/
theorem field_mod {v : ℕ} (l : List UInt8) (k : ℕ) (h : v ≤ w) : field l k w % 2 ^ v = field l k v := by
  refine eq_field fun i => ?_
  rw [Nat.testBit_mod_two_pow, testBit_field, ← Bool.and_assoc]
  congr 1
  rcases Nat.lt_or_ge i v with hi | hi
  · simp [hi, Nat.lt_of_lt_of_le hi h]
  · simp [Nat.not_lt.mpr hi]

/-- A byte set behind a field makes it eight bits longer. -/
theorem field_byte (l : List UInt8) {p : ℕ} (h : 8 * p = k + w) :
    field l k w ||| (l.getD p 0).toNat <<< w = field l k (w + 8) := by
  refine eq_field fun i => ?_
  rw [Nat.testBit_or, testBit_field, Nat.testBit_shiftLeft]
  rcases Nat.lt_or_ge i w with hi | hi
  · simp [hi, Nat.not_le.mpr hi, show i < w + 8 by omega]
  · rw [decide_eq_false (Nat.not_lt.mpr hi), decide_eq_true hi, Bool.false_and, Bool.false_or,
      Bool.true_and]
    rcases Nat.lt_or_ge i (w + 8) with h8 | h8
    · rw [testBit_getD l (by omega), decide_eq_true h8, Bool.true_and]
      congr 1
      omega
    · rw [testBit_byte (by omega), decide_eq_false (Nat.not_lt.mpr h8), Bool.false_and]

/-- A field of eight bits is a byte. -/
theorem field_eight (l : List UInt8) (p : ℕ) : field l (8 * p) 8 = (l.getD p 0).toNat := by
  have h := field_byte l (k := 8 * p) (w := 0) (p := p) rfl
  rwa [field_zero, Nat.zero_or, Nat.shiftLeft_zero, Nat.zero_add, eq_comm] at h

/-- A number that has room for the field keeps it. -/
theorem field_mod_of_le {v : ℕ} (l : List UInt8) (k : ℕ) (h : w ≤ v) : field l k w % 2 ^ v = field l k w :=
  Nat.mod_eq_of_lt (Nat.lt_of_lt_of_le (field_lt l k w) (Nat.pow_le_pow_right (Nat.zero_lt_succ 1) h))

/-! ### Whole bytes -/

/-- What some bytes of the buffer make is a field of it. -/
theorem loadBytes_slice (l : List UInt8) (o n : ℕ) :
    loadBytes ((l.drop o).take n) n = field l (8 * o) (8 * n) := by
  refine eq_field fun i => ?_
  rw [testBit_loadBytes]
  rcases Nat.lt_or_ge i (8 * n) with h | h
  · rw [bitAt_take h, bitAt_drop]
  · simp [Nat.not_lt.mpr h]

theorem loadBytes_lt (l : List UInt8) (n : ℕ) : loadBytes l n < 2 ^ (8 * n) :=
  Nat.lt_pow_two_of_testBit _ fun i hi => by
    rw [testBit_loadBytes, decide_eq_false (Nat.not_lt.mpr hi), Bool.false_and]

/-- A field and the one behind it. -/
theorem field_add (l : List UInt8) (k v w : ℕ) : field l k (v + w) = field l k v + field l (k + v) w * 2 ^ v := by
  rw [← Nat.shiftLeft_eq, Nat.add_comm (field l k v), Nat.shiftLeft_add_eq_or_of_lt (field_lt l k v)]
  symm
  refine eq_field fun i => ?_
  rw [Nat.testBit_or, Nat.testBit_shiftLeft, testBit_field, testBit_field]
  rcases Nat.lt_or_ge i v with h | h
  · simp [h, Nat.not_le.mpr h, show i < v + w by omega]
  · have hi : k + v + (i - v) = k + i := by omega
    have hlt : decide (i - v < w) = decide (i < v + w) := decide_eq_decide.mpr ⟨fun h => by omega, fun h => by omega⟩
    rw [decide_eq_true h, decide_eq_false (Nat.not_lt.mpr h), Bool.true_and, Bool.false_and, Bool.or_false, hi, hlt]

theorem field_add_zero (l : List UInt8) (v w : ℕ) : field l 0 (v + w) = field l 0 v + field l v w * 2 ^ v := by
  have h := field_add l 0 v w
  rwa [Nat.zero_add] at h

/-! ### Buffers put together -/

theorem bitAt_append_left {a b : List UInt8} {i : ℕ} (h : i < 8 * a.length) :
    bitAt (a ++ b) i = bitAt a i := by
  rw [bitAt, bitAt, List.getD_append _ _ _ _ (by omega)]

theorem bitAt_append_right (a b : List UInt8) (i : ℕ) :
    bitAt (a ++ b) (8 * a.length + i) = bitAt b i := by
  have hdiv : (8 * a.length + i) / 8 - a.length = i / 8 := by omega
  have hmod : (8 * a.length + i) % 8 = i % 8 := by omega
  rw [bitAt, bitAt, List.getD_append_right _ _ _ _ (by omega), hdiv, hmod]

/-- **A field of a part is a field of the whole.** -/
theorem field_append (a b c : List UInt8) (h : k + w ≤ 8 * b.length) :
    field (a ++ (b ++ c)) (8 * a.length + k) w = field b k w := by
  symm
  refine eq_field fun i => ?_
  rw [testBit_field]
  rcases Nat.lt_or_ge i w with hi | hi
  · rw [Nat.add_assoc, bitAt_append_right, bitAt_append_left (by omega)]
  · simp [Nat.not_lt.mpr hi]

/-! ### Numbers -/

@[simp] theorem length_numBytes (n v : ℕ) : (numBytes n v).length = n := by simp [numBytes]

@[simp] theorem numBytes_zero (v : ℕ) : numBytes 0 v = [] := rfl

/-- One more byte. -/
theorem numBytes_succ (n v : ℕ) : numBytes (n + 1) v = numBytes n v ++ [UInt8.ofNat (v >>> (8 * n))] := by
  rw [numBytes, List.range_succ, List.map_append, List.map_singleton, numBytes]

theorem bitAt_numBytes (n v i : ℕ) : bitAt (numBytes n v) i = (decide (i < 8 * n) && v.testBit i) := by
  rcases Nat.lt_or_ge i (8 * n) with h | h
  · have hlt : i / 8 < (List.range n).length := by rw [List.length_range]; omega
    rw [bitAt, numBytes, List.getD_eq_getElem _ _ (by simpa using hlt), List.getElem_map,
      List.getElem_range, testBit_ofNat, Nat.testBit_shiftRight, decide_eq_true (by omega : i % 8 < 8),
      decide_eq_true h, Nat.div_add_mod]
  · rw [bitAt_of_le (by rwa [length_numBytes]), decide_eq_false (Nat.not_lt.mpr h), Bool.false_and]

/-- **A field of a number's bytes is a field of the number.** -/
theorem field_numBytes (v : ℕ) (h : k + w ≤ 8 * n) : field (numBytes n v) k w = v / 2 ^ k % 2 ^ w := by
  symm
  refine eq_field fun i => ?_
  rw [Nat.testBit_mod_two_pow, ← Nat.shiftRight_eq_div_pow, Nat.testBit_shiftRight, bitAt_numBytes]
  rcases Nat.lt_or_ge i w with hi | hi
  · simp [hi, show k + i < 8 * n by omega]
  · simp [Nat.not_lt.mpr hi]

/-! ### Bytes that stand at a place -/

/-- The bytes `bs` stand in the buffer at byte `o`. -/
def HasAt (l : List UInt8) (o : ℕ) (bs : List UInt8) : Prop := ∃ a c, l = a ++ (bs ++ c) ∧ a.length = o

section HasAt

variable {o : ℕ} {bs bs' : List UInt8}

theorem HasAt.left (h : HasAt l o (bs ++ bs')) : HasAt l o bs := by
  obtain ⟨a, c, rfl, rfl⟩ := h
  exact ⟨a, bs' ++ c, by rw [List.append_assoc], rfl⟩

theorem HasAt.right (h : HasAt l o (bs ++ bs')) : HasAt l (o + bs.length) bs' := by
  obtain ⟨a, c, rfl, rfl⟩ := h
  exact ⟨a ++ bs, c, by simp only [List.append_assoc], List.length_append⟩

theorem HasAt.le (h : HasAt l o bs) : o + bs.length ≤ l.length := by
  obtain ⟨a, c, rfl, rfl⟩ := h
  rw [List.length_append, List.length_append]
  omega

/-- A slice of the buffer gives them back. -/
theorem HasAt.slice (h : HasAt l o bs) (hn : bs.length = n) : (l.drop o).take n = bs := by
  obtain ⟨a, c, rfl, rfl⟩ := h
  rw [List.drop_left, ← hn, List.take_left]

theorem HasAt.field (h : HasAt l o bs) (hk : k + w ≤ 8 * bs.length) : field l (8 * o + k) w = field bs k w := by
  obtain ⟨a, c, rfl, rfl⟩ := h
  exact field_append a bs c hk

/-- **A number is read where its bytes stand.** -/
theorem HasAt.num {v : ℕ} (h : HasAt l o (numBytes n v)) (hv : v < 2 ^ (8 * n)) :
    Bits.field l (8 * o) (8 * n) = v := by
  have hf := h.field (k := 0) (w := 8 * n) (by rw [length_numBytes, Nat.zero_add])
  rwa [Nat.add_zero, field_numBytes v (by omega), pow_zero, Nat.div_one, Nat.mod_eq_of_lt hv] at hf

theorem HasAt.append (h : HasAt l o bs) (h' : HasAt l (o + bs.length) bs') : HasAt l o (bs ++ bs') := by
  obtain ⟨a, c, rfl, rfl⟩ := h
  obtain ⟨a', c', hl, ha'⟩ := h'
  have hab : a' = a ++ bs := by
    have h1 := congrArg (List.take (a.length + bs.length)) hl
    rwa [← List.append_assoc, List.take_left' List.length_append, List.take_left' ha', eq_comm] at h1
  rw [hab, ← List.append_assoc, List.append_cancel_left_eq] at hl
  exact ⟨a, c', by rw [hl, List.append_assoc], rfl⟩

theorem hasAt_nil (h : o ≤ l.length) : HasAt l o [] :=
  ⟨l.take o, l.drop o, (List.take_append_drop o l).symm, List.length_take_of_le h⟩

/-- A slice of the buffer stands where it was taken. -/
theorem hasAt_slice (h : o + n ≤ l.length) : HasAt l o ((l.drop o).take n) :=
  ⟨l.take o, (l.drop o).drop n, by rw [List.take_append_drop, List.take_append_drop],
    List.length_take_of_le (by omega)⟩

/-- **The bytes of a field are those of the buffer.** -/
theorem numBytes_field (h : o + n ≤ l.length) : numBytes n (field l (8 * o) (8 * n)) = (l.drop o).take n := by
  have hlen : ((l.drop o).take n).length = n := by rw [List.length_take, List.length_drop]; omega
  refine ext_bitAt (by rw [length_numBytes, hlen]) fun i hi => ?_
  rw [length_numBytes] at hi
  rw [bitAt_numBytes, testBit_field, decide_eq_true hi, Bool.true_and, Bool.true_and, bitAt_take hi, bitAt_drop]

theorem hasAt_num (h : o + n ≤ l.length) : HasAt l o (numBytes n (field l (8 * o) (8 * n))) := by
  rw [numBytes_field h]
  exact hasAt_slice h

/-- Bytes that fill the buffer are the buffer. -/
theorem HasAt.eq (h : HasAt l 0 bs) (hl : bs.length = l.length) : bs = l := by
  have hs := h.slice hl
  rwa [List.drop_zero, List.take_length, eq_comm] at hs

end HasAt

end Bits
