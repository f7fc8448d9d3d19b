/-
# The bitstream reader reads what stands there

The reader stands at a bit cursor of its buffer. Where a string of bits stands
at the cursor, each operation reads it and moves past it.

Key definitions: `Bsr.At`, `Bsr.Wraps`.
Key theorems: `bsrWordAny_spec`, `bsrBytesAny_read`, `bsrTag_atom`, `bsrTag_pair`, `bsrRubLen_spec`.
-/
import Ursockets.BitstreamWrite

namespace Ursockets
namespace Bitstream

open Bits Jam

/-- The reader stands at bit `c` of the buffer. -/
structure Bsr.At (l : List UInt8) (c : ℕ) (b : Bsr) : Prop where
  bits : b.bits = c
  left : b.left = l.length - c / 8
  bytes : b.bytes = l.drop (c / 8)
  off : b.off = if c < 8 * l.length then c % 8 else 0

theorem bsrInit_spec {l : List UInt8} (h : l.length < 2 ^ 61) : ∃ b, bsrInit l = .ok b ∧ b.At l 0 := by
  have h1 : ¬ (l.length <<< 3) % 2 ^ 64 < l.length := by
    rw [Nat.shiftLeft_eq, Nat.mod_eq_of_lt (by omega)]
    omega
  refine ⟨⟨l.length, 0, 0, l⟩, by rw [bsrInit]; exact if_neg h1, rfl, rfl, rfl, ?_⟩
  split <;> rfl

variable {l : List UInt8} {c : ℕ} {b : Bsr}

namespace Bsr.At

theorem left_eq_zero (h : b.At l c) : b.left = 0 ↔ 8 * l.length ≤ c := by
  rw [h.left]; omega

theorem off_eq (h : b.At l c) (hc : c < 8 * l.length) : b.off = c % 8 := by
  rw [h.off, if_pos hc]

theorem testBit_byte (h : b.At l c) (j : ℕ) {k : ℕ} (hk : k < 8) :
    (b.byte j).testBit k = bitAt l (8 * (c / 8 + j) + k) := by
  rw [Bsr.byte, testBit_getD _ hk, h.bytes, bitAt_drop]
  congr 1; omega

/-- The bits of the byte at the cursor. -/
theorem testBit_first (h : b.At l c) (hc : c < 8 * l.length) (k : ℕ) :
    (b.byte 0 >>> b.off).testBit k = (decide (k < 8 - c % 8) && bitAt l (c + k)) := by
  rw [Nat.testBit_shiftRight, h.off_eq hc]
  by_cases hk : k < 8 - c % 8
  · rw [h.testBit_byte 0 (by omega), decide_eq_true hk, Bool.true_and]
    congr 1; omega
  · rw [decide_eq_false hk, Bool.false_and, Bsr.byte]
    exact Bits.testBit_byte (by omega)

/-- A reader that has moved by `n` bits. -/
theorem move (h : b.At l c) {n : ℕ} {b' : Bsr} (hb : b'.bits = b.bits + n)
    (hl : b'.left = l.length - (c + n) / 8)
    (hs : b'.left ≠ 0 → b'.bytes = b.bytes.drop ((c % 8 + n) / 8) ∧ b'.off = (c + n) % 8)
    (h0 : b'.left = 0 → b'.bytes = [] ∧ b'.off = 0) : b'.At l (c + n) := by
  have hcn : (c + n) / 8 = c / 8 + (c % 8 + n) / 8 := by omega
  refine ⟨by rw [hb, h.bits], hl, ?_, ?_⟩
  · by_cases hz : b'.left = 0
    · rw [(h0 hz).1, List.drop_eq_nil_of_le (by omega)]
    · rw [(hs hz).1, h.bytes, List.drop_drop, hcn]
  · by_cases hz : b'.left = 0
    · rw [(h0 hz).2, if_neg (by omega)]
    · rw [(hs hz).2, if_pos (by omega)]

end Bsr.At

/-! ### Plain bits -/

/-- **`ur_bsr32_any` and `ur_bsr64_any` read the next bits**, zeros past the end. -/
theorem bsrWordAny_spec {word : ℕ} (h : b.At l c) {len : ℕ} (hlen : len ≤ word) :
    (∀ i, (bsrWordAny word b len).1.testBit i = (decide (i < len) && bitAt l (c + i))) ∧
      (bsrWordAny word b len).2.At l (c + len) := by
  rw [bsrWordAny, Nat.min_eq_right hlen]
  simp only []
  split
  · rename_i h0
    have hc := h.left_eq_zero.mp h0
    refine ⟨fun i => ?_, h.move rfl (by show b.left = _; omega) (fun h1 => absurd h0 h1) fun _ => ?_⟩
    · rw [bitAt_of_le (by omega)]; simp
    · exact ⟨by rw [h.bytes]; exact List.drop_eq_nil_of_le (by omega),
        by rw [h.off]; exact if_neg (by omega)⟩
  rename_i h0
  have hc : c < 8 * l.length := by have := h.left_eq_zero.not.mp h0; omega
  have hfirst := h.testBit_first hc
  have hoff := h.off_eq hc
  have hleft := h.left
  split
  · rename_i h1
    refine ⟨fun i => ?_, h.move rfl ?_ (fun _ => ⟨?_, ?_⟩) fun h2 => absurd h2 h0⟩
    · rw [testBit_mask, hfirst]
      by_cases h2 : i < len
      · simp [h2, show i < 8 - c % 8 by omega]
      · simp [h2]
    · show b.left = _; omega
    · show b.bytes = _
      rw [show (c % 8 + len) / 8 = 0 by omega, List.drop_zero]
    · show b.off + len = _; omega
  rename_i h1
  -- the bytes past the first one
  have hrest : ∀ i, 8 - b.off ≤ i → bitAt (b.bytes.drop 1) (i - (8 - b.off)) = bitAt l (c + i) := by
    intro i hi
    rw [h.bytes, List.drop_drop, bitAt_drop]
    congr 1; omega
  simp only [and_seven, shiftRight_three]
  split
  · rename_i h2
    refine ⟨fun i => ?_, h.move rfl ?_ (fun h3 => absurd rfl h3) fun _ => ⟨rfl, rfl⟩⟩
    · rw [Nat.testBit_xor, hfirst, Nat.testBit_mod_two_pow, Nat.testBit_shiftLeft, testBit_loadBytes]
      by_cases h3 : 8 - b.off ≤ i
      · rw [hrest i h3]
        by_cases h4 : i - (8 - b.off) < 8 * (b.left - 1)
        · simp [h3, h4, show ¬ i < 8 - c % 8 by omega, show i < len by omega, show i < word by omega]
        · rw [bitAt_of_le (l := l) (i := c + i) (by omega)]; simp
      · simp [h3, show i < 8 - c % 8 by omega, show i < len by omega]
    · show 0 = _; omega
  · rename_i h2
    refine ⟨fun i => ?_, h.move rfl ?_ (fun _ => ⟨?_, ?_⟩) fun h3 => absurd h3 ?_⟩
    · have htal : ∀ j, ((((b.bytes.drop 1).getD ((len - (8 - b.off)) / 8) 0).toNat &&&
          mask ((len - (8 - b.off)) % 8)) <<< (8 * ((len - (8 - b.off)) / 8))).testBit j =
          (decide (8 * ((len - (8 - b.off)) / 8) ≤ j ∧ j < len - (8 - b.off)) &&
            bitAt (b.bytes.drop 1) j) := by
        intro j
        rw [Nat.testBit_shiftLeft, testBit_mask]
        by_cases h3 : 8 * ((len - (8 - b.off)) / 8) ≤ j ∧ j < len - (8 - b.off)
        · rw [testBit_getD _ (by omega), Nat.add_sub_cancel' h3.1]
          simp [h3, show j - 8 * ((len - (8 - b.off)) / 8) < (len - (8 - b.off)) % 8 by omega]
        · by_cases h4 : 8 * ((len - (8 - b.off)) / 8) ≤ j
          · simp [h3, show ¬ j - 8 * ((len - (8 - b.off)) / 8) < (len - (8 - b.off)) % 8 by omega]
          · simp [h4]
      rw [Nat.testBit_xor, hfirst, Nat.testBit_mod_two_pow, Nat.testBit_shiftLeft, Nat.testBit_xor,
        testBit_loadBytes, htal]
      by_cases h3 : 8 - b.off ≤ i
      · rw [hrest i h3]
        by_cases h4 : i < len
        · by_cases h5 : i - (8 - b.off) < 8 * ((len - (8 - b.off)) / 8)
          · simp [h3, h4, h5, show ¬ i < 8 - c % 8 by omega, show i < word by omega,
              show ¬ 8 * ((len - (8 - b.off)) / 8) ≤ i - (8 - b.off) by omega]
          · simp [h3, h4, h5, show ¬ i < 8 - c % 8 by omega, show i < word by omega,
              show 8 * ((len - (8 - b.off)) / 8) ≤ i - (8 - b.off) by omega,
              show i - (8 - b.off) < len - (8 - b.off) by omega]
        · simp [h4, show ¬ i < 8 - c % 8 by omega,
            show ¬ i - (8 - b.off) < 8 * ((len - (8 - b.off)) / 8) by omega,
            show ¬ i - (8 - b.off) < len - (8 - b.off) by omega]
      · simp [h3, show i < 8 - c % 8 by omega, show i < len by omega]
    · show b.left - 1 - _ = _; omega
    · show (b.bytes.drop 1).drop _ = _
      rw [List.drop_drop]
      congr 1; omega
    · show (len - (8 - b.off)) % 8 = _; omega
    · show b.left - 1 - _ ≠ 0; omega

theorem bsr64Any_spec (h : b.At l c) {len : ℕ} (hlen : len ≤ 64) :
    (∀ i, (bsr64Any b len).1.testBit i = (decide (i < len) && bitAt l (c + i))) ∧
      (bsr64Any b len).2.At l (c + len) :=
  bsrWordAny_spec h hlen

/-! ### Bytes -/

/-- The bits that a read of `len` takes from the last byte on wrap around in
eight bits, so that it seems to end inside that byte. -/
def Bsr.Wraps (b : Bsr) (len : ℕ) : Prop :=
  b.left ≠ 0 ∧ 256 ≤ len - 8 * (b.left - 1) ∧ (len - 8 * (b.left - 1)) % 256 < 8 - b.off

instance (b : Bsr) (len : ℕ) : Decidable (b.Wraps len) := inferInstanceAs (Decidable (_ ∧ _ ∧ _))

/-- The next `len` bits have been read into a buffer of `n` bytes. -/
def BytesRead (l : List UInt8) (c len n : ℕ) (res : List UInt8 × Bsr) : Prop :=
  res.1.length = n ∧ (∀ i, bitAt res.1 i = (decide (i < len) && bitAt l (c + i))) ∧ res.2.At l (c + len)

theorem need_eq (len : ℕ) : len / 8 + (if len % 8 ≠ 0 then 1 else 0) = (len + 7) / 8 := by split <;> omega

theorem Bsr.At.over (h : b.At l c) (h0 : b.left = 0) (n : ℕ) : Bsr.At l (c + n) { b with bits := b.bits + n } := by
  have hleft := h.left
  refine h.move rfl (by show b.left = _; omega) (fun h1 => absurd h0 h1) fun _ => ⟨?_, ?_⟩
  · rw [h.bytes]; exact List.drop_eq_nil_of_le (by omega)
  · rw [h.off]; exact if_neg (by omega)

/-- The reader past the end. -/
theorem Bsr.At.past (h : b.At l c) {n : ℕ} (hn : 8 * l.length ≤ c + n) :
    Bsr.At l (c + n) ⟨0, b.bits + n, 0, []⟩ :=
  h.move rfl (by show 0 = _; omega) (fun h1 => absurd rfl h1) fun _ => ⟨rfl, rfl⟩

/-- Bytes that are read from the start of a byte. -/
theorem bytesRead_aligned (h : b.At l c) (h0 : b.left ≠ 0) (hoff0 : b.off = 0) {len : ℕ} {out : List UInt8}
    (ho : out.length = (len + 7) / 8) (hz : ∀ i, bitAt out i = false) :
    BytesRead l c len out.length (bsrBytesAny b len out) := by
  have hc : c < 8 * l.length := by have := h.left_eq_zero.not.mp h0; omega
  have hoff := h.off_eq hc
  have hleft := h.left
  have hbody : ∀ i, (b.byte (i / 8 - 0)).testBit (i % 8) = bitAt l (c + i) := by
    intro i
    rw [h.testBit_byte _ (by omega)]
    congr 1; omega
  have hstore : ∀ n, n ≤ out.length → ∀ i, bitAt (storeBytes out 0 n b.byte) i =
      (decide (i < 8 * n) && bitAt l (c + i)) := by
    intro n hn i
    rw [bitAt_storeBytes i (by omega), hbody, hz]
    by_cases h1 : i < 8 * n
    · rw [if_pos (by omega), decide_eq_true h1, Bool.true_and]
    · rw [if_neg (by omega), decide_eq_false h1, Bool.false_and]
  rw [BytesRead, bsrBytesAny]
  simp only [and_seven, shiftRight_three]
  rw [if_neg h0, need_eq, if_pos hoff0]
  split
  · rename_i hlt
    refine ⟨length_storeBytes _ _ _ _, fun i => ?_, h.past (by omega)⟩
    show bitAt (storeBytes out 0 b.left b.byte) i = _
    rw [hstore _ (by omega)]
    by_cases h1 : i < 8 * b.left
    · rw [decide_eq_true h1, decide_eq_true (show i < len by omega)]
    · rw [bitAt_of_le (l := l) (by omega), Bool.and_false, Bool.and_false]
  · rename_i hle
    refine ⟨?_, fun i => ?_, h.move rfl ?_ (fun h1 => ⟨?_, ?_⟩) fun h1 => ⟨?_, ?_⟩⟩
    · show List.length (if _ then _ else _) = _
      split
      · rw [List.length_set, length_storeBytes]
      · rw [length_storeBytes]
    · dsimp only
      split
      · rename_i hm
        rw [bitAt_set (by rw [length_storeBytes]; omega), hstore _ (by omega)]
        split
        · rename_i h1
          rw [testBit_ofNat, testBit_mask, h.testBit_byte _ (by omega)]
          have h2 : 8 * (c / 8 + len / 8) + i % 8 = c + i := by omega
          have h3 : i % 8 < len % 8 ↔ i < len := by omega
          rw [h2, decide_eq_true (show i % 8 < 8 by omega), Bool.true_and, decide_eq_decide.mpr h3]
        · have h3 : i < 8 * (len / 8) ↔ i < len := by omega
          rw [decide_eq_decide.mpr h3]
      · rw [hstore _ (by omega)]
        have h3 : i < 8 * (len / 8) ↔ i < len := by omega
        rw [decide_eq_decide.mpr h3]
    · show b.left - len / 8 = _; omega
    · show (if _ then _ else _) = _
      rw [if_pos h1]
      congr 1; omega
    · show len % 8 = _; omega
    · exact if_neg (not_not.mpr h1)
    · have h2 : b.left - len / 8 = 0 := h1
      show len % 8 = 0; omega

/-- The bytes that are put together from two bytes each. -/
def shifted (b : Bsr) (i : ℕ) : ℕ := (b.byte i >>> b.off) ^^^ (b.byte (i + 1) <<< (8 - b.off))

section Shifted

variable (h : b.At l c) (hc : c < 8 * l.length)
include h hc

theorem testBit_low {j k : ℕ} (hk : k < 8 - b.off) :
    (b.byte j >>> b.off).testBit k = bitAt l (c + (8 * j + k)) := by
  have hoff := h.off_eq hc
  rw [Nat.testBit_shiftRight, h.testBit_byte _ (by omega)]
  congr 1; omega

theorem testBit_high {j k : ℕ} (hk : 8 - b.off ≤ k) : (b.byte j >>> b.off).testBit k = false := by
  have hoff := h.off_eq hc
  rw [Nat.testBit_shiftRight, Bsr.byte]
  exact Bits.testBit_byte (by omega)

/-- A byte that is shifted in takes its high bits from the next one. -/
theorem testBit_shifted {j k : ℕ} (hk : k < 8) : (shifted b j).testBit k = bitAt l (c + (8 * j + k)) := by
  have hoff := h.off_eq hc
  rw [shifted, Nat.testBit_xor, Nat.testBit_shiftLeft]
  by_cases h1 : 8 - b.off ≤ k
  · rw [testBit_high h hc h1, h.testBit_byte _ (by omega), decide_eq_true h1, Bool.false_xor, Bool.true_and]
    congr 1; omega
  · rw [testBit_low h hc (by omega), decide_eq_false h1, Bool.false_and, Bool.xor_false]

/-- The bytes read, with the last one set to `m`. -/
theorem bitAt_shifted {len n m : ℕ} {out : List UInt8} (ho : out.length = (len + 7) / 8)
    (hz : ∀ i, bitAt out i = false) (hn : n ≤ len / 8)
    (hlast : len ≤ 8 * n + 8 ∨ 8 * l.length ≤ c + (8 * n + 8))
    (hm : ∀ k < 8, m.testBit k = (decide (8 * n + k < len) && bitAt l (c + (8 * n + k)))) (i : ℕ) :
    bitAt ((storeBytes out 0 n (shifted b)).set n (UInt8.ofNat m)) i =
      (decide (i < len) && bitAt l (c + i)) := by
  have hstore : bitAt (storeBytes out 0 n (shifted b)) i = (decide (i < 8 * n) && bitAt l (c + i)) := by
    rw [bitAt_storeBytes i (by omega), hz]
    by_cases h1 : i < 8 * n
    · have h2 : 8 * (i / 8 - 0) + i % 8 = i := by omega
      rw [if_pos (by omega), testBit_shifted h hc (by omega), h2, decide_eq_true h1, Bool.true_and]
    · rw [if_neg (by omega), decide_eq_false h1, Bool.false_and]
  have hend : ¬ i < 8 * n + 8 → (decide (i < len) && bitAt l (c + i)) = false := by
    intro h1
    rcases hlast with h2 | h2
    · rw [decide_eq_false (by omega), Bool.false_and]
    · rw [bitAt_of_le (by omega), Bool.and_false]
  rcases Nat.lt_or_ge n out.length with h1 | h1
  · rw [bitAt_set (by rwa [length_storeBytes]), hstore]
    split
    · have h3 : 8 * n + i % 8 = i := by omega
      rw [testBit_ofNat, hm _ (by omega), h3, decide_eq_true (show i % 8 < 8 by omega), Bool.true_and]
    · by_cases h2 : i < 8 * n
      · rw [decide_eq_true h2, decide_eq_true (show i < len by omega)]
      · rw [decide_eq_false h2, hend (by omega), Bool.false_and]
  · rw [List.set_eq_of_length_le (by rwa [length_storeBytes]), hstore]
    have h3 : i < 8 * n ↔ i < len := by omega
    rw [decide_eq_decide.mpr h3]

/-- Bytes that are read from inside a byte up to the end or past it. -/
theorem bytesRead_end (h0 : b.left ≠ 0) (hoff0 : b.off ≠ 0) {len : ℕ} (hw : ¬ b.Wraps len)
    (hge : b.left ≤ (len + 7) / 8) {out : List UInt8} (ho : out.length = (len + 7) / 8)
    (hz : ∀ i, bitAt out i = false) : BytesRead l c len out.length (bsrBytesAny b len out) := by
  have hoff := h.off_eq hc
  have hleft := h.left
  rw [BytesRead, bsrBytesAny]
  simp only [and_seven, shiftRight_three]
  rw [if_neg h0, need_eq, if_neg hoff0, if_pos hge, Nat.shiftLeft_eq]
  have hmax : min (b.left - 1) (len / 8) = b.left - 1 := by omega
  set n := b.left - 1 with hn
  have hmod : (len - n * 2 ^ 3) % 256 < 8 - b.off ↔ len - 8 * n < 8 - b.off := by
    rw [Bsr.Wraps] at hw
    omega
  rw [hmax]
  split
  · rename_i hlt
    rw [hmod] at hlt
    refine ⟨by rw [List.length_set, length_storeBytes], ?_, h.move rfl ?_ (fun _ => ⟨?_, ?_⟩)
      fun h1 => absurd h1 Nat.one_ne_zero⟩
    · refine bitAt_shifted h hc ho hz (by omega) (.inl (by omega)) fun k hk => ?_
      rw [testBit_mask]
      have h3 : k < len % 8 ↔ 8 * n + k < len := by omega
      by_cases h1 : 8 * n + k < len
      · rw [testBit_low h hc (by omega), decide_eq_decide.mpr h3]
      · rw [decide_eq_decide.mpr h3, decide_eq_false h1, Bool.false_and, Bool.false_and]
    · show 1 = _; omega
    · show b.bytes.drop n = _
      congr 1; omega
    · show b.off + len % 8 = _; omega
  · rename_i hlt
    rw [hmod] at hlt
    refine ⟨by rw [List.length_set, length_storeBytes], ?_, h.past (by omega)⟩
    refine bitAt_shifted h hc ho hz (by omega) (.inr (by omega)) fun k hk => ?_
    by_cases h1 : k < 8 - b.off
    · rw [testBit_low h hc h1, decide_eq_true (show 8 * n + k < len by omega), Bool.true_and]
    · rw [testBit_high h hc (by omega), bitAt_of_le (l := l) (by omega), Bool.and_false]

/-- Bytes that are read from inside a byte to one before the end. -/
theorem bytesRead_inside (h0 : b.left ≠ 0) (hoff0 : b.off ≠ 0) {len : ℕ} (hlt : (len + 7) / 8 < b.left)
    {out : List UInt8} (ho : out.length = (len + 7) / 8) (hz : ∀ i, bitAt out i = false) :
    BytesRead l c len out.length (bsrBytesAny b len out) := by
  have hoff := h.off_eq hc
  have hleft := h.left
  have hstep : (if (b.off + len % 8) / 8 ≠ 0 then 1 else 0) = (b.off + len % 8) / 8 := by
    split <;> omega
  have hmax : min (b.left - 1) (len / 8) = len / 8 := by omega
  set n := len / 8 with hn
  have hat : Bsr.At l (c + len) ⟨b.left - (n + (b.off + len % 8) / 8), b.bits + len,
      (b.off + len % 8) % 8, b.bytes.drop (n + (b.off + len % 8) / 8)⟩ := by
    refine h.move rfl ?_ (fun _ => ⟨?_, ?_⟩) fun h1 => ?_
    · show b.left - _ = _; omega
    · show b.bytes.drop _ = _
      congr 1; omega
    · show (b.off + len % 8) % 8 = _; omega
    · have h2 : b.left - (n + (b.off + len % 8) / 8) = 0 := h1
      omega
  rw [BytesRead, bsrBytesAny]
  simp only [and_seven, shiftRight_three]
  rw [if_neg h0, need_eq, if_neg hoff0, if_neg (by omega), hstep, ← hn, hmax]
  split
  · rename_i hm
    refine ⟨length_storeBytes _ _ _ _, fun i => ?_, hat⟩
    have hnone := bitAt_shifted h hc (m := 0) ho hz (Nat.le_refl n) (.inl (by omega)) (fun k hk => by
      rw [decide_eq_false (by omega), Bool.false_and, Nat.zero_testBit]) i
    rwa [List.set_eq_of_length_le (by rw [length_storeBytes]; omega)] at hnone
  · rename_i hm
    split
    · rename_i hle
      refine ⟨by rw [List.length_set, length_storeBytes], ?_, hat⟩
      refine bitAt_shifted h hc ho hz (Nat.le_refl n) (.inl (by omega)) fun k hk => ?_
      rw [testBit_mask]
      have h3 : k < len % 8 ↔ 8 * n + k < len := by omega
      by_cases h1 : 8 * n + k < len
      · rw [testBit_low h hc (by omega), decide_eq_decide.mpr h3]
      · rw [decide_eq_decide.mpr h3, decide_eq_false h1, Bool.false_and, Bool.false_and]
    · rename_i hle
      refine ⟨by rw [List.length_set, length_storeBytes], ?_, hat⟩
      refine bitAt_shifted h hc ho hz (Nat.le_refl n) (.inl (by omega)) fun k hk => ?_
      rw [testBit_mask, Nat.testBit_xor, testBit_masked_shift]
      have h3 : k < len % 8 ↔ 8 * n + k < len := by omega
      rw [decide_eq_decide.mpr h3]
      by_cases h1 : 8 * n + k < len
      · rw [decide_eq_true h1, Bool.true_and, Bool.true_and]
        by_cases h2 : 8 - b.off ≤ k
        · have h4 : 8 * (c / 8 + (n + 1)) + (k - (8 - b.off)) = c + (8 * n + k) := by omega
          rw [testBit_high h hc h2, h.testBit_byte _ (by omega), h4, decide_eq_true h2,
            decide_eq_true (show k < 8 - b.off + (b.off + len % 8) % 8 by omega), Bool.false_xor]
          simp
        · rw [testBit_low h hc (by omega), decide_eq_false h2]
          simp
      · rw [decide_eq_false h1, Bool.false_and, Bool.false_and]

end Shifted

/-- **`ur_bsr_bytes_any` reads the next bits**, zeros past the end, unless the
read starts inside a byte and its length wraps around. -/
theorem bsrBytesAny_read (h : b.At l c) {len : ℕ} (hw : ¬ (b.off ≠ 0 ∧ b.Wraps len)) {out : List UInt8}
    (ho : out.length = (len + 7) / 8) (hz : ∀ i, bitAt out i = false) :
    BytesRead l c len out.length (bsrBytesAny b len out) := by
  by_cases h0 : b.left = 0
  · have hc := h.left_eq_zero.mp h0
    rw [BytesRead, bsrBytesAny, if_pos h0]
    refine ⟨rfl, fun i => ?_, h.over h0 len⟩
    rw [hz, bitAt_of_le (by omega), Bool.and_false]
  have hc : c < 8 * l.length := by have := h.left_eq_zero.not.mp h0; omega
  by_cases hoff0 : b.off = 0
  · exact bytesRead_aligned h h0 hoff0 ho hz
  rcases Nat.lt_or_ge ((len + 7) / 8) b.left with h1 | h1
  · exact bytesRead_inside h hc h0 hoff0 h1 ho hz
  · exact bytesRead_end h hc h0 hoff0 (fun h2 => hw ⟨hoff0, h2⟩) h1 ho hz

/-- A read inside the buffer does not wrap around. -/
theorem not_wraps (h : b.At l c) {len : ℕ} (hlen : c + len ≤ 8 * l.length) : ¬ b.Wraps len := by
  rintro ⟨h0, h1, -⟩
  have hleft := h.left
  omega

/-- **`ur_bsr_bytes_any` reads the next bits of a buffer that has them.** -/
theorem bsrBytesAny_spec (h : b.At l c) {len : ℕ} (hlen : c + len ≤ 8 * l.length)
    {out : List UInt8} (ho : out.length = (len + 7) / 8) (hz : ∀ i, bitAt out i = false) :
    (bsrBytesAny b len out).1.length = out.length ∧
      (∀ i, bitAt (bsrBytesAny b len out).1 i = (decide (i < len) && bitAt l (c + i))) ∧
      (bsrBytesAny b len out).2.At l (c + len) :=
  bsrBytesAny_read h (fun h1 => not_wraps h hlen h1.2) ho hz

/-! ### Tags and lengths -/

theorem and_one_eq_zero (n : ℕ) : n &&& 1 = 0 ↔ n.testBit 0 = false := by
  rw [Nat.testBit_zero, Nat.and_one_is_mod]
  simp

/-- Where the cell's second bit is read from. -/
theorem testBit_second (h : b.At l c) (hc : c + 1 < 8 * l.length) :
    (if b.off = 7 then b.byte 1 &&& 1 else (b.byte 0 >>> (b.off + 1)) &&& 1) = 0 ↔
      bitAt l (c + 1) = false := by
  have hoff := h.off_eq (by omega)
  split
  · rw [and_one_eq_zero, h.testBit_byte 1 (by decide)]
    have h1 : 8 * (c / 8 + 1) + 0 = c + 1 := by omega
    rw [h1]
  · rw [and_one_eq_zero, Nat.testBit_shiftRight, h.testBit_byte 0 (by omega)]
    have h1 : 8 * (c / 8 + 0) + (b.off + 1 + 0) = c + 1 := by omega
    rw [h1]

theorem testBit_tag (h : b.At l c) (hc : c < 8 * l.length) :
    (b.byte 0 >>> b.off) &&& 1 = 0 ↔ bitAt l c = false := by
  have h1 := h.testBit_first hc 0
  rw [decide_eq_true (by omega), Bool.true_and, Nat.add_zero] at h1
  rw [and_one_eq_zero, h1]

/-- The reader past a tag of `n` bits. -/
theorem bsrTag_next (h : b.At l c) (hc : c < 8 * l.length) (n : ℕ) :
    Bsr.At l (c + n) (if b.left - (b.off + n) >>> 3 = 0 then (⟨0, b.bits + n, 0, []⟩ : Bsr)
      else ⟨b.left - (b.off + n) >>> 3, b.bits + n, (b.off + n) &&& 7,
        b.bytes.drop ((b.off + n) >>> 3)⟩) := by
  have hoff := h.off_eq hc
  have hleft := h.left
  rw [shiftRight_three, and_seven]
  split
  · exact h.move rfl (by show 0 = _; omega) (fun h1 => absurd rfl h1) fun _ => ⟨rfl, rfl⟩
  · rename_i h1
    refine h.move rfl (by show b.left - _ = _; omega) (fun _ => ⟨?_, ?_⟩) fun h2 => absurd h2 h1
    · show b.bytes.drop _ = _
      congr 1; omega
    · show (b.off + n) % 8 = _; omega

/-- **`ur_bsr_tag` reads the tag of an atom.** -/
theorem bsrTag_atom (h : b.At l c) (hs : StandsAt l c [false]) :
    (bsrTag b).1 = .ok .atom ∧ (bsrTag b).2.At l (c + 1) := by
  have hc : c < 8 * l.length := hs.1
  have hbit : bitAt l c = false := hs.2 0 (by decide)
  rw [bsrTag, if_neg (by rw [h.left_eq_zero]; omega)]
  simp only []
  rw [if_pos ((testBit_tag h hc).mpr hbit)]
  exact ⟨rfl, bsrTag_next h hc 1⟩

/-- **`ur_bsr_tag` reads the tag of a cell or a back-reference.** -/
theorem bsrTag_pair (h : b.At l c) {x : Bool} (hs : StandsAt l c [true, x]) :
    (bsrTag b).1 = .ok (if x then .back else .cell) ∧ (bsrTag b).2.At l (c + 2) := by
  have hc : c + 2 ≤ 8 * l.length := hs.1
  have hbit : bitAt l c = true := hs.2 0 (Nat.zero_lt_succ 1)
  have hbit1 : bitAt l (c + 1) = x := hs.2 1 (Nat.lt_succ_self 1)
  have hleft := h.left
  have hoff := h.off_eq (by omega)
  rw [bsrTag, if_neg (by rw [h.left_eq_zero]; omega)]
  simp only []
  rw [if_neg (by rw [testBit_tag h (by omega), hbit]; decide), if_neg (by omega)]
  refine ⟨?_, bsrTag_next h (by omega) 2⟩
  simp only [testBit_second h (by omega), hbit1]
  cases x <;> rfl

theorem tz8_spec {byt z : ℕ} (hz : byt.testBit z = true) :
    ∀ n k, k ≤ z → z < k + n → (∀ j, k ≤ j → j < z → byt.testBit j = false) → tz8 byt n k = z
  | 0, k, h1, h2, _ => by omega
  | n + 1, k, h1, h2, h3 => by
    rw [tz8]
    rcases Nat.lt_or_eq_of_le h1 with h4 | rfl
    · rw [h3 k (Nat.le_refl k) h4]
      exact tz8_spec hz n (k + 1) h4 (by omega) fun j hj => h3 j (by omega)
    · rw [if_pos hz]

/-- The loop of `ur_bsr_log` skips to the byte of the next one. -/
theorem bsrLogSkip_spec (h : b.At l c) {z : ℕ} (hc : c + z < 8 * l.length) (hz : z ≤ 255)
    (hone : bitAt l (c + z) = true) (hzero : ∀ i < z, bitAt l (c + i) = false) :
    ∀ n s byt, s ≤ (c % 8 + z) / 8 → (c % 8 + z) / 8 < s + n →
      byt = (if s = 0 then b.byte 0 >>> b.off else b.byte s) →
      bsrLogSkip b n s byt =
        (.ok ((c % 8 + z) / 8, if (c % 8 + z) / 8 = 0 then b.byte 0 >>> b.off
          else b.byte ((c % 8 + z) / 8)), b)
  | 0, s, byt, h1, h2, _ => by omega
  | n + 1, s, byt, h1, h2, hbyt => by
    have hleft := h.left
    rw [bsrLogSkip]
    rcases Nat.lt_or_eq_of_le h1 with hlt | rfl
    · -- all bits of this byte are zero
      have hb0 : byt = 0 := by
        refine Nat.eq_of_testBit_eq fun k => ?_
        rw [Nat.zero_testBit, hbyt]
        split
        · rename_i hs
          rw [h.testBit_first (by omega)]
          by_cases hk : k < 8 - c % 8
          · rw [hzero k (by omega), Bool.and_false]
          · rw [decide_eq_false hk, Bool.false_and]
        · rename_i hs
          by_cases hk : k < 8
          · have h3 : 8 * (c / 8 + s) + k = c + (8 * s + k - c % 8) := by omega
            rw [h.testBit_byte s hk, h3, hzero _ (by omega)]
          · exact Bits.testBit_byte (by omega)
      rw [if_neg (not_not.mpr hb0), if_neg (by omega), if_neg (by omega)]
      exact bsrLogSkip_spec h hc hz hone hzero n (s + 1) _ hlt (by omega) (if_neg (Nat.succ_ne_zero s)).symm
    · have hb0 : byt ≠ 0 := by
        intro h0
        have htest : byt.testBit (if (c % 8 + z) / 8 = 0 then z else (c % 8 + z) % 8) = true := by
          rw [hbyt]
          split
          · rename_i hs
            rw [h.testBit_first (by omega), hone, decide_eq_true (by omega)]; rfl
          · rename_i hs
            have h3 : 8 * (c / 8 + (c % 8 + z) / 8) + (c % 8 + z) % 8 = c + z := by omega
            rw [h.testBit_byte _ (by omega), h3, hone]
        rw [h0, Nat.zero_testBit] at htest
        cases htest
      rw [if_pos hb0, hbyt]

/-- **`ur_bsr_log` counts the zeros before the next one.** -/
theorem bsrLog_spec (h : b.At l c) {z : ℕ} (hz : z ≤ 255)
    (hs : StandsAt l c (bitsOf (z + 1) fun i => decide (i = z))) :
    (bsrLog b).1 = .ok z ∧ (bsrLog b).2.At l (c + (z + 1)) := by
  obtain ⟨hc, hbits⟩ := standsAt_bitsOf.mp hs
  have hone : bitAt l (c + z) = true := by rw [hbits z (by omega), decide_eq_true rfl]
  have hzero : ∀ i < z, bitAt l (c + i) = false := fun i hi => by
    rw [hbits i (by omega), decide_eq_false (by omega)]
  have hleft := h.left
  have hoff := h.off_eq (by omega)
  rw [bsrLog, if_neg (by rw [h.left_eq_zero]; omega),
    bsrLogSkip_spec h (by omega) hz hone hzero 33 0 _ (Nat.zero_le _) (by omega) (if_pos rfl).symm]
  simp only []
  -- the byte that the loop stops at starts with the zeros that are left
  have htz : (tz8 (if (c % 8 + z) / 8 = 0 then b.byte 0 >>> b.off else b.byte ((c % 8 + z) / 8)) 8 0 +
      if (c % 8 + z) / 8 ≠ 0 then ((c % 8 + z) / 8) <<< 3 - b.off else 0) = z := by
    by_cases hs : (c % 8 + z) / 8 = 0
    · rw [if_pos hs, if_neg (not_not.mpr hs), Nat.add_zero]
      refine tz8_spec ?_ 8 0 (Nat.zero_le _) (by omega) fun j _ hj => ?_
      · rw [h.testBit_first (by omega), hone, decide_eq_true (by omega)]; rfl
      · rw [h.testBit_first (by omega), hzero j hj, Bool.and_false]
    · rw [if_neg hs, if_pos hs]
      have hb : ∀ k, k < 8 → (b.byte ((c % 8 + z) / 8)).testBit k =
          bitAt l (8 * (c / 8 + (c % 8 + z) / 8) + k) := fun k hk => h.testBit_byte _ hk
      have htz8 : tz8 (b.byte ((c % 8 + z) / 8)) 8 0 = (c % 8 + z) % 8 := by
        refine tz8_spec ?_ 8 0 (Nat.zero_le _) (by omega) fun j _ hj => ?_
        · have h3 : 8 * (c / 8 + (c % 8 + z) / 8) + (c % 8 + z) % 8 = c + z := by omega
          rw [hb _ (by omega), h3, hone]
        · have h3 : 8 * (c / 8 + (c % 8 + z) / 8) + j = c + (8 * ((c % 8 + z) / 8) + j - c % 8) := by
            omega
          rw [hb _ (by omega), h3, hzero _ (by omega)]
      rw [htz8, Nat.shiftLeft_eq]
      omega
  rw [htz, if_neg (by omega)]
  refine ⟨rfl, h.move (by show b.bits + (1 + z) = _; omega) ?_ (fun h1 => ⟨?_, ?_⟩) fun h1 => ?_⟩
  · show b.left - (b.off + 1 + z) >>> 3 = _
    rw [shiftRight_three]; omega
  · show (if _ then _ else _) = _
    rw [if_pos h1, shiftRight_three]
    congr 1; omega
  · show (b.off + 1 + z) &&& 7 = _
    rw [and_seven]; omega
  · refine ⟨if_neg (not_not.mpr h1), ?_⟩
    have h2 : b.left - (b.off + 1 + z) >>> 3 = 0 := h1
    rw [shiftRight_three] at h2
    show (b.off + 1 + z) &&& 7 = 0
    rw [and_seven]; omega

/-- A number that starts with a one at bit `n`, made of its low bits. -/
theorem low_xor {a n low : ℕ} (hn : met0 a = n + 1)
    (hl : ∀ i, low.testBit i = (decide (i < n) && a.testBit i)) : low ^^^ 1 <<< n = a := by
  have ha : a ≠ 0 := by
    rintro rfl
    cases hn
  have htop : 2 ^ n ≤ a := by have := two_pow_le ha; rwa [hn] at this
  have hlt : a < 2 ^ (n + 1) := by rw [← hn]; exact lt_two_pow_met0 a
  refine Nat.eq_of_testBit_eq fun i => ?_
  rw [Nat.testBit_xor, hl, Nat.shiftLeft_eq, Nat.one_mul, Nat.testBit_two_pow]
  rcases Nat.lt_trichotomy i n with h | rfl | h
  · simp [h, show ¬ n = i by omega]
  · have h1 : a.testBit i = true := by
      have h2 : (a - 2 ^ i) < 2 ^ i := by rw [Nat.pow_succ] at hlt; omega
      have h3 := Nat.testBit_two_pow_add_eq (a - 2 ^ i) i
      rw [Nat.add_sub_cancel' htop, Nat.testBit_lt_two_pow h2] at h3
      exact h3
    simp [h1]
  · rw [testBit_of_met0_le (by omega)]
    simp [show ¬ i < n by omega, show ¬ n = i by omega]

/-- **`ur_bsr_rub_len` reads the length of a run-length encoded string**, whose
bits stand after it. -/
theorem bsrRubLen_spec (h : b.At l c) {bs : List Bool} (hs : StandsAt l c (mat bs))
    (hlen : bs.length < 2 ^ 63) :
    ∃ n, (bsrRubLen b).1 = .ok bs.length ∧ (bsrRubLen b).2.At l (c + n) ∧
      StandsAt l (c + n) bs ∧ n + bs.length = (mat bs).length := by
  rw [mat] at hs ⊢
  split at hs
  · rename_i hnil
    subst hnil
    obtain ⟨h1, h2⟩ := bsrLog_spec h (z := 0) (by decide) hs
    have hlog : bsrLog b = (.ok 0, (bsrLog b).2) := Prod.ext h1 rfl
    have hres : bsrRubLen b = (.ok 0, (bsrLog b).2) := by
      rw [bsrRubLen, hlog]
      rfl
    rw [hres]
    exact ⟨1, rfl, h2, standsAt_nil hs.1, rfl⟩
  · rename_i hnil
    rw [if_neg hnil]
    have hne : bs.length ≠ 0 := fun h0 => hnil (List.length_eq_zero_iff.mp h0)
    obtain ⟨k, hk⟩ : ∃ k, met0 bs.length = k + 1 := ⟨_, (Nat.sub_add_cancel (met0_pos hne)).symm⟩
    have hk63 : k + 1 ≤ 63 := by rw [← hk, met0_le_iff]; exact hlen
    simp only [hk, Nat.add_sub_cancel, List.append_assoc] at hs ⊢
    rw [standsAt_append, standsAt_append, length_bitsOf, length_ofNat] at hs
    obtain ⟨hun, hlow, hbits⟩ := hs
    obtain ⟨h1, h2⟩ := bsrLog_spec h (by omega) hun
    have hk64 : k ≤ 64 := by omega
    obtain ⟨hl1, hl2⟩ := bsr64Any_spec h2 hk64
    have hval : (bsr64Any (bsrLog b).2 k).1 ^^^ 1 <<< k = bs.length := by
      refine low_xor hk fun i => ?_
      rw [hl1]
      by_cases hi : i < k
      · rw [(standsAt_bitsOf.mp hlow).2 i hi]
      · simp [hi]
    have hlog : bsrLog b = (.ok (k + 1), (bsrLog b).2) := Prod.ext h1 rfl
    have hcur : c + (k + 1 + 1) + k = c + (k + 1 + 1 + k) := by omega
    rw [hcur] at hl2 hbits
    refine ⟨k + 1 + 1 + k, ?_, ?_, hbits, ?_⟩
    · rw [bsrRubLen, hlog]
      simp only []
      rw [if_neg (by omega)]
      cases k with
      | zero =>
        have h3 := lt_two_pow_met0 bs.length
        rw [hk] at h3
        exact congrArg Except.ok (by omega)
      | succ k => exact congrArg Except.ok hval
    · rw [bsrRubLen, hlog]
      simp only []
      rw [if_neg (by omega)]
      cases k with
      | zero => exact h2
      | succ k => exact hl2
    · simp only [List.length_append, length_bitsOf, length_ofNat]
      omega

end Bitstream
end Ursockets
