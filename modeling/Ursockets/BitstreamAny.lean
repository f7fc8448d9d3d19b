/-
# The readers that never fail

The readers behave as if the buffer went on with zeros without end: each gives
the next bits and leaves the reader where they end. The one exception is a read
of bytes, or a skip, that goes so far past the last byte that the number of its
bits there wraps around in eight bits: it stays in the last byte, and what is
left of that byte is read once more.

Key definitions: `Bsr.next`, `Read`, `Read.Loses`, `Faithful`.
Key theorems: `right_iff`, `readers_faithful_iff`.
-/
import Ursockets.BitstreamRead

namespace Ursockets
namespace Bitstream

open Bits

/-- `ur_bsr_sane`, and as many bytes as are left. -/
structure Bsr.Sane (b : Bsr) : Prop where
  off_lt : b.off < 8
  left : b.left = b.bytes.length
  off : b.left = 0 → b.off = 0

/-- The bit `i` places further on, zero past the end. -/
def Bsr.next (b : Bsr) (i : ℕ) : Bool := bitAt b.bytes (b.off + i)

variable {l : List UInt8} {c : ℕ} {b : Bsr}

theorem Bsr.At.sane (h : b.At l c) : b.Sane := by
  have hleft := h.left
  have hoff := h.off
  refine ⟨?_, ?_, fun h0 => ?_⟩
  · split at hoff <;> omega
  · rw [h.bytes, List.length_drop, hleft]
  · rw [hoff, if_neg (by omega)]

theorem Bsr.At.next (h : b.At l c) (i : ℕ) : b.next i = bitAt l (c + i) := by
  rw [Bsr.next, h.bytes, bitAt_drop, h.off]
  split
  · congr 1; omega
  · rw [bitAt_of_le (by omega), bitAt_of_le (by omega)]

/-- A sane reader stands in its own bytes. -/
theorem Bsr.Sane.at (h : b.Sane) : Bsr.At b.bytes b.off { b with bits := b.off } := by
  have hlt := h.off_lt
  refine ⟨rfl, ?_, ?_, ?_⟩
  · show b.left = _
    rw [h.left, Nat.div_eq_of_lt hlt, Nat.sub_zero]
  · show b.bytes = _
    rw [Nat.div_eq_of_lt hlt, List.drop_zero]
  · show b.off = _
    split
    · rw [Nat.mod_eq_of_lt hlt]
    · rename_i h1
      have hleft := h.left
      exact h.off (by omega)

/-! ### The readers -/

/-- A call of a reader. -/
inductive Read where
  | bit
  | r8 (len : UInt8)
  | r32 (len : UInt8)
  | r64 (len : UInt8)
  | bytes (len : UInt64)
  | skip (len : UInt64)

/-- The bits that a call reads. -/
def Read.len : Read → ℕ
  | .bit => 1
  | .r8 len => min 8 len.toNat
  | .r32 len => min 32 len.toNat
  | .r64 len => min 64 len.toNat
  | .bytes len => len.toNat
  | .skip len => len.toNat

/-- What a call gives back. -/
inductive Val where
  | num (n : ℕ)
  | bytes (l : List UInt8)
  | none

/-- The call of a reader; the bytes are read into a cleared buffer. -/
def Read.run : Read → Bsr → Val × Bsr
  | .bit, b => let (n, b) := bsrBitAny b; (.num n, b)
  | .r8 len, b => let (n, b) := bsr8Any b len.toNat; (.num n, b)
  | .r32 len, b => let (n, b) := bsr32Any b len.toNat; (.num n, b)
  | .r64 len, b => let (n, b) := bsr64Any b len.toNat; (.num n, b)
  | .bytes len, b =>
    let (out, b) := bsrBytesAny b len.toNat (List.replicate ((len.toNat + 7) / 8) 0)
    (.bytes out, b)
  | .skip len, b => (.none, bsrSkipAny b len.toNat)

/-- The value is the first `len` bits of `f`, the least significant first. -/
def Val.Is (f : ℕ → Bool) (len : ℕ) : Val → Prop
  | .num n => ∀ i, n.testBit i = (decide (i < len) && f i)
  | .bytes l => l.length = (len + 7) / 8 ∧ ∀ i, bitAt l i = (decide (i < len) && f i)
  | .none => True

/-- The call gives the next bits and leaves the reader where they end. -/
def Read.Right (op : Read) (b : Bsr) : Prop :=
  (op.run b).1.Is b.next op.len ∧ ∀ i, (op.run b).2.next i = b.next (op.len + i)

/-- The bits of the last byte past the cursor that the read leaves there. -/
def Bsr.rest (b : Bsr) (len : ℕ) : ℕ := b.byte (b.left - 1) >>> (b.off + len % 8)

/-- The length wraps around, and the last byte has bits to be read once more. -/
def Read.Loses : Read → Bsr → Prop
  | .bytes len, b => b.off ≠ 0 ∧ b.Wraps len.toNat ∧ b.rest len.toNat ≠ 0
  | .skip len, b => b.Wraps len.toNat ∧ b.rest len.toNat ≠ 0
  | _, _ => False

/-! ### Bits and small words -/

theorem bsrBitAny_spec (h : b.At l c) :
    (∀ i, (bsrBitAny b).1.testBit i = (decide (i < 1) && bitAt l (c + i))) ∧
      (bsrBitAny b).2.At l (c + 1) := by
  have hleft := h.left
  rw [bsrBitAny]
  simp only []
  split
  · rename_i h0
    refine ⟨fun i => ?_, h.over h0 1⟩
    rw [bitAt_of_le (by omega), Bool.and_false, Nat.zero_testBit]
  rename_i h0
  have hc : c < 8 * l.length := by have := h.left_eq_zero.not.mp h0; omega
  have hoff := h.off_eq hc
  have hbit : ∀ i, ((b.byte 0 >>> b.off) &&& 1).testBit i = (decide (i < 1) && bitAt l (c + i)) := by
    intro i
    have hone : (b.byte 0 >>> b.off) &&& 1 = (b.byte 0 >>> b.off) &&& mask 1 := rfl
    rw [hone, testBit_mask, h.testBit_first hc]
    by_cases hi : i < 1
    · rw [decide_eq_true (show i < 8 - c % 8 by omega), Bool.true_and]
    · rw [decide_eq_false hi, Bool.false_and, Bool.false_and]
  split
  · refine ⟨hbit, h.move rfl ?_ (fun h1 => ⟨?_, ?_⟩) fun h1 => ⟨if_neg (not_not.mpr h1), rfl⟩⟩
    · show b.left - 1 = _; omega
    · show (if _ then _ else _) = _
      rw [if_pos h1]
      congr 1; omega
    · show 0 = _; omega
  · refine ⟨hbit, h.move rfl ?_ (fun _ => ⟨?_, ?_⟩) fun h1 => absurd h1 h0⟩
    · show b.left = _; omega
    · show b.bytes = _
      rw [show (c % 8 + 1) / 8 = 0 by omega, List.drop_zero]
    · show b.off + 1 = _; omega

theorem bsr8Any_spec (h : b.At l c) {len : ℕ} (hlen : len ≤ 8) :
    (∀ i, (bsr8Any b len).1.testBit i = (decide (i < len) && bitAt l (c + i))) ∧
      (bsr8Any b len).2.At l (c + len) := by
  have hleft := h.left
  rw [bsr8Any, Nat.min_eq_right hlen]
  simp only []
  split
  · rename_i h0
    refine ⟨fun i => ?_, h.over h0 len⟩
    rw [bitAt_of_le (by omega), Bool.and_false, Nat.zero_testBit]
  rename_i h0
  have hc : c < 8 * l.length := by have := h.left_eq_zero.not.mp h0; omega
  have hoff := h.off_eq hc
  have hfirst := h.testBit_first hc
  split
  · refine ⟨fun i => ?_, h.move rfl ?_ (fun _ => ⟨?_, ?_⟩) fun h1 => absurd h1 h0⟩
    · rw [testBit_mask, hfirst]
      by_cases hi : i < len
      · rw [decide_eq_true (show i < 8 - c % 8 by omega), Bool.true_and]
      · rw [decide_eq_false hi, Bool.false_and, Bool.false_and]
    · show b.left = _; omega
    · show b.bytes = _
      rw [show (c % 8 + len) / 8 = 0 by omega, List.drop_zero]
    · show b.off + len = _; omega
  split
  · refine ⟨fun i => ?_, h.past (by omega)⟩
    rw [hfirst]
    by_cases hi : i < 8 - c % 8
    · rw [decide_eq_true hi, decide_eq_true (show i < len by omega)]
    · rw [bitAt_of_le (l := l) (by omega), Bool.and_false, Bool.and_false]
  · refine ⟨fun i => ?_, h.move rfl ?_ (fun _ => ⟨?_, ?_⟩) fun h1 => ?_⟩
    · rw [Nat.testBit_mod_two_pow, Nat.testBit_xor, hfirst, Nat.testBit_shiftLeft, testBit_mask]
      by_cases hi : i < 8 - c % 8
      · rw [decide_eq_true hi, decide_eq_true (show i < 8 by omega), decide_eq_true (show i < len by omega),
          decide_eq_false (show ¬ 8 - b.off ≤ i by omega), Bool.false_and, Bool.xor_false, Bool.true_and]
      · rw [decide_eq_false hi, Bool.false_and, Bool.false_xor, decide_eq_true (show 8 - b.off ≤ i by omega),
          Bool.true_and]
        by_cases hi' : i < len
        · have h4 : 8 * (c / 8 + 1) + (i - (8 - b.off)) = c + i := by omega
          rw [h.testBit_byte 1 (by omega), h4, decide_eq_true hi', decide_eq_true (show i < 8 by omega),
            decide_eq_true (show i - (8 - b.off) < len - (8 - b.off) by omega), Bool.true_and]
        · rw [decide_eq_false hi', decide_eq_false (show ¬ i - (8 - b.off) < len - (8 - b.off) by omega),
            Bool.false_and, Bool.false_and, Bool.and_false]
    · show b.left - 1 = _; omega
    · show b.bytes.drop 1 = _
      congr 1; omega
    · show len - (8 - b.off) = _; omega
    · have h2 : b.left - 1 = 0 := h1
      omega

/-! ### Skips -/

/-- **`ur_bsr_skip_any` moves the cursor**, unless its length wraps around. -/
theorem bsrSkipAny_spec (h : b.At l c) {len : ℕ} (hw : ¬ b.Wraps len) : (bsrSkipAny b len).At l (c + len) := by
  have hleft := h.left
  rw [bsrSkipAny]
  simp only [and_seven, shiftRight_three]
  rw [need_eq]
  split
  · rename_i h0
    exact h.over h0 len
  rename_i h0
  have hc : c < 8 * l.length := by have := h.left_eq_zero.not.mp h0; omega
  have hoff := h.off_eq hc
  split
  · rename_i hge
    rw [Nat.shiftLeft_eq]
    have hmod : (len - (b.left - 1) * 2 ^ 3) % 256 < 8 - b.off ↔ len - 8 * (b.left - 1) < 8 - b.off := by
      rw [Bsr.Wraps] at hw
      omega
    split
    · rename_i hlt
      rw [hmod] at hlt
      refine h.move rfl ?_ (fun _ => ⟨?_, ?_⟩) fun h1 => absurd h1 Nat.one_ne_zero
      · show 1 = _; omega
      · show b.bytes.drop _ = _
        congr 1; omega
      · show b.off + len % 8 = _; omega
    · rename_i hlt
      rw [hmod] at hlt
      exact h.past (by omega)
  · have hstep : (if (b.off + len % 8) / 8 ≠ 0 then 1 else 0) = (b.off + len % 8) / 8 := by
      split <;> omega
    rw [hstep]
    refine h.move rfl ?_ (fun _ => ⟨?_, ?_⟩) fun h1 => ?_
    · show b.left - _ = _; omega
    · show b.bytes.drop _ = _
      congr 1; omega
    · show (b.off + len % 8) % 8 = _; omega
    · have h2 : b.left - (len / 8 + (b.off + len % 8) / 8) = 0 := h1
      omega

/-! ### Reads that wrap around -/

/-- The reader after a length has wrapped around: it is still in the last byte. -/
def Bsr.stuck (b : Bsr) (len : ℕ) : Bsr :=
  ⟨1, b.bits + len, b.off + len % 8, b.bytes.drop (b.left - 1)⟩

theorem Bsr.Wraps.low {len : ℕ} (hw : b.Wraps len) : b.off + len % 8 < 8 := by
  obtain ⟨-, h1, h2⟩ := hw
  omega

theorem sane_stuck (h : b.Sane) {len : ℕ} (hw : b.Wraps len) : (b.stuck len).Sane := by
  have hleft := h.left
  have h0 := hw.1
  refine ⟨hw.low, ?_, fun h1 => absurd h1 Nat.one_ne_zero⟩
  show 1 = (b.bytes.drop (b.left - 1)).length
  rw [List.length_drop]
  omega

theorem testBit_rest (b : Bsr) (len i : ℕ) :
    (b.rest len).testBit i = (decide (b.off + len % 8 + i < 8) &&
      bitAt b.bytes (8 * (b.left - 1) + (b.off + len % 8 + i))) := by
  rw [Bsr.rest, Nat.testBit_shiftRight, Bsr.byte]
  by_cases h1 : b.off + len % 8 + i < 8
  · rw [testBit_getD _ h1, decide_eq_true h1, Bool.true_and]
  · rw [Bits.testBit_byte (by omega), decide_eq_false h1, Bool.false_and]

/-- A reader that is stuck goes on with zeros if nothing is left in the last byte. -/
theorem stuck_next (h : b.Sane) {len : ℕ} (hw : b.Wraps len) :
    (∀ i, (b.stuck len).next i = b.next (len + i)) ↔ b.rest len = 0 := by
  have hleft := h.left
  have hlow := hw.low
  have hpast : ∀ i, b.next (len + i) = false := by
    intro i
    have h1 := hw.2.1
    exact bitAt_of_le (by omega)
  have hstuck : ∀ i, (b.stuck len).next i = bitAt b.bytes (8 * (b.left - 1) + (b.off + len % 8 + i)) :=
    fun i => bitAt_drop _ _ _
  constructor
  · intro heq
    refine Nat.eq_of_testBit_eq fun i => ?_
    rw [testBit_rest, ← hstuck, heq, hpast, Bool.and_false, Nat.zero_testBit]
  · intro hrest i
    rw [hpast, hstuck]
    by_cases h1 : b.off + len % 8 + i < 8
    · have h2 := testBit_rest b len i
      rw [hrest, Nat.zero_testBit, decide_eq_true h1, Bool.true_and] at h2
      exact h2.symm
    · exact bitAt_of_le (by omega)

theorem wraps_spec {len : ℕ} (hw : b.Wraps len) : b.left ≠ 0 ∧ b.left ≤ (len + 7) / 8 ∧
    min (b.left - 1) (len / 8) = b.left - 1 ∧ (len - (b.left - 1) * 2 ^ 3) % 256 < 8 - b.off := by
  obtain ⟨h0, h1, h2⟩ := hw
  omega

theorem bsrSkipAny_wraps {len : ℕ} (hw : b.Wraps len) : bsrSkipAny b len = b.stuck len := by
  obtain ⟨h0, h1, h2, h3⟩ := wraps_spec hw
  rw [bsrSkipAny]
  simp only [and_seven, shiftRight_three]
  rw [need_eq, if_neg h0, if_pos h1, h2, Nat.shiftLeft_eq, if_pos h3, Bsr.stuck]

theorem bsrBytesAny_wraps {len : ℕ} (hoff : b.off ≠ 0) (hw : b.Wraps len) (out : List UInt8) :
    bsrBytesAny b len out = ((storeBytes out 0 (b.left - 1) (shifted b)).set (b.left - 1)
      (UInt8.ofNat ((b.byte (b.left - 1) >>> b.off) &&& mask (len % 8))), b.stuck len) := by
  obtain ⟨h0, h1, h2, h3⟩ := wraps_spec hw
  rw [bsrBytesAny]
  simp only [and_seven, shiftRight_three]
  rw [need_eq, if_neg h0, if_neg hoff, if_pos h1, h2, Nat.shiftLeft_eq, if_pos h3, Bsr.stuck]
  rfl

/-- The bytes are right if nothing is left in the last byte. -/
theorem bytes_wraps (h : b.Sane) {len : ℕ} (hoff : b.off ≠ 0) (hw : b.Wraps len) (hrest : b.rest len = 0)
    {out : List UInt8} (ho : out.length = (len + 7) / 8) (hz : ∀ i, bitAt out i = false) :
    (bsrBytesAny b len out).1.length = (len + 7) / 8 ∧
      ∀ i, bitAt (bsrBytesAny b len out).1 i = (decide (i < len) && b.next i) := by
  rw [bsrBytesAny_wraps hoff hw]
  have hleft := h.left
  have hlow := hw.low
  have hlong := hw.2.1
  have h0 := hw.1
  refine ⟨by rw [List.length_set, length_storeBytes, ho], ?_⟩
  refine bitAt_shifted h.at (show b.off < _ by omega) ho hz (by omega) (.inr (by omega)) fun k hk => ?_
  rw [testBit_mask, decide_eq_true (show 8 * (b.left - 1) + k < len by omega), Bool.true_and]
  by_cases h1 : k < 8 - b.off
  · have hlast := testBit_low h.at (show b.off < _ by omega) (j := b.left - 1) h1
    by_cases h2 : k < len % 8
    · rw [decide_eq_true h2, Bool.true_and]
      exact hlast
    · have h3 := testBit_rest b len (k - len % 8)
      have h4 : b.off + len % 8 + (k - len % 8) = b.off + k := by omega
      have h5 : 8 * (b.left - 1) + (b.off + k) = b.off + (8 * (b.left - 1) + k) := by omega
      rw [hrest, Nat.zero_testBit, h4, decide_eq_true (by omega), Bool.true_and, h5] at h3
      rw [decide_eq_false h2, Bool.false_and, h3]
  · rw [decide_eq_false (show ¬ k < len % 8 by omega), Bool.false_and, bitAt_of_le (by omega)]

/-! ### Any reader -/

/-- The readers do not look at the bit cursor. -/
theorem run_bits (op : Read) (b : Bsr) (n : ℕ) :
    op.run { b with bits := n } = ((op.run b).1, { (op.run b).2 with bits := n + op.len }) := by
  cases op with
  | bit =>
    simp only [Read.run, bsrBitAny, Bsr.byte]
    split_ifs <;> rfl
  | r8 len =>
    simp only [Read.run, bsr8Any, Bsr.byte]
    split_ifs <;> rfl
  | r32 len =>
    simp only [Read.run, bsr32Any, bsrWordAny, Bsr.byte]
    split_ifs <;> rfl
  | r64 len =>
    simp only [Read.run, bsr64Any, bsrWordAny, Bsr.byte]
    split_ifs <;> rfl
  | bytes len =>
    simp only [Read.run, bsrBytesAny, Bsr.byte]
    split_ifs <;> rfl
  | skip len =>
    simp only [Read.run, bsrSkipAny]
    split_ifs <;> rfl

/-- A reader moved by a call that does not wrap around. -/
structure Read.Moves (op : Read) (l : List UInt8) (c : ℕ) (b : Bsr) : Prop where
  val : (op.run b).1.Is (fun i => bitAt l (c + i)) op.len
  at' : (op.run b).2.At l (c + op.len)

/-- The length of a call wraps around. -/
def Read.Wraps : Read → Bsr → Prop
  | .bytes len, b => b.off ≠ 0 ∧ b.Wraps len.toNat
  | .skip len, b => b.Wraps len.toNat
  | _, _ => False

theorem min_word (word : ℕ) (b : Bsr) (len : ℕ) : bsrWordAny word b len = bsrWordAny word b (min word len) := by
  rw [bsrWordAny, bsrWordAny, ← Nat.min_assoc, Nat.min_self]

theorem min_byte (b : Bsr) (len : ℕ) : bsr8Any b len = bsr8Any b (min 8 len) := by
  rw [bsr8Any, bsr8Any, ← Nat.min_assoc, Nat.min_self]

theorem moves (h : b.At l c) {op : Read} (hw : ¬ op.Wraps b) : op.Moves l c b := by
  cases op with
  | bit => exact ⟨(bsrBitAny_spec h).1, (bsrBitAny_spec h).2⟩
  | r8 len =>
    have := bsr8Any_spec h (Nat.min_le_left 8 len.toNat)
    rw [← min_byte] at this
    exact ⟨this.1, this.2⟩
  | r32 len =>
    have := bsrWordAny_spec h (Nat.min_le_left 32 len.toNat)
    rw [← min_word] at this
    exact ⟨this.1, this.2⟩
  | r64 len =>
    have := bsrWordAny_spec h (Nat.min_le_left 64 len.toNat)
    rw [← min_word] at this
    exact ⟨this.1, this.2⟩
  | bytes len =>
    obtain ⟨h1, h2, h3⟩ := bsrBytesAny_read h hw (List.length_replicate (a := (0 : UInt8)))
      (bitAt_replicate _)
    rw [List.length_replicate] at h1
    exact ⟨⟨h1, h2⟩, h3⟩
  | skip len => exact ⟨trivial, bsrSkipAny_spec h hw⟩

theorem is_congr {f g : ℕ → Bool} {len : ℕ} {v : Val} (h : ∀ i, f i = g i) : v.Is f len ↔ v.Is g len := by
  rw [funext h]

/-- A call that does not wrap around is right and leaves the reader sane. -/
theorem right_of_not_wraps (h : b.Sane) {op : Read} (hw : ¬ op.Wraps b) : op.Right b ∧ (op.run b).2.Sane := by
  have hw' : ¬ op.Wraps { b with bits := b.off } := by cases op <;> exact hw
  obtain ⟨hval, hat⟩ := moves h.at hw'
  have hnext := hat.next
  have hsane := hat.sane
  rw [run_bits] at hval hnext hsane
  refine ⟨⟨hval, fun i => ?_⟩, ⟨hsane.off_lt, hsane.left, hsane.off⟩⟩
  exact (hnext i).trans (congrArg (bitAt b.bytes) (Nat.add_assoc _ _ _))

/-- **A call is right unless it loses its place**: its length wraps around while
there are bits left in the last byte. -/
theorem right_iff (h : b.Sane) (op : Read) : (op.Right b ↔ ¬ op.Loses b) ∧ (op.run b).2.Sane := by
  by_cases hw : op.Wraps b
  swap
  · obtain ⟨h1, h2⟩ := right_of_not_wraps h hw
    refine ⟨⟨fun _ hl => hw ?_, fun _ => h1⟩, h2⟩
    cases op <;> first | exact hl.1 | exact ⟨hl.1, hl.2.1⟩ | exact hl
  cases op with
  | bytes len =>
    obtain ⟨hoff, hw⟩ := hw
    have hstate : (Read.run (.bytes len) b).2 = b.stuck len.toNat :=
      congrArg Prod.snd (bsrBytesAny_wraps hoff hw (List.replicate ((len.toNat + 7) / 8) 0))
    rw [Read.Right, hstate]
    refine ⟨⟨fun hr hl => hl.2.2 ((stuck_next h hw).mp hr.2), fun hl => ?_⟩, sane_stuck h hw⟩
    have hrest : b.rest len.toNat = 0 := not_not.mp fun h1 => hl ⟨hoff, hw, h1⟩
    exact ⟨bytes_wraps h hoff hw hrest List.length_replicate (bitAt_replicate _), (stuck_next h hw).mpr hrest⟩
  | skip len =>
    have hstate : (Read.run (.skip len) b).2 = b.stuck len.toNat := bsrSkipAny_wraps hw
    rw [Read.Right, hstate]
    refine ⟨⟨fun hr hl => hl.2 ((stuck_next h hw).mp hr.2), fun hl => ⟨trivial, ?_⟩⟩, sane_stuck h hw⟩
    exact (stuck_next h hw).mpr (not_not.mp fun h1 => hl ⟨hw, h1⟩)
  | _ => exact hw.elim

/-! ### Runs of readers -/

/-- The reader gives the bits of the buffer from place `c` on, call after call,
and stands after each call where the bits it gave end. -/
def Faithful (l : List UInt8) : ℕ → Bsr → List Read → Prop
  | _, _, [] => True
  | c, b, op :: ops =>
    (op.run b).1.Is (fun i => bitAt l (c + i)) op.len ∧
      (∀ i, (op.run b).2.next i = bitAt l (c + op.len + i)) ∧ Faithful l (c + op.len) (op.run b).2 ops

/-- No call loses its place. -/
def Lossless : Bsr → List Read → Prop
  | _, [] => True
  | b, op :: ops => ¬ op.Loses b ∧ Lossless (op.run b).2 ops

theorem faithful_iff_lossless (l : List UInt8) : ∀ (ops : List Read) {c : ℕ} {b : Bsr}, b.Sane →
    (∀ i, b.next i = bitAt l (c + i)) → (Faithful l c b ops ↔ Lossless b ops)
  | [], _, _, _, _ => Iff.rfl
  | op :: ops, c, b, h, hb => by
    obtain ⟨hiff, hsane⟩ := right_iff h op
    have hright : op.Right b ↔ (op.run b).1.Is (fun i => bitAt l (c + i)) op.len ∧
        ∀ i, (op.run b).2.next i = bitAt l (c + op.len + i) := by
      rw [Read.Right, is_congr hb]
      refine and_congr_right fun _ => forall_congr' fun i => ?_
      rw [hb, Nat.add_assoc]
    rw [Faithful, Lossless, ← and_assoc, ← hright, hiff]
    refine and_congr_right fun hl => ?_
    exact faithful_iff_lossless l ops hsane (hright.mp (hiff.mpr hl)).2

/-- **The readers behave as if the stream were infinite** if and only if no call
loses its place. -/
theorem readers_faithful_iff {l : List UInt8} {b : Bsr} (h : bsrInit l = .ok b) (ops : List Read) :
    Faithful l 0 b ops ↔ Lossless b ops := by
  rw [bsrInit] at h
  split at h
  · cases h
  · cases h
    refine faithful_iff_lossless l ops ⟨Nat.zero_lt_succ 7, rfl, fun _ => rfl⟩ fun i => ?_
    rw [Bsr.next]

/-- Reads past the end of a buffer of one byte. -/
theorem readers_faithful_iff_byte : Faithful [0xfe] 0 ⟨1, 0, 0, [0xfe]⟩ [.bit, .bytes 60, .r64 3] :=
  (readers_faithful_iff rfl _).mpr
    ⟨not_false, fun h => absurd h.2.1.2.1 (by decide), not_false, trivial⟩

/-- A skip of 256 bits over a buffer of one byte leaves the reader at its start. -/
theorem skip_stays : bsrInit [0xff] = .ok ⟨1, 0, 0, [0xff]⟩ ∧
    ¬ Faithful [0xff] 0 ⟨1, 0, 0, [0xff]⟩ [.skip 256, .bit] := by
  refine ⟨rfl, fun h => ?_⟩
  have h1 := h.2.1 0
  exact absurd h1 (by decide)

end Bitstream
end Ursockets
