/-
# The bitstream writer appends

Each operation of the writer appends a string of bits and leaves the bits past
the cursor zero; a public operation makes the room that it needs first.

Key definitions: `Bsw.Ok`, `Appends`.
Key theorems: `bswAtom64_spec`, `bswAtomBytes_spec`, `bswBack64_spec`, `bswCell_spec`,
`bitAt_bswDone`.
-/
import Ursockets.Bitstream
import Ursockets.Jam

namespace Ursockets
namespace Bitstream

open Bits Jam

theorem shiftRight_three (n : ℕ) : n >>> 3 = n / 8 := Nat.shiftRight_eq_div_pow n 3

theorem and_seven (n : ℕ) : n &&& 7 = n % 8 := Nat.and_two_pow_sub_one_eq_mod n 3

theorem bloqUp3_eq (a : ℕ) : bloqUp3 a = (a + 7) / 8 := shiftRight_three _

theorem testBit_mask (a n k : ℕ) : (a &&& mask n).testBit k = (decide (k < n) && a.testBit k) := by
  rw [mask, Nat.shiftLeft_eq, Nat.one_mul, Nat.testBit_and, Nat.testBit_two_pow_sub_one, Bool.and_comm]

theorem testBit_masked_shift (a n o k : ℕ) :
    ((a &&& mask n) <<< o).testBit k = (decide (o ≤ k) && (decide (k < o + n) && a.testBit (k - o))) := by
  rw [Nat.testBit_shiftLeft, testBit_mask]
  by_cases h : o ≤ k
  · have h1 : k - o < n ↔ k < o + n := by omega
    simp [h, h1]
  · simp [h]

/-! ### What it means to append -/

/-- The writer's invariant: the cursor is in the buffer, and all bits past it
are zero. -/
structure Bsw.Ok (w : Bsw) : Prop where
  off_lt : w.off < 8
  cur : 8 * w.fill + w.off = w.bits
  room : w.bits < 8 * w.size
  clear : ∀ i, w.bits ≤ i → bitAt w.bytes i = false

/-- `w'` is `w` with the bits `bs` appended. -/
structure Appends (w w' : Bsw) (bs : List Bool) : Prop where
  ok : w'.Ok
  bits : w'.bits = w.bits + bs.length
  out : ∀ i, bitAt w'.bytes i = if i < w.bits then bitAt w.bytes i else bs.getD (i - w.bits) false

theorem Appends.trans {w w' w'' : Bsw} {bs bs' : List Bool} (h : Appends w w' bs)
    (h' : Appends w' w'' bs') : Appends w w'' (bs ++ bs') := by
  refine ⟨h'.ok, by rw [h'.bits, h.bits, List.length_append, Nat.add_assoc], fun i => ?_⟩
  have hb := h.bits
  rw [h'.out]
  by_cases h1 : i < w'.bits
  · rw [if_pos h1, h.out]
    by_cases h2 : i < w.bits
    · rw [if_pos h2, if_pos h2]
    · rw [if_neg h2, if_neg h2, List.getD_append _ _ _ _ (by omega)]
  · rw [if_neg h1, if_neg (by omega), List.getD_append_right _ _ _ _ (by omega)]
    congr 1; omega

/-- A writer appends if it exclusive-ors the new bits in past the cursor. -/
theorem appends_of_bits {w w' : Bsw} (h : w.Ok) {n : ℕ} {f : ℕ → Bool} (ho : w'.off < 8)
    (hc : 8 * w'.fill + w'.off = w.bits + n) (hb : w'.bits = w.bits + n)
    (hr : w.bits + n < 8 * w'.size)
    (hf : ∀ i, bitAt w'.bytes i = (bitAt w.bytes i ^^
      (decide (w.bits ≤ i) && (decide (i < w.bits + n) && f (i - w.bits))))) :
    Appends w w' (bitsOf n f) := by
  refine ⟨⟨ho, by omega, by omega, fun i hi => ?_⟩, by rw [length_bitsOf, hb], fun i => ?_⟩
  · rw [hf, h.clear i (by omega)]
    simp [show ¬ i < w.bits + n by omega]
  · rw [hf, getD_bitsOf]
    by_cases h1 : i < w.bits
    · simp [h1, show ¬ w.bits ≤ i by omega]
    · have h2 : i - w.bits < n ↔ i < w.bits + n := by omega
      simp [h1, show w.bits ≤ i by omega, h.clear i (by omega), h2]

/-! ### The unsafe operations -/

theorem Bsw.Ok.fill_lt {w : Bsw} (h : w.Ok) : w.fill < w.bytes.length := by
  have h1 := h.cur
  have h2 := h.room
  rw [Bsw.size] at h2
  omega

/-- Bits that fit into the byte of the cursor are exclusive-ored into it. -/
theorem bitAt_xor_cursor {w : Bsw} (h : w.Ok) {n : ℕ} (v : ℕ) (hn : w.off + n ≤ 8) (i : ℕ) :
    bitAt (xorByte w.bytes w.fill ((v &&& mask n) <<< w.off)) i = (bitAt w.bytes i ^^
      (decide (w.bits ≤ i) && (decide (i < w.bits + n) && v.testBit (i - w.bits)))) := by
  have hc := h.cur
  rw [bitAt_xorByte h.fill_lt, testBit_masked_shift]
  split
  · have h1 : w.off ≤ i % 8 ↔ w.bits ≤ i := by omega
    have h2 : i % 8 < w.off + n ↔ i < w.bits + n := by omega
    have h3 : i % 8 - w.off = i - w.bits := by omega
    rw [h3]; simp only [h1, h2]
  · have h1 : ¬ (w.bits ≤ i ∧ i < w.bits + n) := by omega
    by_cases h2 : w.bits ≤ i
    · simp [h2, show ¬ i < w.bits + n by omega]
    · simp [h2]

theorem bswBitUnsafe_spec {w : Bsw} (h : w.Ok) (bit : ℕ) (hr : w.bits + 1 < 8 * w.size) :
    Appends w (bswBitUnsafe w bit) (ofNat 1 bit) ∧ (bswBitUnsafe w bit).size = w.size := by
  have hc := h.cur
  have ho := h.off_lt
  have hbits := bitAt_xor_cursor h (n := 1) bit (by omega)
  rw [bswBitUnsafe, ofNat]
  split
  · refine ⟨appends_of_bits h (Nat.zero_lt_succ 7) ?_ rfl ?_ hbits, ?_⟩ <;>
      simp only [Bsw.size, length_xorByte] at * <;> omega
  · refine ⟨appends_of_bits h ?_ ?_ rfl ?_ hbits, ?_⟩ <;>
      simp only [Bsw.size, length_xorByte] at * <;> omega

theorem bsw8Unsafe_spec {w : Bsw} (h : w.Ok) {len : ℕ} (byt : ℕ) (hl : len ≤ 8)
    (hr : w.bits + len < 8 * w.size) :
    Appends w (bsw8Unsafe w len byt) (ofNat len byt) ∧ (bsw8Unsafe w len byt).size = w.size := by
  have hc := h.cur
  have ho := h.off_lt
  rw [bsw8Unsafe, ofNat]
  simp only []
  split
  · have hbits := bitAt_xor_cursor h (n := len) byt (by omega)
    refine ⟨appends_of_bits h ?_ ?_ rfl ?_ hbits, ?_⟩ <;>
      simp only [Bsw.size, length_xorByte] at * <;> omega
  · have hbits := bitAt_xor_cursor h (n := 8 - w.off) byt (by omega)
    have hs : w.fill + 1 < w.bytes.length := by rw [Bsw.size] at hr; omega
    refine ⟨appends_of_bits h ?_ ?_ rfl ?_ fun i => ?_, ?_⟩
    · show len - (8 - w.off) < 8; omega
    · show 8 * (w.fill + 1) + (len - (8 - w.off)) = _; omega
    · simp only [Bsw.size, length_xorByte, List.length_set] at *; omega
    · rw [bitAt_set (by rwa [length_xorByte]), hbits, testBit_ofNat, testBit_mask,
        Nat.testBit_shiftRight]
      split
      · have h1 : i % 8 < len - (8 - w.off) ↔ i < w.bits + len := by omega
        have h2 : 8 - w.off + i % 8 = i - w.bits := by omega
        rw [h.clear i (by omega), h2]
        simp [h1, show i % 8 < 8 by omega, show w.bits ≤ i by omega]
      · have h1 : w.bits ≤ i → (i < w.bits + (8 - w.off) ↔ i < w.bits + len) := by omega
        by_cases h2 : w.bits ≤ i
        · simp [h1 h2]
        · simp [h2]
    · simp only [Bsw.size, length_xorByte, List.length_set]

/-- The whole bytes and the tail of a string, stored from the start of a byte. -/
theorem appends_store {w w' : Bsw} (h : w.Ok) (ho : w.off = 0) {n t : ℕ} {f : ℕ → ℕ}
    {g : ℕ → Bool} (hr : w.bits + n < 8 * w.size) (hs : w'.size = w.size)
    (hfill : w'.fill = w.fill + n / 8) (hoff : w'.off = n % 8) (hb : w'.bits = w.bits + n)
    (hf : ∀ j k, j < n / 8 → k < 8 → (f j).testBit k = g (8 * j + k))
    (ht : ∀ k, k < n % 8 → t.testBit k = g (8 * (n / 8) + k))
    (hw : w'.bytes = storeBytes w.bytes w.fill (n / 8) f ∧ n % 8 = 0 ∨
      w'.bytes = (storeBytes w.bytes w.fill (n / 8) f).set (w.fill + n / 8)
        (UInt8.ofNat (t &&& mask (n % 8)))) :
    Appends w w' (bitsOf n g) := by
  have hc := h.cur
  have hlen : w.fill + n / 8 < w.bytes.length := by rw [Bsw.size] at hr; omega
  refine appends_of_bits h (by omega) (by omega) hb (by rwa [hs]) fun i => ?_
  have hst := bitAt_storeBytes i (l := w.bytes) (i := w.fill) (f := f) (Nat.le_of_lt hlen)
  have hbody : w.fill ≤ i / 8 ∧ i / 8 < w.fill + n / 8 →
      bitAt (storeBytes w.bytes w.fill (n / 8) f) i = (bitAt w.bytes i ^^
      (decide (w.bits ≤ i) && (decide (i < w.bits + n) && g (i - w.bits)))) := by
    intro h1
    rw [hst, if_pos h1, hf _ _ (by omega) (by omega), h.clear i (by omega)]
    have h2 : 8 * (i / 8 - w.fill) + i % 8 = i - w.bits := by omega
    simp [h2, show w.bits ≤ i by omega, show i < w.bits + n by omega]
  have hout : ¬ (w.fill ≤ i / 8 ∧ i / 8 < w.fill + n / 8) → (i / 8 ≠ w.fill + n / 8 ∨ n % 8 = 0) →
      bitAt (storeBytes w.bytes w.fill (n / 8) f) i = (bitAt w.bytes i ^^
      (decide (w.bits ≤ i) && (decide (i < w.bits + n) && g (i - w.bits)))) := by
    intro h1 h2
    rw [hst, if_neg h1]
    by_cases h3 : w.bits ≤ i
    · simp [show ¬ i < w.bits + n by omega]
    · simp [h3]
  rcases hw with ⟨hw, h0⟩ | hw
  · rw [hw]
    by_cases h1 : w.fill ≤ i / 8 ∧ i / 8 < w.fill + n / 8
    · exact hbody h1
    · exact hout h1 (.inr h0)
  · rw [hw, bitAt_set (by rwa [length_storeBytes])]
    split
    · rename_i h1
      rw [testBit_ofNat, testBit_mask, h.clear i (by omega)]
      by_cases h2 : i % 8 < n % 8
      · have h3 : 8 * (n / 8) + i % 8 = i - w.bits := by omega
        rw [ht _ h2, h3]
        simp [h2, show i % 8 < 8 by omega, show w.bits ≤ i by omega, show i < w.bits + n by omega]
      · simp [h2, show ¬ i < w.bits + n by omega]
    · rename_i h1
      by_cases h2 : w.fill ≤ i / 8 ∧ i / 8 < w.fill + n / 8
      · exact hbody h2
      · exact hout h2 (.inl h1)

theorem bsw64Aligned_spec {w : Bsw} (h : w.Ok) (ho : w.off = 0) {len : ℕ} (val : ℕ)
    (hr : w.bits + len < 8 * w.size) :
    Appends w (bsw64Aligned w len val) (ofNat len val) ∧ (bsw64Aligned w len val).size = w.size := by
  have hs : (bsw64Aligned w len val).size = w.size := by
    rw [bsw64Aligned, Bsw.size, Bsw.size]
    simp only []
    split
    · rw [List.length_set, length_storeBytes]
    · rw [length_storeBytes]
  refine ⟨appends_store (t := val >>> (8 * (len >>> 3))) (f := fun j => val >>> (8 * j)) h ho hr hs
    (by rw [← shiftRight_three]; rfl) (by rw [← and_seven]; rfl) rfl (fun j k _ _ => ?_)
    (fun k _ => ?_) ?_, hs⟩
  · rw [Nat.testBit_shiftRight]
  · rw [Nat.testBit_shiftRight, shiftRight_three]
  · rw [bsw64Aligned]
    simp only [and_seven, shiftRight_three]
    split
    · exact .inr rfl
    · rename_i h0; exact .inl ⟨rfl, not_not.mp h0⟩

theorem bsw64Unsafe_spec {w : Bsw} (h : w.Ok) {len : ℕ} (val : ℕ) (hr : w.bits + len < 8 * w.size) :
    Appends w (bsw64Unsafe w len val) (ofNat len val) ∧ (bsw64Unsafe w len val).size = w.size := by
  have hc := h.cur
  have ho := h.off_lt
  rw [bsw64Unsafe]
  split
  · simp only []
    split
    · have hbits := bitAt_xor_cursor h (n := len) val (by omega)
      refine ⟨appends_of_bits h ?_ ?_ rfl ?_ hbits, ?_⟩ <;>
        simp only [Bsw.size, length_xorByte] at * <;> omega
    · -- the byte of the cursor is filled up, and the rest is aligned
      have hbits := bitAt_xor_cursor h (n := 8 - w.off) val (by omega)
      set w1 : Bsw := { w with
        bytes := xorByte w.bytes w.fill ((val &&& mask (8 - w.off)) <<< w.off),
        fill := w.fill + 1, off := 0, bits := w.bits + (8 - w.off) } with hw1
      have hsize : w1.size = w.size := by simp only [Bsw.size, hw1, length_xorByte]
      have happ : Appends w w1 (ofNat (8 - w.off) val) := by
        refine appends_of_bits h (Nat.zero_lt_succ 7) ?_ rfl (by omega) hbits
        show 8 * (w.fill + 1) + 0 = _
        omega
      have hr1 : w1.bits + (len - (8 - w.off)) < 8 * w1.size := by
        rw [hsize]
        show w.bits + (8 - w.off) + _ < _
        omega
      obtain ⟨h1, h2⟩ := bsw64Aligned_spec happ.ok rfl (val >>> (8 - w.off)) hr1
      refine ⟨?_, h2.trans hsize⟩
      have hsum : len = 8 - w.off + (len - (8 - w.off)) := by omega
      have happend := happ.trans h1
      rwa [← ofNat_append, ← hsum] at happend
  · rename_i h0
    exact bsw64Aligned_spec h (not_not.mp h0) val hr

theorem bswBytesUnsafe_spec {w : Bsw} (h : w.Ok) {len : ℕ} (src : List UInt8)
    (hr : w.bits + len < 8 * w.size) :
    Appends w (bswBytesUnsafe w len src) (bitsOf len (bitAt src)) ∧
      (bswBytesUnsafe w len src).size = w.size := by
  have hc := h.cur
  have ho := h.off_lt
  have hbyt : ∀ j k, k < 8 → (src.getD j 0).toNat.testBit k = bitAt src (8 * j + k) :=
    fun j k hk => testBit_getD src hk
  rw [bswBytesUnsafe]
  simp only [and_seven, shiftRight_three]
  split
  · rename_i h0
    split
    · refine ⟨appends_store h h0 hr ?_ rfl rfl rfl (fun j k _ hk => hbyt j k hk)
        (fun k hk => hbyt _ k (by omega)) (.inr rfl), ?_⟩ <;>
        simp only [Bsw.size, List.length_set, length_storeBytes]
    · rename_i hm
      refine ⟨appends_store (t := 0) h h0 hr ?_ rfl ?_ rfl (fun j k _ hk => hbyt j k hk)
        (fun k hk => ?_) (.inl ⟨rfl, not_not.mp hm⟩), ?_⟩
      · simp only [Bsw.size, length_storeBytes]
      · show w.off = _; omega
      · omega
      · simp only [Bsw.size, length_storeBytes]
  · rename_i h0
    split
    · rename_i hlen
      have hbits := bitAt_xor_cursor h (n := len) (src.getD 0 0).toNat (by omega)
      refine ⟨appends_of_bits h ?_ ?_ rfl ?_ fun i => ?_, ?_⟩
      · show (w.off + len) % 8 < 8; omega
      · show 8 * (if (w.off + len) / 8 ≠ 0 then w.fill + 1 else w.fill) + (w.off + len) % 8 = _
        split <;> omega
      · simp only [Bsw.size, length_xorByte] at *; omega
      · rw [hbits]
        by_cases h1 : w.bits ≤ i ∧ i < w.bits + len
        · rw [hbyt 0 _ (by omega), Nat.mul_zero, Nat.zero_add]
        · by_cases h2 : w.bits ≤ i
          · simp [show ¬ i < w.bits + len by omega]
          · simp [h2]
      · simp only [Bsw.size, length_xorByte]
    · rename_i hlen
      have hsh : ∀ a k, (a >>> (8 - w.off)).testBit k = a.testBit (8 - w.off + k) :=
        fun a k => Nat.testBit_shiftRight a
      -- the byte of the cursor takes the first bits
      have hbits : ∀ i, bitAt (xorByte w.bytes w.fill ((src.getD 0 0).toNat <<< w.off)) i =
          (bitAt w.bytes i ^^ (decide (w.bits ≤ i) && (decide (i < w.bits + (8 - w.off)) &&
            bitAt src (i - w.bits)))) := by
        intro i
        rw [bitAt_xorByte h.fill_lt, Nat.testBit_shiftLeft]
        split
        · have h1 : w.off ≤ i % 8 ↔ w.bits ≤ i := by omega
          by_cases h2 : w.bits ≤ i
          · rw [hbyt 0 _ (by omega)]
            have h3 : i % 8 - w.off = i - w.bits := by omega
            simp [h1, h2, h3, show i < w.bits + (8 - w.off) by omega]
          · simp [h1, h2]
        · by_cases h2 : w.bits ≤ i
          · simp [show ¬ i < w.bits + (8 - w.off) by omega]
          · simp [h2]
      set w1 : Bsw := { w with
        bytes := xorByte w.bytes w.fill ((src.getD 0 0).toNat <<< w.off),
        fill := w.fill + 1, off := 0, bits := w.bits + (8 - w.off) } with hw1
      have hsize : w1.size = w.size := by simp only [Bsw.size, hw1, length_xorByte]
      have happ : Appends w w1 (bitsOf (8 - w.off) (bitAt src)) := by
        refine appends_of_bits h (Nat.zero_lt_succ 7) ?_ rfl (by omega) hbits
        show 8 * (w.fill + 1) + 0 = _
        omega
      have hr1 : w1.bits + (len - (8 - w.off)) < 8 * w1.size := by
        rw [hsize]
        show w.bits + (8 - w.off) + _ < _
        omega
      -- a byte that is shifted in takes its high bits from the next one
      have hbyte : ∀ j k, k < 8 → (((src.getD j 0).toNat >>> (8 - w.off)) ^^^
          ((src.getD (j + 1) 0).toNat <<< w.off)).testBit k = bitAt src (8 - w.off + (8 * j + k)) := by
        intro j k hk
        rw [Nat.testBit_xor, hsh, Nat.testBit_shiftLeft]
        by_cases h1 : w.off ≤ k
        · rw [testBit_byte (by omega), hbyt _ _ (by omega)]
          have h3 : 8 * (j + 1) + (k - w.off) = 8 - w.off + (8 * j + k) := by omega
          simp [h1, h3]
        · rw [hbyt _ _ (by omega)]
          have h3 : 8 * j + (8 - w.off + k) = 8 - w.off + (8 * j + k) := by omega
          simp [h1, h3]
      have hsum : len = 8 - w.off + (len - (8 - w.off)) := by omega
      have hsplit := bitsOf_append (8 - w.off) (len - (8 - w.off)) (bitAt src)
      rw [← hsum] at hsplit
      rw [hsplit]
      refine ⟨happ.trans (appends_store happ.ok rfl hr1 ?_ ?_ rfl ?_
        (fun j k _ hk => hbyte j k hk) (fun k hk => ?_) (.inr rfl)), ?_⟩
      · simp only [Bsw.size, List.length_set, length_storeBytes, length_xorByte, hw1]
      · show w.fill + (len - (8 - w.off)) / 8 + 1 = w.fill + 1 + _; omega
      · show w.bits + len = w.bits + (8 - w.off) + _; omega
      · split
        · rename_i h1
          rw [Nat.xor_zero, hsh, hbyt _ _ (by omega)]
          congr 1; omega
        · exact hbyte _ k (by omega)
      · simp only [Bsw.size, List.length_set, length_storeBytes, length_xorByte]

theorem bswBexUnsafe_spec {w : Bsw} (h : w.Ok) (n : ℕ) (hr : w.bits + (n + 1) < 8 * w.size) :
    Appends w (bswBexUnsafe w n) (bitsOf (n + 1) fun i => decide (i = n)) ∧
      (bswBexUnsafe w n).size = w.size := by
  have hc := h.cur
  have ho := h.off_lt
  have hbits : ∀ i, bitAt (xorByte w.bytes (w.fill + (n + w.off) / 8) (1 <<< ((n + w.off) % 8))) i =
      (bitAt w.bytes i ^^ (decide (w.bits ≤ i) && (decide (i < w.bits + (n + 1)) &&
        decide (i - w.bits = n)))) := by
    intro i
    rw [bitAt_xorByte (by rw [Bsw.size] at hr; omega), Nat.shiftLeft_eq, Nat.one_mul,
      Nat.testBit_two_pow]
    split
    · have h1 : (n + w.off) % 8 = i % 8 ↔ w.bits ≤ i ∧ i < w.bits + (n + 1) ∧ i - w.bits = n := by
        omega
      simp only [h1, Bool.decide_and]
    · have h1 : ¬ (w.bits ≤ i ∧ i < w.bits + (n + 1) ∧ i - w.bits = n) := by omega
      rw [← Bool.decide_and, ← Bool.decide_and, decide_eq_false h1, Bool.xor_false]
  rw [bswBexUnsafe]
  simp only [and_seven, shiftRight_three]
  split
  · refine ⟨appends_of_bits h (Nat.zero_lt_succ 7) ?_ ?_ ?_ hbits, ?_⟩ <;>
      simp only [Bsw.size, length_xorByte] at * <;> omega
  · refine ⟨appends_of_bits h ?_ ?_ ?_ ?_ hbits, ?_⟩ <;>
      simp only [Bsw.size, length_xorByte] at * <;> omega

/-! ### The public operations -/

theorem length_mat (bs : List Bool) : (mat bs).length = matLen bs.length := by
  rw [mat, matLen]
  split
  · rename_i h; rw [h]; rfl
  · rename_i h
    have h1 : bs.length ≠ 0 := fun h0 => h (List.length_eq_zero_iff.mp h0)
    have h2 := met0_pos h1
    rw [if_neg h1]
    simp only [List.length_append, length_bitsOf, length_ofNat]
    omega

/-- A length and what stands for its bits are appended alike for both kinds of atoms. -/
theorem appends_mat {w : Bsw} (h : w.Ok) {n : ℕ} {f : ℕ → Bool} (body : Bsw → Bsw)
    (hr : w.bits + matLen n < 8 * w.size)
    (hb : ∀ w : Bsw, w.Ok → w.bits + n < 8 * w.size →
      Appends w (body w) (bitsOf n f) ∧ (body w).size = w.size) :
    Appends w (if n = 0 then bswBitUnsafe w 1
      else body (bsw64Unsafe (bswBexUnsafe w (met0 n)) (met0 n - 1) n)) (mat (bitsOf n f)) := by
  rw [matLen] at hr
  split
  · rename_i h0
    subst h0
    exact (bswBitUnsafe_spec h 1 hr).1
  · rename_i h0
    rw [if_neg h0] at hr
    have hpos := met0_pos h0
    obtain ⟨h1, hs1⟩ := bswBexUnsafe_spec h (met0 n) (by omega)
    have hb1 := h1.bits
    rw [length_bitsOf] at hb1
    have hroom : (bswBexUnsafe w (met0 n)).bits + (met0 n - 1) < 8 * (bswBexUnsafe w (met0 n)).size := by
      rw [hs1, hb1]; omega
    obtain ⟨h2, hs2⟩ := bsw64Unsafe_spec h1.ok n hroom
    have hb2 := h2.bits
    rw [length_ofNat] at hb2
    obtain ⟨h3, -⟩ := hb _ h2.ok (by rw [hs2, hs1, hb2, hb1]; omega)
    have hne : bitsOf n f ≠ [] := fun hnil => h0 (by rw [← length_bitsOf n f, hnil]; rfl)
    rw [mat, if_neg hne, length_bitsOf]
    exact (h1.trans h2).trans h3

theorem appends_nil {w : Bsw} (h : w.Ok) : Appends w w [] := by
  refine ⟨h, rfl, fun i => ?_⟩
  split
  · rfl
  · rename_i h1; exact h.clear i (by omega)

/-- A buffer that has grown holds what it held. -/
theorem bswGrow_spec {w : Bsw} (h : w.Ok) (step : ℕ) :
    Appends w (bswGrow w step) [] ∧ (bswGrow w step).size = w.size + step := by
  have hs : (bswGrow w step).size = w.size + step := by
    rw [Bsw.size, bswGrow, List.length_append, List.length_replicate]; rfl
  have hclear : ∀ i, bitAt (bswGrow w step).bytes i = bitAt w.bytes i := bitAt_append_replicate _ _
  have hr := h.room
  refine ⟨⟨⟨h.off_lt, h.cur, ?_, fun i hi => (hclear i).trans (h.clear i hi)⟩, rfl, fun i => ?_⟩, hs⟩
  · rw [hs]; show w.bits < _; omega
  · rw [hclear]
    exact (appends_nil h).out i

/-- After the check of its size the buffer has room for the bits. -/
theorem bswNeed_spec {w : Bsw} (h : w.Ok) {m n : ℕ} (hm : m = w.off + n) :
    Appends w (bswNeed w (bloqUp3 m)) [] ∧ w.bits + n < 8 * (bswNeed w (bloqUp3 m)).size ∧
      (bswNeed w (bloqUp3 m)).bits = w.bits := by
  have hc := h.cur
  have ho := h.off_lt
  have hr := h.room
  obtain ⟨need, hn⟩ : ∃ need, bloqUp3 m = need := ⟨_, rfl⟩
  rw [hn]
  rw [bloqUp3_eq] at hn
  rw [bswNeed]
  split
  · obtain ⟨h1, h2⟩ := bswGrow_spec h (max need w.prev)
    exact ⟨h1, by rw [h2]; omega, rfl⟩
  · exact ⟨appends_nil h, by omega, rfl⟩

theorem bswMat64Unsafe_spec {w : Bsw} (h : w.Ok) (len val : ℕ)
    (hr : w.bits + matLen len < 8 * w.size) :
    Appends w (bswMat64Unsafe w len val) (mat (ofNat len val)) :=
  appends_mat h (fun w => bsw64Unsafe w len val) hr fun _ h hr => bsw64Unsafe_spec h val hr

theorem bswMatBytesUnsafe_spec {w : Bsw} (h : w.Ok) (len : ℕ) (byt : List UInt8)
    (hr : w.bits + matLen len < 8 * w.size) :
    Appends w (bswMatBytesUnsafe w len byt) (mat (bitsOf len (bitAt byt))) :=
  appends_mat h (fun w => bswBytesUnsafe w len byt) hr fun _ h hr =>
    bswBytesUnsafe_spec h byt hr

/-- **`ur_bsw_atom64` appends an atom.** -/
theorem bswAtom64_spec {w : Bsw} (h : w.Ok) {len : ℕ} (val : ℕ) (hl : len ≤ 64) :
    Appends w (bswAtom64 w len val) (false :: mat (ofNat len val)) := by
  rw [bswAtom64, Nat.min_eq_right hl]
  obtain ⟨h1, hr, hb⟩ := bswNeed_spec h (m := 1 + w.off + matLen len) (n := 1 + matLen len)
    (by omega)
  obtain ⟨h2, hs⟩ := bswBitUnsafe_spec h1.ok 0 (by omega)
  have hb2 := h2.bits
  rw [length_ofNat] at hb2
  exact (h1.trans h2).trans (bswMat64Unsafe_spec h2.ok len val (by rw [hs]; omega))

/-- **`ur_bsw_atom_bytes` appends an atom.** -/
theorem bswAtomBytes_spec {w : Bsw} (h : w.Ok) (len : ℕ) (byt : List UInt8) :
    Appends w (bswAtomBytes w len byt) (false :: mat (bitsOf len (bitAt byt))) := by
  rw [bswAtomBytes]
  obtain ⟨h1, hr, hb⟩ := bswNeed_spec h (m := 1 + w.off + matLen len) (n := 1 + matLen len)
    (by omega)
  obtain ⟨h2, hs⟩ := bswBitUnsafe_spec h1.ok 0 (by omega)
  have hb2 := h2.bits
  rw [length_ofNat] at hb2
  exact (h1.trans h2).trans (bswMatBytesUnsafe_spec h2.ok len byt (by rw [hs]; omega))

/-- **`ur_bsw_back64` appends a back-reference.** -/
theorem bswBack64_spec {w : Bsw} (h : w.Ok) {len : ℕ} (val : ℕ) (hl : len ≤ 64) :
    Appends w (bswBack64 w len val) (true :: true :: mat (ofNat len val)) := by
  rw [bswBack64, Nat.min_eq_right hl]
  obtain ⟨h1, hr, hb⟩ := bswNeed_spec h (m := 2 + w.off + matLen len) (n := 2 + matLen len)
    (by omega)
  have htwo : 2 ≤ 8 := by decide
  obtain ⟨h2, hs⟩ := bsw8Unsafe_spec h1.ok 3 htwo (by omega)
  have hb2 := h2.bits
  rw [length_ofNat] at hb2
  exact (h1.trans h2).trans (bswMat64Unsafe_spec h2.ok len val (by rw [hs]; omega))

/-- **`ur_bsw_cell` appends the tag of a cell.** -/
theorem bswCell_spec {w : Bsw} (h : w.Ok) : Appends w (bswCell w) [true, false] := by
  rw [bswCell]
  obtain ⟨h1, hr, hb⟩ := bswNeed_spec h (Nat.add_comm 2 w.off)
  have htwo : 2 ≤ 8 := by decide
  obtain ⟨h2, -⟩ := bsw8Unsafe_spec h1.ok 1 htwo (by omega)
  exact h1.trans h2

/-! ### The bytes written -/

theorem bswInit_ok (prev : ℕ) {size : ℕ} (hs : 0 < size) : (bswInit prev size).Ok := by
  refine ⟨Nat.zero_lt_succ 7, rfl, ?_, fun i _ => bitAt_replicate size i⟩
  show 0 < 8 * (List.replicate size (0 : UInt8)).length
  rw [List.length_replicate]
  omega

/-- The bytes written are the bits appended, and zeros up to a whole byte. -/
theorem bswDone_spec {w : Bsw} (h : w.Ok) :
    (bswDone w).length = (w.bits + 7) / 8 ∧ ∀ i, bitAt (bswDone w) i = bitAt w.bytes i := by
  have hc := h.cur
  have ho := h.off_lt
  have hr := h.room
  rw [Bsw.size] at hr
  have hn : (w.fill + if w.off ≠ 0 then 1 else 0) = (w.bits + 7) / 8 := by split <;> omega
  rw [bswDone, hn]
  refine ⟨by rw [List.length_take]; omega, fun i => ?_⟩
  rcases Nat.lt_or_ge i (8 * ((w.bits + 7) / 8)) with hi | hi
  · exact bitAt_take hi
  · rw [bitAt_of_le (by rw [List.length_take]; omega), h.clear i (by omega)]

/-- What a new writer has appended stands at the start of the bytes it wrote. -/
theorem standsAt_bswDone {prev size : ℕ} {w : Bsw} {bs : List Bool} (h : Appends (bswInit prev size) w bs) :
    StandsAt (bswDone w) 0 bs ∧ (bswDone w).length = (bs.length + 7) / 8 := by
  have hb : w.bits = bs.length := by rw [h.bits]; exact Nat.zero_add _
  obtain ⟨h1, h2⟩ := bswDone_spec h.ok
  rw [hb] at h1
  refine ⟨⟨by omega, fun i hi => ?_⟩, h1⟩
  have h0 : (bswInit prev size).bits = 0 := rfl
  rw [Nat.zero_add, h2, h.out, h0, if_neg (Nat.not_lt_zero i)]
  exact List.getD_eq_getElem _ _ hi

end Bitstream
end Ursockets
