/-
# Reading a part of an atom

The readers of `noun/retrieve.c` that take a part of an atom of the loom: a bit, a
byte, and the bytes, words or double words from an offset on, copied to memory of
the caller or to a fresh allocation. Offsets and lengths have 32 bits, and so do
the counts of bytes computed from them.

Memory is the byte at each offset from the destination. A reader is `none` where
it shifts a word by its width, which C leaves undefined.

Key definitions: `u3rBytes`, `u3rWords`, `u3rChubs`, `u3rBytesAlloc`, `ReadsRight`, `Reader.Fits`.
Key theorems: `bytes_spec`, `words_spec`, `reads_right_iff`.
-/
import Ursockets.Retrieve

namespace Ursockets
namespace Retrieve

open Words

/-! ### Memory -/

/-- The byte at each offset. -/
abbrev Mem : Type := ℕ → UInt8

/-- `memcpy` of `n` bytes to offset `off`. -/
def memcpy (mem : Mem) (off : ℕ) (src : Mem) (n : ℕ) : Mem :=
  fun i => if off ≤ i ∧ i < off + n then src (i - off) else mem i

/-- `memset` of `n` bytes at offset `off` to zero. -/
def memzero (mem : Mem) (off n : ℕ) : Mem := fun i => if off ≤ i ∧ i < off + n then 0 else mem i

/-- Byte `i` of a number. -/
def byteOf (x i : ℕ) : UInt8 := UInt8.ofNat (x >>> (8 * i))

/-- The memory of a buffer of words. -/
def bufMem (buf : List UInt32) : Mem := fun i => UInt8.ofNat ((buf.getD (i / 4) 0).toNat >>> (8 * (i % 4)))

/-! ### The readers -/

/-- `u3r_bit`. -/
def u3rBit (m : Loom) (a b : ℕ) : ℕ :=
  if isCat b then (if 31 ≤ a then 0 else 1 &&& (b >>> a))
  else
    let vut := a &&& 31
    let pix := a >>> 5
    if (bufOf m b).length ≤ pix then 0 else 1 &&& (((bufOf m b).getD pix 0).toNat >>> vut)

/-- `u3r_byte`. -/
def u3rByte (m : Loom) (a b : ℕ) : ℕ :=
  if isCat b then (if 3 < a then 0 else 255 &&& (b >>> (a <<< 3)))
  else
    let vut := a &&& 3
    let pix := a >>> 2
    if (bufOf m b).length ≤ pix then 0 else 255 &&& (((bufOf m b).getD pix 0).toNat >>> (vut <<< 3))

/-- `u3r_bytes`: bytes `a` to `a + b - 1` of `d`. -/
def u3rBytes (m : Loom) (a b d : ℕ) (mem : Mem) : Option Mem :=
  if isCat d then
    -- from the fourth byte on the shift is by 32
    if 32 ≤ min a 4 <<< 3 then none
    else
      let e := d >>> (min a 4 <<< 3)
      let mem := memcpy mem 0 (byteOf e) (min b 4)
      some (if 4 < b then memzero mem 4 (b - 4) else mem)
  else
    let buf := bufOf m d
    let n := (buf.length <<< 2) % 2 ^ 32
    if n ≤ a then some (memzero mem 0 b)
    else
      let z := min b (n - a)
      let mem := memcpy mem 0 (fun i => bufMem buf (a + i)) z
      some (if n - a < b then memzero mem z ((b + a + 2 ^ 32 - n) % 2 ^ 32) else mem)

/-- `u3r_bytes_alloc`, over the memory of the fresh allocation of `len` bytes. -/
def u3rBytesAlloc (m : Loom) (a len b : ℕ) (mem : Mem) : Option Mem :=
  u3rBytes m a ((a + len) % 2 ^ 32) b mem

/-- `u3r_words`: words `a` to `a + b - 1` of `d`. -/
def u3rWords (m : Loom) (a b d : ℕ) (mem : Mem) : Mem :=
  if b = 0 then mem
  else if isCat d then
    if a = 0 then memzero (memcpy mem 0 (byteOf d) 4) 4 (((b - 1) <<< 2) % 2 ^ 32)
    else memzero mem 0 ((b <<< 2) % 2 ^ 32)
  else
    let buf := bufOf m d
    if buf.length ≤ a then memzero mem 0 ((b <<< 2) % 2 ^ 32)
    else
      let z := min b (buf.length - a)
      let mem := memcpy mem 0 (fun i => bufMem buf (4 * a + i)) ((z <<< 2) % 2 ^ 32)
      if buf.length - a < b then memzero mem (4 * z) (((b + a - buf.length) <<< 2) % 2 ^ 32) else mem

/-- `u3r_chubs`: double words `a` to `a + b - 1` of `d`. -/
def u3rChubs (m : Loom) (a b d : ℕ) (mem : Mem) : Mem :=
  u3rWords m (a * 2 % 2 ^ 32) (b * 2 % 2 ^ 32) d mem

/-- The readers. -/
inductive Reader where
  | bit | byte | bytes | words | chubs | bytesAlloc
  deriving DecidableEq, Repr

/-- The memory holds `n` bytes of `x` from byte `k` on, and past them what it held. -/
def Holds (mem mem' : Mem) (x k n : ℕ) : Prop := ∀ i, mem' i = if i < n then byteOf x (k + i) else mem i

/-- A reader gives the part of `x` that was asked for, and writes no more than it,
whatever the memory was. -/
def ReadsRight (m : Loom) (a b d x : ℕ) : Reader → Prop
  | .bit => u3rBit m a d = (x.testBit a).toNat
  | .byte => u3rByte m a d = (byteOf x a).toNat
  | .bytes => ∀ mem, ∃ mem', u3rBytes m a b d mem = some mem' ∧ Holds mem mem' x a b
  | .words => ∀ mem, Holds mem (u3rWords m a b d mem) x (4 * a) (4 * b)
  | .chubs => ∀ mem, Holds mem (u3rChubs m a b d mem) x (8 * a) (8 * b)
  | .bytesAlloc => ∀ mem, ∃ mem', u3rBytesAlloc m a b d mem = some mem' ∧ Holds mem mem' x a b

/-! ### Where the counts fit -/

/-- A direct atom is read from its first word only; of an indirect one, the bytes
past the count that its length wraps around to are zero. -/
def BytesFit (a b x : ℕ) : Prop :=
  (x < 2 ^ 31 → a < 4) ∧
    (2 ^ 31 ≤ x → ∀ i < b, 4 * (wordsOf x).length % 2 ^ 32 ≤ a + i → byteOf x (a + i) = 0)

/-- Neither what is copied nor what is filled up has 2^32 bytes. -/
def WordsFit (a b x : ℕ) : Prop :=
  if x < 2 ^ 31 then b < 2 ^ 30 ∨ (a = 0 ∧ b = 2 ^ 30)
  else min b ((wordsOf x).length - a) < 2 ^ 30 ∧ b - ((wordsOf x).length - a) < 2 ^ 30

/-- When a reader does what is asked of it. -/
def Reader.Fits (a b x : ℕ) : Reader → Prop
  | .bit => True
  | .byte => True
  | .bytes => BytesFit a b x
  | .words => WordsFit a b x
  | .chubs => b < 2 ^ 31 ∧ WordsFit (a * 2 % 2 ^ 32) (b * 2) x ∧
      (2 ^ 31 ≤ a → ∀ i < 8 * b, byteOf x (4 * (a * 2 - 2 ^ 32) + i) = 0)
  | .bytesAlloc => a = 0 ∧ BytesFit 0 b x

/-! ### Bytes of numbers and buffers -/

theorem testBit_byteOf (x i k : ℕ) : (byteOf x i).toNat.testBit k = (decide (k < 8) && x.testBit (8 * i + k)) := by
  rw [byteOf, Bits.testBit_ofNat, Nat.testBit_shiftRight]

theorem byte_ext {p q : UInt8} (h : ∀ k < 8, p.toNat.testBit k = q.toNat.testBit k) : p = q := by
  apply UInt8.toNat_inj.mp
  apply Nat.eq_of_testBit_eq
  intro k
  rcases Nat.lt_or_ge k 8 with hk | hk
  · exact h k hk
  · rw [Bits.testBit_byte hk, Bits.testBit_byte hk]

theorem bufMem_wordsOf (x i : ℕ) : bufMem (wordsOf x) i = byteOf x i := by
  apply byte_ext
  intro k hk
  have h1 : 32 * (i / 4) + (8 * (i % 4) + k) = 8 * i + k := by omega
  rw [bufMem, Bits.testBit_ofNat, Nat.testBit_shiftRight, testBit_getD32 _ (by omega), wordBit_wordsOf, h1,
    testBit_byteOf]

theorem byteOf_shiftRight (x a i : ℕ) : byteOf (x >>> (8 * a)) i = byteOf x (a + i) := by
  rw [byteOf, byteOf, ← Nat.shiftRight_add, ← Nat.mul_add]

/-- Past the words of a number its bytes are zero. -/
theorem byteOf_of_words_le {x i : ℕ} (h : 4 * (wordsOf x).length ≤ i) : byteOf x i = 0 := by
  rw [byteOf, Nat.shiftRight_eq_div_pow, Nat.div_eq_of_lt]
  · rfl
  · exact Nat.lt_of_lt_of_le (lt_words x) (Nat.pow_le_pow_right (by decide) (by omega))

theorem byteOf_cat {x i : ℕ} (h : x < 2 ^ 31) (hi : 4 ≤ i) : byteOf x i = 0 := by
  rw [byteOf, Nat.shiftRight_eq_div_pow, Nat.div_eq_of_lt]
  · rfl
  · exact Nat.lt_of_lt_of_le h (Nat.pow_le_pow_right (by decide) (by omega))

/-- A byte that is never written is not always the one asked for. -/
theorem not_holds_of_unwritten {f : Mem → Mem} {x k n i : ℕ} (hi : i < n) (hf : ∀ mem, f mem i = mem i) :
    ¬ ∀ mem, Holds mem (f mem) x k n := by
  intro h
  have h1 := h (fun _ => byteOf x (k + i) + 1) i
  rw [hf, if_pos hi] at h1
  have h2 : byteOf x (k + i) + 1 = byteOf x (k + i) + 0 := by rw [h1, UInt8.add_zero]
  exact absurd (UInt8.add_right_inj _ |>.mp h2) (by decide)

/-! ### Bits and bytes -/

theorem bit_right {m : Loom} {d x : ℕ} (hd : Den m d (.atom x)) (a : ℕ) : u3rBit m a d = (x.testBit a).toNat := by
  have hbit (v k : ℕ) : 1 &&& (v >>> k) = (v.testBit k).toNat := by
    rw [Nat.testBit, Nat.land_comm, Nat.and_comm]
    rcases Nat.mod_two_eq_zero_or_one (v >>> k) with h | h <;> simp [h]
  cases hd with
  | cat hd =>
    rw [u3rBit, if_pos (isCat_iff.mpr hd), hbit]
    split
    · rename_i h
      rw [Nat.testBit_lt_two_pow (Nat.lt_of_lt_of_le hd (Nat.pow_le_pow_right (by decide) h))]; rfl
    · rfl
  | pug hp hm _ _ =>
    have h1 : a &&& 31 = a % 32 := Nat.and_two_pow_sub_one_eq_mod a 5
    have h2 : a >>> 5 = a / 32 := Nat.shiftRight_eq_div_pow a 5
    simp only [u3rBit, if_neg (not_cat_of_pug hp), bufOf, hm, hbit, h1, h2]
    rw [testBit_getD32 _ (Nat.mod_lt _ (by decide)), wordBit_wordsOf, Nat.div_add_mod]
    split
    · rename_i h
      rw [Nat.testBit_lt_two_pow (Nat.lt_of_lt_of_le (lt_words x) (Nat.pow_le_pow_right (by decide) (by omega)))]
      rfl
    · rfl

theorem byte_right {m : Loom} {d x : ℕ} (hd : Den m d (.atom x)) (a : ℕ) : u3rByte m a d = (byteOf x a).toNat := by
  have hbyte (v : ℕ) : 255 &&& v = (UInt8.ofNat v).toNat := by
    rw [Nat.land_comm, UInt8.toNat_ofNat']
    exact Nat.and_two_pow_sub_one_eq_mod v 8
  cases hd with
  | cat hd =>
    rw [u3rByte, if_pos (isCat_iff.mpr hd), hbyte]
    split
    · rename_i h
      rw [byteOf_cat hd (by omega)]; rfl
    · rw [Nat.shiftLeft_eq, Nat.mul_comm]; rfl
  | pug hp hm _ _ =>
    have h1 : a &&& 3 = a % 4 := Nat.and_two_pow_sub_one_eq_mod a 2
    have h2 : a >>> 2 = a / 4 := Nat.shiftRight_eq_div_pow a 2
    have h3 : (a % 4) <<< 3 = 8 * (a % 4) := by rw [Nat.shiftLeft_eq, Nat.mul_comm]
    simp only [u3rByte, if_neg (not_cat_of_pug hp), bufOf, hm, hbyte, h1, h2, h3]
    split
    · rename_i h
      rw [byteOf_of_words_le (by omega)]; rfl
    · rw [← bufMem_wordsOf]; rfl

/-! ### Bytes from an offset on -/

/-- **What `u3r_bytes` does**: all bytes asked for are written and no other. -/
theorem bytes_spec {m : Loom} {a b d x : ℕ} (hd : Den m d (.atom x)) (ha : a < 2 ^ 32) (hb : b < 2 ^ 32) (mem : Mem) :
    u3rBytes m a b d mem = if x < 2 ^ 31 ∧ 4 ≤ a then none else some fun i =>
      if i < b then
        if x < 2 ^ 31 ∨ a + i < 4 * (wordsOf x).length % 2 ^ 32 then byteOf x (a + i) else 0
      else mem i := by
  cases hd with
  | cat hd =>
    rw [u3rBytes, if_pos (isCat_iff.mpr hd), Nat.shiftLeft_eq]
    by_cases h4 : 4 ≤ a
    · rw [if_pos (by omega), if_pos ⟨hd, h4⟩]
    · have h1 : min a 4 * 2 ^ 3 = 8 * a := by omega
      rw [if_neg (by omega), if_neg (by omega)]
      simp only [h1, Option.some.injEq]
      funext i
      have h2 : byteOf (d >>> (8 * a)) i = byteOf d (a + i) := byteOf_shiftRight d a i
      -- the bytes of the word, the fill behind them, and what is past both
      rcases Nat.lt_or_ge i (min b 4) with hi | hi
      · have h3 : ¬ (4 ≤ i ∧ i < 4 + (b - 4)) := by omega
        have h4 : memcpy mem 0 (byteOf (d >>> (8 * a))) (min b 4) i = byteOf d (a + i) := by
          rw [memcpy, if_pos (by omega), Nat.sub_zero, h2]
        have h5 : i < b := by omega
        rw [if_pos h5, if_pos (Or.inl hd)]
        split
        · rw [memzero, if_neg h3, h4]
        · exact h4
      · have h4 : memcpy mem 0 (byteOf (d >>> (8 * a))) (min b 4) i = mem i := by
          rw [memcpy, if_neg (by omega)]
        by_cases hib : i < b
        · have h5 : 4 < b := by omega
          rw [if_pos h5, memzero, if_pos (by omega), if_pos hib, if_pos (Or.inl hd), byteOf_cat hd (by omega)]
        · rw [if_neg hib]
          split
          · rw [memzero, if_neg (by omega), h4]
          · exact h4
  | pug hp hm hx hl =>
    have hn : ¬ x < 2 ^ 31 := Nat.not_lt.mpr hx
    rw [u3rBytes, if_neg (not_cat_of_pug hp), if_neg (fun h : x < 2 ^ 31 ∧ 4 ≤ a => hn h.1)]
    simp only [bufOf, hm, Nat.shiftLeft_eq, Nat.mul_comm (wordsOf x).length, hn, false_or]
    have h1 : 2 ^ 2 * (wordsOf x).length % 2 ^ 32 < 2 ^ 32 := Nat.mod_lt _ (by decide)
    generalize 2 ^ 2 * (wordsOf x).length % 2 ^ 32 = n at h1 ⊢
    by_cases hna : n ≤ a
    · rw [if_pos hna, Option.some.injEq]
      funext i
      rw [memzero]
      by_cases hib : i < b
      · have h5 : ¬ a + i < n := by omega
        rw [if_pos (by omega), if_pos hib, if_neg h5]
      · rw [if_neg (by omega), if_neg hib]
    · rw [if_neg hna, Option.some.injEq]
      funext i
      rcases Nat.lt_or_ge i (min b (n - a)) with hi | hi
      · have h3 : ¬ (min b (n - a) ≤ i ∧ i < min b (n - a) + (b + a + 2 ^ 32 - n) % 2 ^ 32) := by omega
        have h4 : memcpy mem 0 (fun i => bufMem (wordsOf x) (a + i)) (min b (n - a)) i = byteOf x (a + i) := by
          rw [memcpy, if_pos (by omega), Nat.sub_zero, bufMem_wordsOf]
        have h5 : i < b := by omega
        have h6 : a + i < n := by omega
        rw [if_pos h5, if_pos h6]
        split
        · rw [memzero, if_neg h3, h4]
        · exact h4
      · have h4 : memcpy mem 0 (fun i => bufMem (wordsOf x) (a + i)) (min b (n - a)) i = mem i := by
          rw [memcpy, if_neg (by omega)]
        by_cases hib : i < b
        · have h5 : (b + a + 2 ^ 32 - n) % 2 ^ 32 = b + a - n := by omega
          have h6 : n - a < b := by omega
          have h7 : ¬ a + i < n := by omega
          rw [if_pos h6, memzero, if_pos (by omega), if_pos hib, if_neg h7]
        · rw [if_neg hib]
          split
          · have h5 : (b + a + 2 ^ 32 - n) % 2 ^ 32 = b + a - n := by omega
            rw [memzero, if_neg (by omega), h4]
          · exact h4

theorem bytes_right_iff {m : Loom} {a b d x : ℕ} (hd : Den m d (.atom x)) (ha : a < 2 ^ 32) (hb : b < 2 ^ 32) :
    (∀ mem, ∃ mem', u3rBytes m a b d mem = some mem' ∧ Holds mem mem' x a b) ↔ BytesFit a b x := by
  constructor
  · intro h
    obtain ⟨mem', h1, h2⟩ := h (fun _ => 0)
    rw [bytes_spec hd ha hb] at h1
    split at h1
    · exact absurd h1 (by simp)
    · rename_i hcat
      refine ⟨fun hx => Nat.lt_of_not_le fun h4 => hcat ⟨hx, h4⟩, ?_⟩
      intro hx i hi hn
      have h3 := h2 i
      rw [← Option.some.inj h1] at h3
      simp only [if_pos hi] at h3
      rw [if_neg (by omega)] at h3
      exact h3.symm
  · intro h mem
    rw [bytes_spec hd ha hb, if_neg (fun hc => absurd hc.2 (Nat.not_le.mpr (h.1 hc.1)))]
    refine ⟨_, rfl, ?_⟩
    intro i
    simp only
    by_cases hi : i < b
    · rw [if_pos hi, if_pos hi]
      split
      · rfl
      · rename_i hn
        rw [not_or, Nat.not_lt, Nat.not_lt] at hn
        exact (h.2 hn.1 i hi hn.2).symm
    · rw [if_neg hi, if_neg hi]

/-- The allocation has the length asked for, and the offset is added to it once more. -/
theorem bytesAlloc_right_iff {m : Loom} {a b d x : ℕ} (hd : Den m d (.atom x)) (ha : a < 2 ^ 32)
    (hb : b < 2 ^ 32) :
    (∀ mem, ∃ mem', u3rBytesAlloc m a b d mem = some mem' ∧ Holds mem mem' x a b) ↔
      a = 0 ∧ BytesFit 0 b x := by
  have hmod : (a + b) % 2 ^ 32 < 2 ^ 32 := Nat.mod_lt _ (by decide)
  constructor
  · intro h
    have h0 : a = 0 := by
      by_contra hne
      -- with an offset, more or fewer bytes are written than were asked for
      rcases Nat.lt_or_ge ((a + b) % 2 ^ 32) b with hlt | hge
      · obtain ⟨mem', h1, h2⟩ := h (fun _ => byteOf x (a + (a + b) % 2 ^ 32) + 1)
        rw [u3rBytesAlloc, bytes_spec hd ha hmod] at h1
        split at h1
        · exact absurd h1 (by simp)
        · have h3 := h2 ((a + b) % 2 ^ 32)
          rw [← Option.some.inj h1, if_pos hlt] at h3
          simp only [Nat.lt_irrefl, if_false] at h3
          exact absurd (h3.trans (UInt8.add_zero _).symm) (by rw [UInt8.add_right_inj]; decide)
      · have hlt : b < (a + b) % 2 ^ 32 := by omega
        obtain ⟨mem₀, h1, h2⟩ := h (fun _ => 0)
        obtain ⟨mem₁, h3, h4⟩ := h (fun _ => 1)
        rw [u3rBytesAlloc, bytes_spec hd ha hmod] at h1 h3
        split at h1
        · exact absurd h1 (by simp)
        · rename_i hn
          rw [if_neg hn] at h3
          have h5 := h2 b
          have h6 := h4 b
          rw [← Option.some.inj h1, if_neg (Nat.lt_irrefl b)] at h5
          rw [← Option.some.inj h3, if_neg (Nat.lt_irrefl b)] at h6
          simp only [if_pos hlt] at h5 h6
          exact absurd (h5.symm.trans h6) (by decide)
    subst h0
    refine ⟨rfl, (bytes_right_iff hd ha hb).mp ?_⟩
    intro mem
    obtain ⟨mem', h1, h2⟩ := h mem
    rw [u3rBytesAlloc, Nat.zero_add, Nat.mod_eq_of_lt hb] at h1
    exact ⟨mem', h1, h2⟩
  · rintro ⟨rfl, h⟩ mem
    rw [u3rBytesAlloc, Nat.zero_add, Nat.mod_eq_of_lt hb]
    exact (bytes_right_iff hd ha hb).mpr h mem

/-! ### Words and double words from an offset on -/

/-- What `u3r_words` writes: how many bytes it copies, from where it fills up with
zeros, and how many of them. -/
def wordCounts (a b x : ℕ) : ℕ × ℕ × ℕ :=
  if b = 0 then (0, 0, 0)
  else if x < 2 ^ 31 then
    if a = 0 then (4, 4, 4 * (b - 1) % 2 ^ 32) else (0, 0, 4 * b % 2 ^ 32)
  else if (wordsOf x).length ≤ a then (0, 0, 4 * b % 2 ^ 32)
  else
    (4 * min b ((wordsOf x).length - a) % 2 ^ 32, 4 * min b ((wordsOf x).length - a),
      if (wordsOf x).length - a < b then 4 * (b + a - (wordsOf x).length) % 2 ^ 32 else 0)

theorem memcpy_memzero {p q r i : ℕ} {x k : ℕ} {src : Mem} (mem : Mem) (hsrc : ∀ i, src i = byteOf x (k + i))
    (hpq : p ≤ q) : memzero (memcpy mem 0 src p) q r i =
      if i < p then byteOf x (k + i) else if q ≤ i ∧ i < q + r then 0 else mem i := by
  rw [memzero, memcpy]
  by_cases hi : i < p
  · rw [if_neg (by omega), if_pos (by omega), if_pos hi, Nat.sub_zero, hsrc]
  · rw [if_neg (by omega : ¬ (0 ≤ i ∧ i < 0 + p)), if_neg hi]

/-- **What `u3r_words` does**, up to its counts of bytes. -/
theorem words_spec {m : Loom} {a b d x : ℕ} (hd : Den m d (.atom x)) (mem : Mem) (i : ℕ) :
    u3rWords m a b d mem i =
      if i < (wordCounts a b x).1 then byteOf x (4 * a + i)
      else if (wordCounts a b x).2.1 ≤ i ∧ i < (wordCounts a b x).2.1 + (wordCounts a b x).2.2 then 0
      else mem i := by
  have hfill (n : ℕ) : memzero mem 0 n i =
      if i < 0 then byteOf x (4 * a + i) else if 0 ≤ i ∧ i < 0 + n then 0 else mem i := by
    rw [if_neg (Nat.not_lt_zero i)]; rfl
  rw [u3rWords, wordCounts]
  by_cases hb0 : b = 0
  · rw [if_pos hb0, if_pos hb0]
    simp only [Nat.not_lt_zero, Nat.add_zero, and_false, if_false]
  rw [if_neg hb0, if_neg hb0, Nat.shiftLeft_eq, Nat.shiftLeft_eq, Nat.mul_comm b, Nat.mul_comm (b - 1)]
  cases hd with
  | cat hd =>
    rw [if_pos (isCat_iff.mpr hd), if_pos hd]
    by_cases ha0 : a = 0
    · rw [if_pos ha0, if_pos ha0]
      exact memcpy_memzero mem (fun i => by rw [ha0, Nat.mul_zero, Nat.zero_add]) (Nat.le_refl 4)
    · rw [if_neg ha0, if_neg ha0]
      exact hfill _
  | pug hp hm hx _ =>
    rw [if_neg (not_cat_of_pug hp), if_neg (Nat.not_lt.mpr hx)]
    simp only [bufOf, hm]
    by_cases hl : (wordsOf x).length ≤ a
    · rw [if_pos hl, if_pos hl]
      exact hfill _
    · rw [if_neg hl, if_neg hl, Nat.shiftLeft_eq, Nat.shiftLeft_eq, Nat.mul_comm (min _ _),
        Nat.mul_comm (b + a - _)]
      have hle : 2 ^ 2 * min b ((wordsOf x).length - a) % 2 ^ 32 ≤ 4 * min b ((wordsOf x).length - a) :=
        Nat.mod_le _ _
      have h1 := memcpy_memzero
        (r := if (wordsOf x).length - a < b then 4 * (b + a - (wordsOf x).length) % 2 ^ 32 else 0)
        (i := i) mem (fun i => bufMem_wordsOf x (4 * a + i)) hle
      apply Eq.trans _ h1
      split
      · rfl
      · rw [memzero, if_neg (by omega)]

/-- No word past those asked for is written. -/
theorem words_past {m : Loom} {a b d x i : ℕ} (hd : Den m d (.atom x)) (hi : 4 * b ≤ i) (mem : Mem) :
    u3rWords m a b d mem i = mem i := by
  rw [words_spec hd]
  have h1 : (wordCounts a b x).1 ≤ 4 * b ∧
      ((wordCounts a b x).2.2 = 0 ∨ (wordCounts a b x).2.1 + (wordCounts a b x).2.2 ≤ 4 * b) := by
    rw [wordCounts]
    split_ifs <;> simp only <;> omega
  rw [if_neg (by omega), if_neg (by omega)]

/-- Where the counts fit, the words are those asked for. -/
theorem words_fit {m : Loom} {a b d x : ℕ} (hd : Den m d (.atom x)) (h : WordsFit a b x) (mem : Mem) :
    Holds mem (u3rWords m a b d mem) x (4 * a) (4 * b) := by
  intro i
  by_cases hi : i < 4 * b
  · rw [words_spec hd, if_pos hi]
    split
    · rfl
    · rename_i hp
      -- what is not copied is filled up, and the atom has zeros there
      have h1 : (wordCounts a b x).2.1 ≤ i ∧ i < (wordCounts a b x).2.1 + (wordCounts a b x).2.2 ∧
          byteOf x (4 * a + i) = 0 := by
        rw [wordCounts, if_neg (by omega)] at hp ⊢
        rw [WordsFit] at h
        by_cases hx : x < 2 ^ 31
        · rw [if_pos hx] at hp h ⊢
          split_ifs at hp ⊢ with ha
          · exact ⟨Nat.le_of_not_lt hp, by simp only; omega, byteOf_cat hx (by simp only at hp; omega)⟩
          · exact ⟨Nat.zero_le _, by simp only; omega, byteOf_cat hx (by omega)⟩
        · rw [if_neg hx] at hp h ⊢
          split_ifs at hp ⊢ with hl hb
          · exact ⟨Nat.zero_le _, by simp only; omega, byteOf_of_words_le (by omega)⟩
          · simp only at hp ⊢
            exact ⟨by omega, by omega, byteOf_of_words_le (by omega)⟩
          · simp only at hp ⊢
            omega
      rw [if_pos ⟨h1.1, h1.2.1⟩, h1.2.2]
  · rw [words_past hd (Nat.le_of_not_lt hi), if_neg hi]

/-- Where they do not, one of the bytes asked for is not written, far from the last of them. -/
theorem words_not_fit {m : Loom} {a b d x : ℕ} (hd : Den m d (.atom x)) (hb : b < 2 ^ 32)
    (h : ¬ WordsFit a b x) : ∃ i, i + 2 ^ 32 ≤ 4 * b ∧ ∀ mem, u3rWords m a b d mem i = mem i := by
  have h1 : ∃ i, i + 2 ^ 32 ≤ 4 * b ∧ (wordCounts a b x).1 ≤ i ∧
      ¬ ((wordCounts a b x).2.1 ≤ i ∧ i < (wordCounts a b x).2.1 + (wordCounts a b x).2.2) := by
    rw [WordsFit] at h
    rw [wordCounts, if_neg (fun hb0 : b = 0 => by rw [hb0] at h; split at h <;> omega)]
    by_cases hx : x < 2 ^ 31
    · rw [if_pos hx] at h ⊢
      split_ifs with ha
      · exact ⟨4 + 4 * (b - 1) % 2 ^ 32, by omega, by simp only; omega, by simp only; omega⟩
      · exact ⟨4 * b % 2 ^ 32, by omega, Nat.zero_le _, by simp only; omega⟩
    · rw [if_neg hx] at h ⊢
      split_ifs with hl hlb
      · exact ⟨4 * b % 2 ^ 32, by omega, Nat.zero_le _, by simp only; omega⟩
      · -- the copy wraps around, or else the fill behind it does
        by_cases hz : 2 ^ 30 ≤ min b ((wordsOf x).length - a)
        · exact ⟨4 * min b ((wordsOf x).length - a) % 2 ^ 32, by omega, Nat.le_refl _, by simp only; omega⟩
        · exact ⟨4 * min b ((wordsOf x).length - a) + 4 * (b + a - (wordsOf x).length) % 2 ^ 32, by omega,
            by simp only; omega, by simp only; omega⟩
      · exact ⟨4 * min b ((wordsOf x).length - a) % 2 ^ 32, by omega, Nat.le_refl _, by simp only; omega⟩
  obtain ⟨i, hi, hp, hq⟩ := h1
  refine ⟨i, hi, fun mem => ?_⟩
  rw [words_spec hd, if_neg (Nat.not_lt.mpr hp), if_neg hq]

theorem words_right_iff {m : Loom} {a b d x : ℕ} (hd : Den m d (.atom x)) (hb : b < 2 ^ 32) :
    (∀ mem, Holds mem (u3rWords m a b d mem) x (4 * a) (4 * b)) ↔ WordsFit a b x := by
  constructor
  · intro h
    by_contra hn
    obtain ⟨i, hi, hw⟩ := words_not_fit hd hb hn
    exact not_holds_of_unwritten (by omega) hw h
  · intro h mem
    exact words_fit hd h mem

/-- The bytes of an atom end before the offset that `a_w * 2` can no longer express. -/
theorem byteOf_far {m : Loom} {d x i : ℕ} (hd : Den m d (.atom x)) (hi : 2 ^ 34 ≤ i) : byteOf x i = 0 := by
  cases hd with
  | cat hd => exact byteOf_cat hd (by omega)
  | pug _ _ _ hl => exact byteOf_of_words_le (by omega)

theorem chubs_right_iff {m : Loom} {a b d x : ℕ} (hd : Den m d (.atom x)) (ha : a < 2 ^ 32) (hb : b < 2 ^ 32) :
    (∀ mem, Holds mem (u3rChubs m a b d mem) x (8 * a) (8 * b)) ↔ Reader.chubs.Fits a b x := by
  constructor
  · intro h
    have hb31 : b < 2 ^ 31 := by
      by_contra hn
      refine not_holds_of_unwritten (i := 4 * (b * 2 % 2 ^ 32)) (by omega) (fun mem => ?_) h
      exact words_past hd (Nat.le_refl _) mem
    have hb2 : b * 2 % 2 ^ 32 = b * 2 := Nat.mod_eq_of_lt (by omega)
    have hfit : WordsFit (a * 2 % 2 ^ 32) (b * 2) x := by
      by_contra hn
      obtain ⟨i, hi, hw⟩ := words_not_fit hd (by omega) hn
      refine not_holds_of_unwritten (i := i) (by omega) (fun mem => ?_) h
      rw [u3rChubs, hb2, hw]
    refine ⟨hb31, hfit, ?_⟩
    intro ha31 i hi
    have h1 := h (fun _ => 0) i
    have h2 := words_fit hd hfit (fun _ => 0) i
    have h3 : a * 2 % 2 ^ 32 = a * 2 - 2 ^ 32 := by omega
    rw [u3rChubs, hb2, h2, if_pos (by omega), if_pos hi, h3] at h1
    rw [h1, byteOf_far hd (by omega)]
  · rintro ⟨hb31, hfit, hfar⟩ mem i
    have hb2 : b * 2 % 2 ^ 32 = b * 2 := Nat.mod_eq_of_lt (by omega)
    have h8 : 4 * (b * 2) = 8 * b := by omega
    rw [u3rChubs, hb2, words_fit hd hfit mem i, h8]
    by_cases hi : i < 8 * b
    · rw [if_pos hi, if_pos hi]
      by_cases ha31 : 2 ^ 31 ≤ a
      · have h3 : a * 2 % 2 ^ 32 = a * 2 - 2 ^ 32 := by omega
        rw [h3, hfar ha31 i hi, byteOf_far hd (by omega)]
      · have h3 : 4 * (a * 2 % 2 ^ 32) = 8 * a := by omega
        rw [h3]
    · rw [if_neg hi, if_neg hi]

/-! ### All the readers -/

/-- **When a reader gives the part of the atom that was asked for.** The bit and the
byte always are. `u3r_bytes` shifts a direct atom by its width from the fourth byte
on, `u3r_bytes_alloc` adds the offset to the length and so writes past what it
allocated, and the counts of bytes wrap around at 2^32. -/
theorem reads_right_iff {m : Loom} {a b d x : ℕ} (hd : Den m d (.atom x)) (ha : a < 2 ^ 32) (hb : b < 2 ^ 32)
    (r : Reader) : ReadsRight m a b d x r ↔ r.Fits a b x := by
  cases r with
  | bit => exact iff_of_true (bit_right hd a) trivial
  | byte => exact iff_of_true (byte_right hd a) trivial
  | bytes => exact bytes_right_iff hd ha hb
  | words => exact words_right_iff hd hb
  | chubs => exact chubs_right_iff hd ha hb
  | bytesAlloc => exact bytesAlloc_right_iff hd ha hb

/-- The first byte of an atom, and the three behind it. -/
theorem reads_right_five : ReadsRight twoAtoms 1 3 5 5 .bytes ↔ Reader.Fits 1 3 5 .bytes :=
  reads_right_iff (.cat (by decide)) (by decide) (by decide) .bytes

/-- Two bytes from the first on are put in an allocation of two bytes, and one byte past it. -/
theorem bytesAlloc_past : Den twoAtoms 0x80000000 (.atom 0x100000002) ∧
    ¬ ReadsRight twoAtoms 1 2 0x80000000 0x100000002 .bytesAlloc := by
  refine ⟨.pug (by decide) rfl (by decide) (by decide +kernel), ?_⟩
  intro h
  obtain ⟨mem', h1, h2⟩ := h (fun _ => 255)
  have h3 := h2 2
  rw [← Option.some.inj h1] at h3
  exact absurd h3 (by decide +kernel)

end Retrieve
end Ursockets
