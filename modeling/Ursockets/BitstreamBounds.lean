/-
# The bytes that a reader indexes

Which bytes of its buffer each reader looks at, in the order in which it does. All of
them stay in the buffer but one: the log reader, in a stream of at most 32 more bytes
with no bit set, looks at the byte past the last one before it sees that the stream is
over.

Key definitions: `Call`, `Call.reads`, `Call.Overruns`.
Key theorems: `inBounds_iff`, `reads_of_run`.
-/
import Ursockets.BitstreamScan
import Ursockets.Lib.Replay

namespace Ursockets
namespace Bitstream

open Bits

/-! ### Bytes indexed -/

def bsrBitReads (b : Bsr) : List ℕ := if b.left = 0 then [] else [0]

def bsr8Reads (b : Bsr) (len : ℕ) : List ℕ :=
  if b.left = 0 then []
  else if min 8 len < 8 - b.off ∨ b.left = 1 then [0]
  else [0, 1]

/-- Of `ur_bsr32_any` and `ur_bsr64_any`: after the first byte those that are needed, or all that remain, and the next
one if bits of it are. -/
def bsrWordReads (word : ℕ) (b : Bsr) (len : ℕ) : List ℕ :=
  let len := min word len
  if b.left = 0 then []
  else
    let rest := 8 - b.off
    if len < rest then [0]
    else
      let len := len - rest
      let left := b.left - 1
      let lenByt := len >>> 3
      if left ≤ lenByt then 0 :: (List.range left).map (· + 1)
      else 0 :: ((List.range lenByt).map (· + 1) ++ if len &&& 7 ≠ 0 then [lenByt + 1] else [])

def bsrBytesReads (b : Bsr) (len : ℕ) : List ℕ :=
  if b.left = 0 then []
  else
    let lenByt := len >>> 3
    let lenBit := len &&& 7
    let need := lenByt + if lenBit ≠ 0 then 1 else 0
    if b.off = 0 then
      if b.left < need then List.range b.left
      else List.range lenByt ++ if lenBit ≠ 0 then [lenByt] else []
    else
      let rest := 8 - b.off
      let max := min (b.left - 1) lenByt
      (List.range max).flatMap (fun i => [i, i + 1]) ++ max ::
        if b.left ≤ need ∨ lenBit = 0 ∨ lenBit ≤ rest then [] else [max + 1]

def bsrTagReads (b : Bsr) : List ℕ :=
  if b.left = 0 then []
  else if (b.byte 0 >>> b.off) &&& 1 = 0 then [0]
  else if b.off = 7 then if b.left = 1 then [0] else [0, 1]
  else [0, 0]

/-- The loop of `ur_bsr_log`: the next byte is read, and then the end is looked for. -/
def logSkipReads (b : Bsr) : ℕ → ℕ → ℕ → List ℕ
  | 0, _, _ => []
  | n + 1, skip, byt =>
    if byt ≠ 0 then []
    else if skip = 32 then []
    else (skip + 1) :: if skip + 1 = b.left then [] else logSkipReads b n (skip + 1) (b.byte (skip + 1))

def bsrLogReads (b : Bsr) : List ℕ :=
  if b.left = 0 then [] else 0 :: logSkipReads b 33 0 (b.byte 0 >>> b.off)

/-- After the log the bits of the length, from where the log has left the reader. -/
def bsrRubLenReads (b : Bsr) : List ℕ :=
  bsrLogReads b ++
    match bsrLog b with
    | (.ok (len + 2), b') =>
      if len + 2 < 64 then (bsrWordReads 64 b' (len + 1)).map (· + (b.bytes.length - b'.bytes.length)) else []
    | _ => []

/-! ### Calls -/

/-- `ur_bsr_bit` -/
def bsrBit (b : Bsr) : Except CueRes ℕ × Bsr :=
  if b.left = 0 then (.error .gone, b)
  else
    let bit := (b.byte 0 >>> b.off) &&& 1
    let bits := b.bits + 1
    if b.off = 7 then
      let left := b.left - 1
      (.ok bit, ⟨left, bits, 0, if left ≠ 0 then b.bytes.drop 1 else []⟩)
    else (.ok bit, { b with bits, off := b.off + 1 })

/-- A call of a reader, of one that never fails or one that may. -/
inductive Call where
  | any (op : Read)
  | bit
  | tag
  | log
  | rubLen

/-- The indices, from the next byte on, of the bytes that a call reads. -/
def Call.reads : Call → Bsr → List ℕ
  | .any .bit, b => bsrBitReads b
  | .any (.r8 len), b => bsr8Reads b len.toNat
  | .any (.r32 len), b => bsrWordReads 32 b len.toNat
  | .any (.r64 len), b => bsrWordReads 64 b len.toNat
  | .any (.bytes len), b => bsrBytesReads b len.toNat
  | .any (.skip _), _ => []
  | .bit, b => bsrBitReads b
  | .tag, b => bsrTagReads b
  | .log, b => bsrLogReads b
  | .rubLen, b => bsrRubLenReads b

def resOf {α : Type} : Except CueRes α → CueRes
  | .ok _ => .good
  | .error res => res

/-- What a call returns. -/
def Call.res : Call → Bsr → CueRes
  | .any _, _ => .good
  | .bit, b => resOf (bsrBit b).1
  | .tag, b => resOf (bsrTag b).1
  | .log, b => resOf (bsrLog b).1
  | .rubLen, b => resOf (bsrRubLen b).1

/-- The reader after a call. -/
def Call.next : Call → Bsr → Bsr
  | .any op, b => (op.run b).2
  | .bit, b => (bsrBit b).2
  | .tag, b => (bsrTag b).2
  | .log, b => (bsrLog b).2
  | .rubLen, b => (bsrRubLen b).2

/-- The call may fail. -/
def Call.checked : Call → Bool
  | .any _ => false
  | _ => true

/-- Every byte that is read is in the buffer. -/
def Call.InBounds (c : Call) (b : Bsr) : Prop := ∀ i ∈ c.reads b, i < b.bytes.length

instance (c : Call) (b : Bsr) : Decidable (c.InBounds b) := by unfold Call.InBounds; infer_instance

/-- A call in the buffer; one past it goes nowhere. -/
def turn (b : Bsr) (c : Call) : Option Bsr := if c.InBounds b then some (c.next b) else none

/-- A call reads nothing but the buffer, and at the end of the stream one that may fail says so. -/
structure Call.Proper (b : Bsr) (c : Call) : Prop where
  inBounds : c.InBounds b
  gone : c.checked = true → b.left = 0 → c.res b = .gone

/-- The log reader runs over the end: at most 32 bytes remain, with no bit set. -/
def Call.Overruns (b : Bsr) (c : Call) : Prop :=
  (match c with
  | .log | .rubLen => True
  | _ => False) ∧ b.left ≠ 0 ∧ b.left ≤ 32 ∧ ∀ i, b.next i = false

/-! ### Readers that stay in the buffer -/

section

variable {b : Bsr}

theorem bitReads_lt (h : b.Sane) : ∀ i ∈ bsrBitReads b, i < b.bytes.length := by
  have hleft := h.left
  unfold bsrBitReads
  split
  · simp
  · simp
    omega

theorem bsr8Reads_lt (h : b.Sane) (len : ℕ) : ∀ i ∈ bsr8Reads b len, i < b.bytes.length := by
  have hleft := h.left
  unfold bsr8Reads
  split
  · simp
  · split
    · simp
      omega
    · simp
      omega

theorem bsrWordReads_lt (h : b.Sane) (word len : ℕ) : ∀ i ∈ bsrWordReads word b len, i < b.bytes.length := by
  have hleft := h.left
  unfold bsrWordReads
  dsimp only
  split
  · simp
  · rename_i h0
    split
    · simp
      omega
    · split
      · intro i hi
        simp only [List.mem_cons, List.mem_map, List.mem_range] at hi
        omega
      · rename_i hlt
        intro i hi
        simp only [List.mem_cons, List.mem_append, List.mem_map, List.mem_range] at hi
        rcases hi with rfl | ⟨j, hj, rfl⟩ | hi
        · omega
        · omega
        · split at hi
          · rw [List.mem_singleton] at hi
            omega
          · cases hi

theorem bsrBytesReads_lt (h : b.Sane) (len : ℕ) : ∀ i ∈ bsrBytesReads b len, i < b.bytes.length := by
  have hleft := h.left
  unfold bsrBytesReads
  by_cases h0 : b.left = 0
  · simp [h0]
  simp only [if_neg h0]
  by_cases hbit : len &&& 7 = 0
  · -- whole bytes
    simp only [hbit, ne_eq, not_true_eq_false, if_false, Nat.add_zero, true_or, or_true, if_true, List.append_nil]
    by_cases hoff : b.off = 0
    · simp only [if_pos hoff]
      intro i hi
      split at hi <;> rw [List.mem_range] at hi <;> omega
    · simp only [if_neg hoff]
      intro i hi
      simp only [List.mem_append, List.mem_flatMap, List.mem_range, List.mem_cons, List.not_mem_nil, or_false] at hi
      rcases hi with ⟨j, hj, rfl | rfl⟩ | rfl <;> omega
  · -- and bits of the next one
    simp only [hbit, ne_eq, not_false_eq_true, if_true, false_or]
    by_cases hoff : b.off = 0
    · simp only [if_pos hoff]
      intro i hi
      split at hi
      · rw [List.mem_range] at hi
        omega
      · simp only [List.mem_append, List.mem_range, List.mem_singleton] at hi
        omega
    · simp only [if_neg hoff]
      intro i hi
      simp only [List.mem_append, List.mem_flatMap, List.mem_range, List.mem_cons] at hi
      rcases hi with ⟨j, hj, rfl | rfl | hi⟩ | rfl | hi
      · omega
      · omega
      · cases hi
      · omega
      · split at hi
        · cases hi
        · rename_i hn
          rw [List.mem_singleton] at hi
          omega

theorem bsrTagReads_lt (h : b.Sane) : ∀ i ∈ bsrTagReads b, i < b.bytes.length := by
  have hleft := h.left
  unfold bsrTagReads
  split
  · simp
  · split
    · simp
      omega
    · split
      · split
        · simp
          omega
        · simp
          omega
      · simp
        omega

theorem any_inBounds (h : b.Sane) (op : Read) : (Call.any op).InBounds b := by
  cases op with
  | bit => exact bitReads_lt h
  | r8 len => exact bsr8Reads_lt h _
  | r32 len => exact bsrWordReads_lt h 32 _
  | r64 len => exact bsrWordReads_lt h 64 _
  | bytes len => exact bsrBytesReads_lt h _
  | skip len => exact fun _ hi => nomatch hi

/-! ### The log reader -/

/-- The loop stays in the buffer when it meets a byte that is not zero, or gives up before the end. -/
theorem logSkipReads_lt_iff : ∀ {n skip byt : ℕ}, n + skip = 33 → skip < b.left →
    ((∀ i ∈ logSkipReads b n skip byt, i < b.left) ↔
      byt ≠ 0 ∨ 32 < b.left ∨ ∃ j, skip < j ∧ j < b.left ∧ b.byte j ≠ 0)
  | 0, skip, byt, hn, hs => by
    simp only [logSkipReads, List.not_mem_nil, false_imp_iff, implies_true, true_iff]
    exact .inr (.inl (by omega))
  | n + 1, skip, byt, hn, hs => by
    rw [logSkipReads]
    by_cases hb : byt ≠ 0
    · rw [if_pos hb]
      exact iff_of_true (fun _ hi => nomatch hi) (.inl hb)
    rw [if_neg hb, or_iff_right hb]
    by_cases h32 : skip = 32
    · rw [if_pos h32]
      exact iff_of_true (fun _ hi => nomatch hi) (.inl (by omega))
    rw [if_neg h32, List.forall_mem_cons]
    by_cases hend : skip + 1 = b.left
    · rw [if_pos hend]
      refine iff_of_false (fun h => by omega) ?_
      rintro (h | ⟨j, hj, hjl, -⟩)
      · omega
      · omega
    · rw [if_neg hend, logSkipReads_lt_iff (by omega) (by omega), and_iff_right (by omega)]
      constructor
      · rintro (h | h | ⟨j, hj, hjl, hne⟩)
        · exact .inr ⟨skip + 1, by omega, by omega, h⟩
        · exact .inl h
        · exact .inr ⟨j, by omega, hjl, hne⟩
      · rintro (h | ⟨j, hj, hjl, hne⟩)
        · exact .inr (.inl h)
        · by_cases hj1 : j = skip + 1
          · exact .inl (hj1 ▸ hne)
          · exact .inr (.inr ⟨j, by omega, hjl, hne⟩)

/-- A stream with no bit set is one of zero bytes, the first from the cursor on. -/
theorem next_eq_false_iff (h : b.Sane) :
    (∀ i, b.next i = false) ↔ b.byte 0 >>> b.off = 0 ∧ ∀ j, 0 < j → j < b.left → b.byte j = 0 := by
  have hat := h.at
  have hoff := h.off_lt
  have hbyte : ∀ j, b.byte j < 2 ^ 8 := fun j => UInt8.toNat_lt _
  have hbit : ∀ {j k}, k < 8 → (b.byte j).testBit k = bitAt b.bytes (8 * j + k) := by
    intro j k hk
    rw [Bsr.byte, testBit_getD _ hk]
  constructor
  · intro hz
    refine ⟨Nat.eq_of_testBit_eq fun k => ?_, fun j hj _ => Nat.eq_of_testBit_eq fun k => ?_⟩
    · rw [Nat.testBit_shiftRight, Nat.zero_testBit]
      by_cases hk : b.off + k < 8
      · rw [hbit hk, Nat.mul_zero, Nat.zero_add]
        exact hz k
      · exact Nat.testBit_lt_two_pow ((hbyte 0).trans_le (Nat.pow_le_pow_right (by decide) (by omega)))
    · rw [Nat.zero_testBit]
      by_cases hk : k < 8
      · have hzj := hz (8 * j + k - b.off)
        rw [Bsr.next, Nat.add_sub_cancel' (by omega)] at hzj
        rw [hbit hk, hzj]
      · exact Nat.testBit_lt_two_pow ((hbyte j).trans_le (Nat.pow_le_pow_right (by decide) (by omega)))
  · rintro ⟨hfirst, hrest⟩ i
    rw [Bsr.next]
    by_cases hend : 8 * b.bytes.length ≤ b.off + i
    · exact bitAt_of_le hend
    have hk : (b.off + i) % 8 < 8 := Nat.mod_lt _ (by decide)
    have hi := hbit (j := (b.off + i) / 8) hk
    rw [Nat.div_add_mod] at hi
    rw [← hi]
    by_cases hj : (b.off + i) / 8 = 0
    · have hz := congrArg (fun n => n.testBit i) hfirst
      simp only [Nat.testBit_shiftRight, Nat.zero_testBit] at hz
      rw [hj, Nat.mod_eq_of_lt (by omega), hz]
    · rw [hrest _ (Nat.pos_of_ne_zero hj) (by have := h.left; omega), Nat.zero_testBit]

theorem log_inBounds_iff (h : b.Sane) : Call.InBounds .log b ↔ ¬ Call.Overruns b .log := by
  rw [Call.InBounds, Call.reads, bsrLogReads, Call.Overruns, ← h.left]
  by_cases h0 : b.left = 0
  · rw [if_pos h0]
    exact iff_of_true (fun _ hi => nomatch hi) fun hn => hn.2.1 h0
  rw [if_neg h0, List.forall_mem_cons, and_iff_right (Nat.pos_of_ne_zero h0),
    logSkipReads_lt_iff (by decide) (Nat.pos_of_ne_zero h0), next_eq_false_iff h]
  constructor
  · rintro hread ⟨-, -, hle, hfirst, hrest⟩
    rcases hread with hne | hlt | ⟨j, hj, hjl, hne⟩
    · exact hne hfirst
    · exact absurd hlt (Nat.not_lt.mpr hle)
    · exact hne (hrest j hj hjl)
  · intro hn
    by_contra hread
    push Not at hread
    exact hn ⟨trivial, h0, hread.2.1, hread.1, hread.2.2⟩

/-! ### The reader after a call -/

theorem bsrWordAny_bytes (word : ℕ) (b : Bsr) (len : ℕ) : (bsrWordAny word b len).2.bytes.length ≤ b.bytes.length := by
  unfold bsrWordAny
  dsimp only
  split
  · exact le_rfl
  · split
    · exact le_rfl
    · split
      · exact Nat.zero_le _
      · simp only [List.length_drop]
        omega

theorem any_bytes (op : Read) (b : Bsr) : (op.run b).2.bytes.length ≤ b.bytes.length := by
  cases op with
  | bit =>
    simp only [Read.run, bsrBitAny]
    split
    · exact le_rfl
    · split
      · split <;> simp
      · exact le_rfl
  | r8 len =>
    simp only [Read.run, bsr8Any]
    split
    · exact le_rfl
    · split
      · exact le_rfl
      · split <;> simp
  | r32 len => exact bsrWordAny_bytes 32 b _
  | r64 len => exact bsrWordAny_bytes 64 b _
  | bytes len =>
    simp only [Read.run, bsrBytesAny]
    repeat' split
    all_goals simp
  | skip len =>
    simp only [Read.run, bsrSkipAny]
    repeat' split
    all_goals simp

/-- A bit read from a stream that is not over is the next one. -/
theorem bsrBit_next (h0 : b.left ≠ 0) : (bsrBit b).2 = (bsrBitAny b).2 := by
  unfold bsrBit bsrBitAny
  rw [if_neg h0, if_neg h0]
  split <;> rfl

/-- How the loop fails: the stream is over, or 32 bytes are skipped. -/
theorem logSkip_error : ∀ {n skip byt : ℕ} {res : CueRes} {b' : Bsr}, n + skip = 33 → skip < b.left →
    bsrLogSkip b n skip byt = (.error res, b') →
      b' = b ∨ (∃ bits, b' = ⟨0, bits, 0, []⟩) ∨ (b' = bsrLogMeme b ∧ 32 < b.left)
  | 0, _, _, _, _, _, _, h => by
    cases h
    exact .inl rfl
  | n + 1, skip, byt, res, b', hn, hs, h => by
    rw [bsrLogSkip] at h
    split at h
    · cases h
    · split at h
      · cases h
        exact .inr (.inr ⟨rfl, by omega⟩)
      · split at h
        · cases h
          exact .inr (.inl ⟨_, rfl⟩)
        · exact logSkip_error (by omega) (by omega) h

theorem wrap_sub {a m n : ℕ} (hm : m < a) (ha : a < n) : (a + n - m) % n = a - m := by
  rw [Nat.sub_add_comm (Nat.le_of_lt hm), Nat.add_mod_right, Nat.mod_eq_of_lt (by omega)]

theorem sane_meme (h : b.Sane) (h32 : 32 < b.left) (hlt : b.left < 2 ^ 64) : (bsrLogMeme b).Sane := by
  have hmeme : bsrLogMeme b = ⟨b.left - 32, b.bits + 256, b.off, b.bytes.drop 32⟩ := by
    unfold bsrLogMeme
    rw [wrap_sub h32 hlt]
  rw [hmeme]
  exact sane_drop h h.off_lt (fun hle => absurd hle (Nat.not_le_of_lt h32)) _

theorem sane_log_any (h : b.Sane) (hlt : b.left < 2 ^ 64) : (bsrLog b).2.Sane := by
  cases hres : (bsrLog b).1 with
  | ok len => exact sane_log h hres
  | error res =>
    rw [bsrLog] at hres ⊢
    split
    · exact h
    · rename_i h0
      rw [if_neg h0] at hres
      cases hskip : bsrLogSkip b 33 0 (b.byte 0 >>> b.off) with
      | mk r b' =>
        simp only [hskip] at hres ⊢
        cases r with
        | error res =>
          rcases logSkip_error (by decide) (Nat.pos_of_ne_zero h0) hskip with rfl | ⟨bits, rfl⟩ | ⟨rfl, h32⟩
          · exact h
          · exact sane_end _
          · exact sane_meme h h32 hlt
        | ok r =>
          obtain ⟨skip, byt⟩ := r
          obtain ⟨rfl, hs, hbyt, hb⟩ := skip_found (Nat.pos_of_ne_zero h0) (if_pos rfl).symm hskip
          dsimp only at hres ⊢
          by_cases hmany : 255 < tz8 byt 8 0 + if skip ≠ 0 then skip <<< 3 - b'.off else 0
          swap
          · rw [if_neg hmany] at hres
            cases hres
          · rw [if_pos hmany]
            -- the one found is at least 32 bytes on
            have htz : tz8 byt 8 0 < 8 := by
              refine tz8_lt hbyt ?_ 8 0 (Nat.le_refl 8) fun j hj => absurd hj (Nat.not_lt_zero j)
              rw [hb]
              split
              · exact (Nat.shiftRight_le _ _).trans_lt (UInt8.toNat_lt _)
              · exact UInt8.toNat_lt _
            refine sane_meme h ?_ hlt
            by_cases h0' : skip = 0
            · rw [if_neg (not_not.mpr h0')] at hmany
              omega
            · rw [if_pos h0', Nat.shiftLeft_eq] at hmany
              omega


theorem sane_tag_any (h : b.Sane) : (bsrTag b).2.Sane := by
  cases hres : (bsrTag b).1 with
  | ok tag => exact sane_tag h hres
  | error res =>
    rw [bsrTag] at hres ⊢
    split
    · exact h
    · rename_i h0
      rw [if_neg h0] at hres
      simp only [] at hres ⊢
      split at hres
      · cases hres
      · rename_i h1
        rw [if_neg h1]
        split at hres
        · rename_i h2
          rw [if_pos h2]
          exact sane_end _
        · cases hres

theorem sane_rubLen_any (h : b.Sane) (hlt : b.left < 2 ^ 64) : (bsrRubLen b).2.Sane := by
  have hlog := sane_log_any h hlt
  unfold bsrRubLen
  split
  · rename_i heq
    rw [heq] at hlog
    exact hlog
  · rename_i len b' heq
    rw [heq] at hlog
    split
    · exact hlog
    · split
      · exact hlog
      · exact hlog
      · exact sane_word hlog (by omega)

theorem logSkip_bytes (b : Bsr) : ∀ n skip byt, (bsrLogSkip b n skip byt).2.bytes.length ≤ b.bytes.length
  | 0, _, _ => le_rfl
  | n + 1, skip, byt => by
    rw [bsrLogSkip]
    split
    · exact le_rfl
    · split
      · rw [bsrLogMeme, List.length_drop]
        exact Nat.sub_le _ _
      · split
        · exact Nat.zero_le _
        · exact logSkip_bytes b n _ _

theorem log_bytes (b : Bsr) : (bsrLog b).2.bytes.length ≤ b.bytes.length := by
  rw [bsrLog]
  split
  · exact le_rfl
  have hskip := logSkip_bytes b 33 0 (b.byte 0 >>> b.off)
  split
  · rename_i heq
    rw [heq] at hskip
    exact hskip
  · rename_i skip byt b' heq
    rw [heq] at hskip
    refine le_trans ?_ hskip
    dsimp only
    generalize (tz8 byt 8 0 + if skip ≠ 0 then skip <<< 3 - b'.off else 0) = zeros
    split
    · rw [bsrLogMeme, List.length_drop]
      exact Nat.sub_le _ _
    · dsimp only
      split
      · rw [List.length_drop]
        exact Nat.sub_le _ _
      · exact Nat.zero_le _

theorem tag_bytes (b : Bsr) : (bsrTag b).2.bytes.length ≤ b.bytes.length := by
  simp only [bsrTag]
  repeat' split
  all_goals simp [bsrSetGone]

theorem rubLen_bytes (b : Bsr) : (bsrRubLen b).2.bytes.length ≤ b.bytes.length := by
  have hlog := log_bytes b
  unfold bsrRubLen
  split
  · rename_i heq
    rw [heq] at hlog
    exact hlog
  · rename_i len b' heq
    rw [heq] at hlog
    split
    · exact hlog
    · split
      · exact hlog
      · exact hlog
      · exact (bsrWordAny_bytes 64 b' _).trans hlog

theorem next_sane (h : b.Sane) (hlt : b.left < 2 ^ 64) (c : Call) : (c.next b).Sane := by
  cases c with
  | any op => exact (right_iff h op).2
  | bit =>
    by_cases h0 : b.left = 0
    · rw [Call.next, bsrBit, if_pos h0]
      exact h
    · rw [Call.next, bsrBit_next h0]
      exact (right_iff h .bit).2
  | tag => exact sane_tag_any h
  | log => exact sane_log_any h hlt
  | rubLen => exact sane_rubLen_any h hlt

theorem next_bytes (c : Call) (b : Bsr) : (c.next b).bytes.length ≤ b.bytes.length := by
  cases c with
  | any op => exact any_bytes op b
  | bit =>
    by_cases h0 : b.left = 0
    · rw [Call.next, bsrBit, if_pos h0]
    · rw [Call.next, bsrBit_next h0]
      exact any_bytes .bit b
  | tag => exact tag_bytes b
  | log => exact log_bytes b
  | rubLen => exact rubLen_bytes b

/-! ### Runs -/

/-- The bits of a length are read in the buffer, once the log has been. -/
theorem rubLen_inBounds_iff (h : b.Sane) : Call.InBounds .rubLen b ↔ ¬ Call.Overruns b .rubLen := by
  rw [show Call.Overruns b .rubLen = Call.Overruns b .log from rfl, ← log_inBounds_iff h]
  refine List.forall_mem_append.trans (and_iff_left fun i hi => ?_)
  split at hi
  · rename_i len b' heq
    split at hi
    · obtain ⟨j, hj, rfl⟩ := List.mem_map.mp hi
      have hsane := sane_log h (congrArg Prod.fst heq)
      have hle := log_bytes b
      rw [heq] at hsane hle
      have hlt := bsrWordReads_lt hsane 64 (len + 1) j hj
      show j + (b.bytes.length - b'.bytes.length) < b.bytes.length
      change b'.bytes.length ≤ b.bytes.length at hle
      change j < b'.bytes.length at hlt
      omega
    · cases hi
  · cases hi

/-- **A call stays in the buffer** unless it is the log reader's and runs over the end. -/
theorem inBounds_iff (h : b.Sane) (c : Call) : c.InBounds b ↔ ¬ c.Overruns b := by
  cases c with
  | any op => exact iff_of_true (any_inBounds h op) fun hn => hn.1
  | bit => exact iff_of_true (bitReads_lt h) fun hn => hn.1
  | tag => exact iff_of_true (bsrTagReads_lt h) fun hn => hn.1
  | log => exact log_inBounds_iff h
  | rubLen => exact rubLen_inBounds_iff h

/-- At the end of the stream a call that may fail does. -/
theorem gone_at_end {c : Call} (hc : c.checked = true) (h0 : b.left = 0) : c.res b = .gone := by
  cases c with
  | any op => cases hc
  | bit => simp [Call.res, bsrBit, h0, resOf]
  | tag => simp [Call.res, bsrTag, h0, resOf]
  | log => simp [Call.res, bsrLog, h0, resOf]
  | rubLen => simp [Call.res, bsrRubLen, bsrLog, h0, resOf]

theorem proper_iff (h : b.Sane) (c : Call) : c.Proper b ↔ ¬ c.Overruns b := by
  rw [← inBounds_iff h]
  exact ⟨Call.Proper.inBounds, fun hin => ⟨hin, gone_at_end⟩⟩

/-- The length of a buffer is of 64 bits. -/
theorem init_left {l : List UInt8} (hb : bsrInit l = .ok b) : b.left < 2 ^ 64 := by
  simp only [bsrInit] at hb
  split at hb
  · cases hb
  · rename_i hlen
    cases hb
    exact (Nat.not_lt.mp hlen).trans_lt (Nat.mod_lt _ (Nat.two_pow_pos 64))

/-- **A run of calls stays in the buffer**, and fails at its end, exactly when no call of the log reader runs over the
end. -/
theorem reads_of_run {l : List UInt8} (hb : bsrInit l = .ok b) (cs : List Call) :
    Replay.Along turn (fun b c => c.Proper b) b cs ↔ Replay.Along turn (fun b c => ¬ c.Overruns b) b cs := by
  have hstep : ∀ a c a', (Bsr.Sane a ∧ a.left < 2 ^ 64) → turn a c = some a' → Bsr.Sane a' ∧ a'.left < 2 ^ 64 := by
    intro a c a' h ht
    unfold turn at ht
    split at ht
    · obtain rfl := Option.some.inj ht
      have hsane := next_sane h.1 h.2 c
      refine ⟨hsane, ?_⟩
      rw [hsane.left]
      refine (next_bytes c a).trans_lt ?_
      rw [← h.1.left]
      exact h.2
    · cases ht
  have hinit : Bsr.Sane b ∧ b.left < 2 ^ 64 := ⟨sane_init hb, init_left hb⟩
  constructor
  · exact fun h => Replay.Along.of_inv _ (fun a c a' ha _ => hstep a c a' ha)
      (fun a c ha hc => (proper_iff ha.1 c).mp hc)
      h hinit
  · exact fun h => Replay.Along.of_inv _ (fun a c a' ha _ => hstep a c a' ha)
      (fun a c ha hc => (proper_iff ha.1 c).mpr hc)
      h hinit

end

/-! ### On fixed inputs -/

/-- A bit, and then the log of the next byte. -/
theorem reads_of_run_one : Replay.Along turn (fun b c => c.Proper b) ⟨2, 0, 0, [0, 1]⟩ [.bit, .log] := by
  refine (reads_of_run (l := [0, 1]) rfl [.bit, .log]).mpr ⟨fun h => h.1, fun b hb => ⟨fun h => ?_, fun _ _ => trivial⟩⟩
  obtain rfl : ⟨2, 1, 1, [0, 1]⟩ = b := Option.some.inj hb
  exact absurd (h.2.2.2 7) (by decide)

/-- In a stream of one zero byte the log reader reads a second one. -/
theorem log_overruns : bsrInit [0] = .ok ⟨1, 0, 0, [0]⟩ ∧
    ¬ Replay.Along turn (fun b c => c.Proper b) ⟨1, 0, 0, [0]⟩ [.log] := by
  refine ⟨rfl, fun h => ?_⟩
  have hone : (1 : ℕ) < 1 := h.1.inBounds 1 (by decide)
  exact absurd hone (by decide)

end Bitstream
end Ursockets
