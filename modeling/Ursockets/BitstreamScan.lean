/-
# The scanner keeps a sane reader

The cue's scanners read a tag or a run-length encoded length and may fail. On
any bytes, a scan that does not fail leaves a sane reader.

Key theorems: `sane_tag`, `sane_log`, `sane_rubLen`, `sane_bytes`.
-/
import Ursockets.BitstreamAny

namespace Ursockets
namespace Bitstream

open Bits

variable {b : Bsr}

/-! ### Reads -/

theorem sane_init {byt : List UInt8} (h : bsrInit byt = .ok b) : b.Sane := by
  rw [bsrInit] at h
  split at h
  · cases h
  · cases h
    exact ⟨Nat.zero_lt_succ 7, rfl, fun _ => rfl⟩

theorem sane_word (h : b.Sane) {len : ℕ} (hl : len ≤ 64) : (bsr64Any b len).2.Sane := by
  have hlen : (UInt8.ofNat len).toNat = len := UInt8.toNat_ofNat_of_lt' (by
    rw [UInt8.size]; omega)
  have hsane := (right_iff h (.r64 (UInt8.ofNat len))).2
  simp only [Read.run, hlen] at hsane
  exact hsane

/-- A word read is of no more bits than were asked for. -/
theorem word_bound (h : b.Sane) {len : ℕ} (hl : len ≤ 64) : (bsr64Any b len).1 < 2 ^ len := by
  have hlen : (UInt8.ofNat len).toNat = len := UInt8.toNat_ofNat_of_lt' (by
    rw [UInt8.size]; omega)
  have hright := ((right_iff h (.r64 (UInt8.ofNat len))).1.mpr id).1
  simp only [Read.run, Read.len, hlen, Val.Is] at hright
  refine Nat.lt_pow_two_of_testBit _ fun i hi => ?_
  rw [hright i, decide_eq_false (by omega), Bool.false_and]

theorem sane_bytes (h : b.Sane) {len : ℕ} (hl : len < 2 ^ 64) :
    (bsrBytesAny b len (List.replicate ((len + 7) / 8) 0)).2.Sane := by
  have hlen : (UInt64.ofNat len).toNat = len := UInt64.toNat_ofNat_of_lt' hl
  have hsane := (right_iff h (.bytes (UInt64.ofNat len))).2
  simp only [Read.run, hlen] at hsane
  exact hsane

/-- A reader moved on to a bit of its own bytes. -/
theorem sane_drop (h : b.Sane) {n m : ℕ} (hm : m < 8) (hz : b.left ≤ n → m = 0) (bits : ℕ) :
    Bsr.Sane ⟨b.left - n, bits, m, b.bytes.drop n⟩ :=
  ⟨hm, by rw [List.length_drop, h.left], fun h0 => hz (by have h1 : b.left - n = 0 := h0; omega)⟩

theorem sane_end (bits : ℕ) : Bsr.Sane ⟨0, bits, 0, []⟩ := ⟨Nat.zero_lt_succ 7, rfl, fun _ => rfl⟩

theorem sane_tag (h : b.Sane) {tag : CueTag} (ht : (bsrTag b).1 = .ok tag) : (bsrTag b).2.Sane := by
  have hnext : ∀ n, Bsr.Sane (if b.left - (b.off + n) >>> 3 = 0 then ⟨0, b.bits + n, 0, []⟩
      else ⟨b.left - (b.off + n) >>> 3, b.bits + n, (b.off + n) &&& 7, b.bytes.drop ((b.off + n) >>> 3)⟩) := by
    intro n
    split
    · exact sane_end _
    · rename_i h0
      refine sane_drop h ?_ (fun h1 => absurd (Nat.sub_eq_zero_of_le h1) h0) _
      rw [and_seven]
      exact Nat.mod_lt _ (by decide)
  rw [bsrTag] at ht ⊢
  split at ht
  · cases ht
  · rename_i h0
    rw [if_neg h0]
    simp only [] at ht ⊢
    split at ht
    · rename_i h1
      rw [if_pos h1]
      exact hnext 1
    · rename_i h1
      rw [if_neg h1]
      split at ht
      · cases ht
      · rename_i h2
        rw [if_neg h2]
        exact hnext 2

/-! ### Lengths -/

/-- Where the loop of `ur_bsr_log` stops: at a byte that is not zero, before the end. -/
theorem skip_found : ∀ {n skip byt : ℕ} {k m : ℕ} {b' : Bsr}, skip < b.left →
    byt = (if skip = 0 then b.byte 0 >>> b.off else b.byte skip) →
    bsrLogSkip b n skip byt = (.ok (k, m), b') →
      b' = b ∧ k < b.left ∧ m ≠ 0 ∧ m = (if k = 0 then b.byte 0 >>> b.off else b.byte k)
  | 0, _, _, _, _, _, _, _, h => by cases h
  | n + 1, skip, byt, k, m, b', hs, hb, h => by
    rw [bsrLogSkip] at h
    split at h
    · rename_i h0
      cases h
      exact ⟨rfl, hs, h0, hb⟩
    · split at h
      · cases h
      · split at h
        · cases h
        · exact skip_found (by omega) (if_neg (Nat.succ_ne_zero skip)).symm h

theorem tz8_lt {byt m : ℕ} (h0 : byt ≠ 0) (hm : byt < 2 ^ m) : ∀ n k, m ≤ k + n →
    (∀ j < k, byt.testBit j = false) → tz8 byt n k < m
  | 0, k, hk, hz => by
    refine absurd (Nat.eq_of_testBit_eq fun j => ?_) h0
    rw [Nat.zero_testBit]
    by_cases hj : j < k
    · exact hz j hj
    · exact Nat.testBit_lt_two_pow (hm.trans_le (Nat.pow_le_pow_right (by decide) (by omega)))
  | n + 1, k, hk, hz => by
    rw [tz8]
    split
    · rename_i hbit
      by_contra hle
      rw [Nat.testBit_lt_two_pow (hm.trans_le (Nat.pow_le_pow_right (by decide) (by omega)))] at hbit
      cases hbit
    · rename_i hbit
      refine tz8_lt h0 hm n (k + 1) (by omega) fun j hj => ?_
      rcases Nat.lt_or_eq_of_le (Nat.le_of_lt_succ hj) with hj | rfl
      · exact hz j hj
      · exact Bool.eq_false_iff.mpr hbit

theorem sane_log (h : b.Sane) {len : ℕ} (hl : (bsrLog b).1 = .ok len) : (bsrLog b).2.Sane := by
  have hoff := h.off_lt
  rw [bsrLog] at hl ⊢
  split at hl
  · cases hl
  rename_i h0
  rw [if_neg h0]
  split at hl
  · cases hl
  rename_i skip byt b' heq
  simp only [] at hl ⊢
  obtain ⟨rfl, hskip, hbyt, hm⟩ := skip_found (Nat.pos_of_ne_zero h0) (if_pos rfl).symm heq
  have hbyte : ∀ k, b'.byte k < 2 ^ 8 := fun k => UInt8.toNat_lt _
  -- the one that was found is in the buffer
  have hbound : b'.off + 1 + (tz8 byt 8 0 + if skip ≠ 0 then skip <<< 3 - b'.off else 0) ≤ 8 * b'.left := by
    by_cases hs : skip = 0
    · rw [if_pos hs] at hm
      rw [if_neg (not_not.mpr hs)]
      have hlt : byt < 2 ^ (8 - b'.off) := by
        rw [hm, Nat.shiftRight_eq_div_pow, Nat.div_lt_iff_lt_mul (Nat.two_pow_pos _), ← Nat.pow_add,
          Nat.sub_add_cancel (by omega)]
        exact hbyte 0
      have htz := tz8_lt hbyt hlt 8 0 (by omega) fun j hj => absurd hj (Nat.not_lt_zero j)
      omega
    · rw [if_neg hs] at hm
      rw [if_pos hs, Nat.shiftLeft_eq]
      have htz := tz8_lt hbyt (hm ▸ hbyte skip) 8 0 (Nat.le_refl 8) fun j hj => absurd hj (Nat.not_lt_zero j)
      omega
  generalize tz8 byt 8 0 + (if skip ≠ 0 then skip <<< 3 - b'.off else 0) = zeros at hl hbound ⊢
  split at hl
  · cases hl
  rename_i hmany
  rw [if_neg hmany]
  simp only [and_seven, shiftRight_three]
  split
  · exact sane_drop h (Nat.mod_lt _ (by decide)) (fun h1 => by omega) _
  · rename_i h1
    have h2 : b'.left - (b'.off + 1 + zeros) / 8 = 0 := not_not.mp h1
    exact ⟨Nat.mod_lt _ (by decide), h2, fun _ => by show _ % 8 = 0; omega⟩

theorem sane_rubLen (h : b.Sane) {len : ℕ} (hl : (bsrRubLen b).1 = .ok len) :
    (bsrRubLen b).2.Sane ∧ len < 2 ^ 64 := by
  rw [bsrRubLen] at hl ⊢
  split at hl
  · cases hl
  rename_i k b' heq
  have hsane := sane_log h (congrArg Prod.fst heq)
  rw [heq] at hsane
  simp only [] at hl hsane ⊢
  split at hl
  · cases hl
  rename_i hk
  rw [if_neg hk]
  split at hl
  · cases hl
    exact ⟨hsane, by decide⟩
  · cases hl
    exact ⟨hsane, by decide⟩
  · rename_i n
    cases hl
    refine ⟨sane_word hsane (by omega), ?_⟩
    have hlow := word_bound hsane (show n + 1 ≤ 64 by omega)
    refine Nat.xor_lt_two_pow (hlow.trans_le (Nat.pow_le_pow_right (by decide) (by omega))) ?_
    rw [Nat.one_shiftLeft]
    exact Nat.pow_lt_pow_right (by decide) (by omega)

end Bitstream
end Ursockets
