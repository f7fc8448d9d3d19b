/-
# Measuring and chopping atoms

`u3r_met` and `u3r_chop` of `retrieve.c`, at bloq size 0, the one that the
serializers use: how many bits an atom has, and the exclusive or of a span of its
bits into a buffer of words, the slab of `imprison.c`. An atom in the loom is a word below `2 ^ 31` or a
buffer of words of which the last is not zero.

A word is widened to a number when it is read and truncated when it is stored.
`u3r_met` bails for an atom of `2 ^ 27` words or more; its result is `none` then.

Key definitions: `u3rMet`, `u3rChop`, `slabInit`, `slabGrow`, `slabMint`, `Xored`.
Key theorems: `u3rMet_eq`, `u3rChopWords_spec`, `u3rChop_spec`.
-/
import Ursockets.Lib.Words

namespace Ursockets
namespace Chop

open Bits Words

/-- `u3a_is_cat`: the atom is a word of its own. -/
def isCat (a : ℕ) : Bool := a >>> 31 = 0

/-- `u3r_met(0, b)`. -/
def u3rMet (b : ℕ) : Option ℕ :=
  if b = 0 then some 0
  else
    let (gal, daz) :=
      if isCat b then (0, b)
      else ((wordsOf b).length - 1, ((wordsOf b).getD ((wordsOf b).length - 1) 0).toNat)
    if (2 ^ 32 - 1 - 32) >>> 5 < gal then none else some (gal <<< 5 + met0 daz)

/-- The 32 bits of a buffer from bit `bifg` of word `s` on; those of the next word
only if `more` are wanted. -/
def srcWord (src : List UInt32) (s bifg : ℕ) (more : Bool) : ℕ :=
  let low := (src.getD s 0).toNat >>> bifg
  if more then low ^^^ ((src.getD (s + 1) 0).toNat <<< (32 - bifg)) % 2 ^ 32 else low

/-- The end of `u3r_chop_bits`: less than a word. -/
def chopLast (bifg wid bit : ℕ) (dst : List UInt32) (d : ℕ) (src : List UInt32) (s : ℕ) : List UInt32 :=
  if wid = 0 then dst
  else
    let hig := srcWord src s bifg (32 - bifg < wid)
    xorWord dst d ((hig &&& (1 <<< wid - 1)) <<< bit)

/-- The loops of `u3r_chop_bits`: `n` words. -/
def chopLoop (bifg : ℕ) (dst : List UInt32) (d : ℕ) (src : List UInt32) (s : ℕ) : ℕ → List UInt32
  | 0 => dst
  | n + 1 => xorWord (chopLoop bifg dst d src s n) (d + n) (srcWord src (s + n) bifg (bifg ≠ 0))

/-- `u3r_chop_bits` from where `dst` is aligned on. -/
def chopAligned (bifg wid : ℕ) (dst : List UInt32) (d : ℕ) (src : List UInt32) (s : ℕ) : List UInt32 :=
  let byt := wid >>> 5
  chopLast bifg (wid &&& 31) 0 (chopLoop bifg dst d src s byt) (d + byt) src (s + byt)

/-- `u3r_chop_bits`; `d` and `s` are the words that its pointers are at. -/
def u3rChopBits (bifg wid bit : ℕ) (dst : List UInt32) (d : ℕ) (src : List UInt32) (s : ℕ) :
    List UInt32 :=
  if 32 - bit ≤ wid then
    if bit ≠ 0 then
      let low := srcWord src s bifg (bit < bifg)
      let fib := bifg + (32 - bit)
      chopAligned (fib &&& 31) (wid - (32 - bit)) (xorWord dst d (low <<< bit)) (d + 1) src
        (s + if fib >>> 5 ≠ 0 then 1 else 0)
    else chopAligned bifg wid dst d src s
  else chopLast bifg wid bit dst d src s

/-- `u3r_chop_words`. -/
def u3rChopWords (fum wid tou : ℕ) (dst src : List UInt32) : List UInt32 :=
  let len := src.length <<< 5
  let tot := fum + wid
  if len < fum then dst
  else
    let wid := if len < tot then wid - (tot - len) else wid
    u3rChopBits (fum &&& 31) wid (tou &&& 31) dst (tou >>> 5) src (fum >>> 5)

/-- `u3r_chop`. -/
def u3rChop (fum wid tou : ℕ) (dst : List UInt32) (a : ℕ) : List UInt32 :=
  u3rChopWords fum wid tou dst
    (if isCat a then if a = 0 then [] else [UInt32.ofNat a] else wordsOf a)

/-- `u3i_slab_init(sab_u, 0, len)`: the words of a slab, in which one word at least is in place. -/
def slabInit (len : ℕ) : List UInt32 := List.replicate (max 1 ((len + 31) >>> 5)) 0

/-- `u3i_slab_grow(sab_u, 0, len)`. -/
def slabGrow (sab : List UInt32) (len : ℕ) : List UInt32 :=
  let wor := (len + 31) >>> 5
  if wor ≤ sab.length then sab.take wor else sab ++ List.replicate (wor - sab.length) 0

/-- `u3i_slab_mint`: the atom of a slab. -/
def slabMint (sab : List UInt32) : ℕ := loadBytes (toBytes sab) (4 * sab.length)

/-! ### Measuring -/

theorem shiftRight_five (n : ℕ) : n >>> 5 = n / 32 := Nat.shiftRight_eq_div_pow n 5

theorem and_31 (n : ℕ) : n &&& 31 = n % 32 := Nat.and_two_pow_sub_one_eq_mod n 5

theorem isCat_iff {a : ℕ} : isCat a = true ↔ a < 2 ^ 31 := by
  rw [isCat, decide_eq_true_eq, Nat.shiftRight_eq_div_pow, Nat.div_eq_zero_iff]
  exact or_iff_right (by decide)

theorem met0_shiftRight (a k : ℕ) : met0 (a >>> k) = met0 a - k := by
  have h : ∀ m, met0 (a >>> k) ≤ m ↔ met0 a - k ≤ m := by
    intro m
    rw [met0_le_iff, Nat.shiftRight_eq_div_pow, Nat.div_lt_iff_lt_mul (Nat.two_pow_pos k), ← Nat.pow_add,
      ← met0_le_iff]
    omega
  exact Nat.le_antisymm ((h _).mpr (Nat.le_refl _)) ((h _).mp (Nat.le_refl _))

/-- The last word of an atom, which is not zero. -/
theorem last_wordsOf {b : ℕ} (hb : b ≠ 0) :
    ((wordsOf b).getD ((wordsOf b).length - 1) 0).toNat = b >>> (32 * ((met0 b + 31) / 32 - 1)) := by
  have hpos := met0_pos hb
  refine Nat.eq_of_testBit_eq fun k => ?_
  rcases Nat.lt_or_ge k 32 with hk | hk
  · rw [testBit_getD32 _ hk, wordBit_wordsOf, Nat.testBit_shiftRight, length_wordsOf]
  · rw [testBit_word hk, Nat.testBit_shiftRight, testBit_of_met0_le (by omega)]

/-- **`u3r_met` counts the bits of an atom**, if it has less than `2 ^ 27` words. -/
theorem u3rMet_eq (b : ℕ) : u3rMet b = if met0 b ≤ 32 * (2 ^ 27 - 1) then some (met0 b) else none := by
  unfold u3rMet
  by_cases hb : b = 0
  · subst hb
    rfl
  have hpos := met0_pos hb
  rw [if_neg hb]
  by_cases hc : isCat b = true
  · have hle : met0 b ≤ 31 := met0_le_iff.mpr (isCat_iff.mp hc)
    simp only [hc, if_true]
    rw [if_neg (by decide), if_pos (by omega), Nat.zero_shiftLeft, Nat.zero_add]
  · simp only [hc, Bool.false_eq_true, if_false]
    rw [last_wordsOf hb, met0_shiftRight, length_wordsOf, Nat.shiftLeft_eq]
    have hlim : (2 ^ 32 - 1 - 32) >>> 5 = 2 ^ 27 - 2 := by decide
    rw [hlim]
    by_cases hle : met0 b ≤ 32 * (2 ^ 27 - 1)
    · rw [if_pos hle, if_neg (by omega)]
      congr 1
      omega
    · rw [if_neg hle, if_pos (by omega)]

/-! ### Chopping -/

/-- `dst'` is `dst` with `n` bits of `f` exclusive-ored in from place `p` on. -/
structure Xored (dst dst' : List UInt32) (p n : ℕ) (f : ℕ → Bool) : Prop where
  length : dst'.length = dst.length
  bit : ∀ k, wordBit dst' k = (wordBit dst k ^^ (decide (p ≤ k ∧ k < p + n) && f (k - p)))

theorem Xored.nil (dst : List UInt32) (p : ℕ) (f : ℕ → Bool) : Xored dst dst p 0 f := by
  refine ⟨rfl, fun k => ?_⟩
  rw [decide_eq_false (by omega), Bool.false_and, Bool.xor_false]

theorem Xored.trans {dst dst' dst'' : List UInt32} {p n m : ℕ} {f : ℕ → Bool} (h : Xored dst dst' p n f)
    (h' : Xored dst' dst'' (p + n) m fun i => f (n + i)) : Xored dst dst'' p (n + m) f := by
  refine ⟨h'.length.trans h.length, fun k => ?_⟩
  rw [h'.bit, h.bit]
  by_cases h1 : p ≤ k ∧ k < p + n
  · rw [decide_eq_true h1, decide_eq_false (by omega), decide_eq_true (by omega), Bool.false_and,
      Bool.xor_false]
  · rw [decide_eq_false h1, Bool.false_and, Bool.xor_false]
    by_cases h2 : p + n ≤ k ∧ k < p + n + m
    · have h3 : n + (k - (p + n)) = k - p := by omega
      rw [decide_eq_true h2, decide_eq_true (by omega), h3]
    · rw [decide_eq_false h2, decide_eq_false (by omega), Bool.false_and, Bool.false_and]

theorem Xored.congr {dst dst' : List UInt32} {p n p' n' : ℕ} {f g : ℕ → Bool} (h : Xored dst dst' p n f)
    (hp : p = p') (hn : n = n') (hf : ∀ i < n, f i = g i) : Xored dst dst' p' n' g := by
  subst hp hn
  refine ⟨h.length, fun k => ?_⟩
  rw [h.bit]
  by_cases h1 : p ≤ k ∧ k < p + n
  · rw [hf _ (by omega)]
  · rw [decide_eq_false h1, Bool.false_and, Bool.false_and]

/-- An exclusive or into one word. -/
theorem xored_word {dst : List UInt32} {d o n b : ℕ} {f : ℕ → Bool} (hd : d < dst.length) (ho : o + n ≤ 32)
    (hb : ∀ k < 32, b.testBit k = (decide (o ≤ k ∧ k < o + n) && f (k - o))) :
    Xored dst (xorWord dst d b) (32 * d + o) n f := by
  refine ⟨length_xorWord _ _ _, fun k => ?_⟩
  rw [wordBit_xorWord hd]
  by_cases hk : k / 32 = d
  · have h1 : (o ≤ k % 32 ∧ k % 32 < o + n) ↔ (32 * d + o ≤ k ∧ k < 32 * d + o + n) := by omega
    have h2 : k % 32 - o = k - (32 * d + o) := by omega
    rw [if_pos hk, hb _ (Nat.mod_lt k (by decide)), decide_eq_decide.mpr h1, h2]
  · rw [if_neg hk, decide_eq_false (by omega), Bool.false_and, Bool.xor_false]

theorem testBit_srcWord (src : List UInt32) (s : ℕ) {bifg : ℕ} (hb : bifg < 32) (more : Bool) {k : ℕ}
    (hk : k < 32) (hm : k + bifg < 32 ∨ more = true) :
    (srcWord src s bifg more).testBit k = wordBit src (32 * s + bifg + k) := by
  have hlow : k + bifg < 32 → ((src.getD s 0).toNat >>> bifg).testBit k = wordBit src (32 * s + bifg + k) := by
    intro h
    rw [Nat.testBit_shiftRight, testBit_getD32 _ (by omega), Nat.add_assoc]
  unfold srcWord
  cases more with
  | false => exact hlow (hm.resolve_right (by decide))
  | true =>
    simp only [if_true]
    rw [Nat.testBit_xor, Nat.testBit_mod_two_pow, Nat.testBit_shiftLeft, decide_eq_true hk, Bool.true_and]
    rcases Nat.lt_or_ge (k + bifg) 32 with h | h
    · rw [hlow h, decide_eq_false (by omega), Bool.false_and, Bool.xor_false]
    · have h1 : 32 * (s + 1) + (k - (32 - bifg)) = 32 * s + bifg + k := by omega
      rw [Nat.testBit_shiftRight, testBit_word (by omega), Bool.false_xor, decide_eq_true (by omega),
        Bool.true_and, testBit_getD32 _ (by omega), h1]

variable {dst src : List UInt32} {bifg bit wid d s : ℕ}

theorem chopLast_spec (hb : bifg < 32) (hw : bit + wid ≤ 32) (hd : 32 * d + bit + wid ≤ 32 * dst.length) :
    Xored dst (chopLast bifg wid bit dst d src s) (32 * d + bit) wid
      fun i => wordBit src (32 * s + bifg + i) := by
  unfold chopLast
  by_cases h0 : wid = 0
  · rw [if_pos h0, h0]
    exact Xored.nil _ _ _
  rw [if_neg h0]
  refine xored_word (by omega) hw fun k hk => ?_
  rw [Nat.testBit_shiftLeft, Nat.testBit_and, Nat.one_shiftLeft, Nat.testBit_two_pow_sub_one]
  by_cases h1 : bit ≤ k ∧ k < bit + wid
  · have h2 : k - bit < wid := by omega
    have h3 : (k - bit) + bifg < 32 ∨ decide (32 - bifg < wid) = true := by
      rw [decide_eq_true_eq]
      omega
    rw [testBit_srcWord src s hb _ (by omega) h3, decide_eq_true h1, decide_eq_true h1.1,
      decide_eq_true h2, Bool.and_true]
  · rw [decide_eq_false h1, Bool.false_and]
    by_cases h2 : bit ≤ k
    · have h3 : ¬ k - bit < wid := by omega
      rw [decide_eq_false h3, Bool.and_false, Bool.and_false]
    · rw [decide_eq_false h2, Bool.false_and]

theorem chopLoop_spec (hb : bifg < 32) : ∀ {n : ℕ}, d + n ≤ dst.length →
    Xored dst (chopLoop bifg dst d src s n) (32 * d) (32 * n) fun i => wordBit src (32 * s + bifg + i)
  | 0, _ => Xored.nil _ _ _
  | n + 1, h => by
    have ih : Xored dst (chopLoop bifg dst d src s n) (32 * d) (32 * n) _ := chopLoop_spec hb (by omega)
    have hone : Xored (chopLoop bifg dst d src s n) (chopLoop bifg dst d src s (n + 1)) (32 * (d + n) + 0) 32
        fun i => wordBit src (32 * s + bifg + (32 * n + i)) := by
      refine xored_word (by rw [ih.length]; omega) (by omega) fun k hk => ?_
      have h1 : k + bifg < 32 ∨ decide (bifg ≠ 0) = true := by
        rw [decide_eq_true_eq]
        omega
      have h2 : 32 * (s + n) + bifg + k = 32 * s + bifg + (32 * n + (k - 0)) := by omega
      have h3 : 0 ≤ k ∧ k < 0 + 32 := by omega
      rw [testBit_srcWord src _ hb _ hk h1, h2, decide_eq_true h3, Bool.true_and]
    exact ih.trans (hone.congr (by omega) rfl fun _ _ => rfl)

theorem chopAligned_spec (hb : bifg < 32) (hd : 32 * d + wid ≤ 32 * dst.length) :
    Xored dst (chopAligned bifg wid dst d src s) (32 * d) wid fun i => wordBit src (32 * s + bifg + i) := by
  unfold chopAligned
  simp only [shiftRight_five, and_31]
  have h1 : Xored dst (chopLoop bifg dst d src s (wid / 32)) (32 * d) (32 * (wid / 32))
      fun i => wordBit src (32 * s + bifg + i) := chopLoop_spec hb (by omega)
  have h2 : Xored (chopLoop bifg dst d src s (wid / 32))
      (chopLast bifg (wid % 32) 0 (chopLoop bifg dst d src s (wid / 32)) (d + wid / 32) src (s + wid / 32))
      (32 * (d + wid / 32) + 0) (wid % 32) fun i => wordBit src (32 * (s + wid / 32) + bifg + i) :=
    chopLast_spec hb (by omega) (by rw [h1.length]; omega)
  refine (h1.trans (h2.congr ?_ rfl fun i _ => ?_)).congr rfl (by omega) fun _ _ => rfl
  · omega
  · congr 1
    omega

/-- **`u3r_chop_bits` exclusive-ors a span of one buffer into another.** -/
theorem u3rChopBits_spec (hb : bifg < 32) (hbit : bit < 32) (hd : 32 * d + bit + wid ≤ 32 * dst.length) :
    Xored dst (u3rChopBits bifg wid bit dst d src s) (32 * d + bit) wid
      fun i => wordBit src (32 * s + bifg + i) := by
  unfold u3rChopBits
  by_cases hw : 32 - bit ≤ wid
  swap
  · rw [if_neg hw]
    exact chopLast_spec hb (by omega) hd
  rw [if_pos hw]
  by_cases h0 : bit = 0
  · subst h0
    rw [if_neg (by simp)]
    exact chopAligned_spec hb (by omega)
  rw [if_pos h0]
  simp only [shiftRight_five, and_31]
  -- the first word is filled up, and the source goes on where that ended
  have h1 : Xored dst (xorWord dst d (srcWord src s bifg (bit < bifg) <<< bit)) (32 * d + bit) (32 - bit)
      fun i => wordBit src (32 * s + bifg + i) := by
    refine xored_word (by omega) (by omega) fun k hk => ?_
    rw [Nat.testBit_shiftLeft]
    by_cases hk' : bit ≤ k
    · have h2 : bit ≤ k ∧ k < bit + (32 - bit) := by omega
      have h3 : (k - bit) + bifg < 32 ∨ decide (bit < bifg) = true := by
        rw [decide_eq_true_eq]
        omega
      rw [testBit_srcWord src s hb _ (by omega) h3, decide_eq_true hk', decide_eq_true h2]
    · have h2 : ¬ (bit ≤ k ∧ k < bit + (32 - bit)) := by omega
      rw [decide_eq_false hk', decide_eq_false h2, Bool.false_and, Bool.false_and]
  have hbifg : (bifg + (32 - bit)) % 32 < 32 := Nat.mod_lt _ (by decide)
  have hroom : 32 * (d + 1) + (wid - (32 - bit)) ≤
      32 * (xorWord dst d (srcWord src s bifg (bit < bifg) <<< bit)).length := by
    rw [h1.length]
    omega
  have h2 : ∀ s', Xored _ (chopAligned _ _ _ _ src s') (32 * (d + 1)) _ _ := fun s' => chopAligned_spec hbifg hroom
  refine (h1.trans ((h2 (s + if (bifg + (32 - bit)) / 32 ≠ 0 then 1 else 0)).congr (by omega) rfl fun i _ =>
    ?_)).congr rfl (by omega) fun _ _ => rfl
  congr 1
  split <;> omega

/-- **`u3r_chop_words` exclusive-ors a span of one buffer into another**; past its
end all bits of the source are zero. -/
theorem u3rChopWords_spec {fum tou : ℕ} (hd : tou + wid ≤ 32 * dst.length) :
    Xored dst (u3rChopWords fum wid tou dst src) tou wid fun i => wordBit src (fum + i) := by
  -- bits past the end are zero, so that a shorter span does as well
  have hshort : ∀ {dst' : List UInt32} {n : ℕ}, n ≤ wid → 32 * src.length ≤ fum + n →
      Xored dst dst' tou n (fun i => wordBit src (fum + i)) →
      Xored dst dst' tou wid fun i => wordBit src (fum + i) := by
    intro dst' n hn hlen h
    refine ⟨h.length, fun k => ?_⟩
    rw [h.bit]
    by_cases h1 : tou ≤ k ∧ k < tou + n
    · rw [decide_eq_true h1, decide_eq_true (by omega)]
    · rw [decide_eq_false h1, Bool.false_and]
      by_cases h2 : tou ≤ k ∧ k < tou + wid
      · rw [wordBit_of_le (l := src) (by omega), Bool.and_false]
      · rw [decide_eq_false h2, Bool.false_and]
  have hspan : ∀ n ≤ wid, Xored dst
      (u3rChopBits (fum &&& 31) n (tou &&& 31) dst (tou >>> 5) src (fum >>> 5)) tou n
        fun i => wordBit src (fum + i) := by
    intro n hn
    rw [and_31, and_31, shiftRight_five, shiftRight_five]
    refine (u3rChopBits_spec (Nat.mod_lt _ (by decide)) (Nat.mod_lt _ (by decide)) (by omega)).congr
      (by omega) rfl fun i _ => ?_
    congr 1
    omega
  unfold u3rChopWords
  simp only [Nat.shiftLeft_eq]
  by_cases hf : src.length * 2 ^ 5 < fum
  · rw [if_pos hf]
    exact hshort (Nat.zero_le _) (by omega) (Xored.nil _ _ _)
  rw [if_neg hf]
  split
  · exact hshort (by omega) (by omega) (hspan _ (by omega))
  · exact hspan _ (Nat.le_refl _)

theorem wordBit_src (a i : ℕ) :
    wordBit (if isCat a then if a = 0 then [] else [UInt32.ofNat a] else wordsOf a) i = a.testBit i := by
  by_cases hc : isCat a = true
  · rw [if_pos hc]
    rw [isCat_iff] at hc
    by_cases h0 : a = 0
    · rw [if_pos h0, h0, wordBit_of_le (by simp), Nat.zero_testBit]
    rw [if_neg h0]
    rcases Nat.lt_or_ge i 32 with hi | hi
    · exact wordBit_one hi
    · rw [wordBit_of_le (by simpa using hi), Nat.testBit_lt_two_pow]
      exact Nat.lt_of_lt_of_le hc (Nat.pow_le_pow_right (by decide) (by omega))
  · rw [if_neg hc]
    exact wordBit_wordsOf a i

/-- **`u3r_chop` exclusive-ors a span of an atom into a buffer.** -/
theorem u3rChop_spec {fum tou a : ℕ} (hd : tou + wid ≤ 32 * dst.length) :
    Xored dst (u3rChop fum wid tou dst a) tou wid fun i => a.testBit (fum + i) :=
  (u3rChopWords_spec hd).congr rfl rfl fun _ _ => wordBit_src _ _

end Chop
end Ursockets
