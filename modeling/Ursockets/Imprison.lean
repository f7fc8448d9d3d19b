/-
# The slab builder

`u3i_slab_from`, `u3i_slab_grow` and `u3i_slab_mint` of `noun/imprison.c`. A slab of
one word is kept in the slab itself and a longer one in an atom on the heap; its
length is resized without its storage, and minting goes by the length.

What is asked: a slab of `len` blocks made from an atom is that atom cut to the
blocks, a resize cuts or fills up with zeros, and what is minted at any time is that
number, direct if it has 31 bits and otherwise in words of which the top one is not
zero. The sizes are counted in 64 bits, words in 32.

Key definitions: `Slab`, `u3iSlabFrom`, `u3iSlabGrow`, `u3iSlabMint`, `Minted.Is`,
`SlabRight`, `SlabFits`.
Key theorems: `slabSize_spec`, `slabMint_spec`, `slabGrow_spec`, `slab_right_iff`.
-/
import Ursockets.RetrieveBytes

namespace Ursockets
namespace Imprison

open Words Retrieve

/-- How a call ends: with a result, with `c3__fail`, or by a failed assertion or a
write out of bounds. -/
inductive Out (α : Type) where
  | ok (a : α)
  | fail
  | oops
  deriving DecidableEq, Repr

def Out.bind {α β : Type} : Out α → (α → Out β) → Out β
  | .ok a, f => f a
  | .fail, _ => .fail
  | .oops, _ => .oops

/-- `u3i_slab`: the words of the heap atom if there is one, the static storage and the length. -/
structure Slab where
  vat : Option (List UInt32)
  sat : UInt32
  len : ℕ
  deriving DecidableEq, Repr

/-- `buf_w`. -/
def Slab.buf (sab : Slab) : List UInt32 := sab.vat.getD [sab.sat]

@[simp] theorem buf_some (vat : List UInt32) (sat : UInt32) (len : ℕ) : Slab.buf ⟨some vat, sat, len⟩ = vat := rfl

/-- Writing to `buf_w`. -/
def Slab.setBuf (sab : Slab) (buf : List UInt32) : Slab :=
  match sab.vat with
  | none => { sab with sat := buf.headD 0 }
  | some _ => { sab with vat := some buf }

/-- `_ci_slab_size`. -/
def ciSlabSize (met len : ℕ) : Out ℕ :=
  let bit := (len <<< met) % 2 ^ 64
  let worD := ((bit + 0x1f) % 2 ^ 64) >>> 5
  let wor := worD % 2 ^ 32
  if wor ≠ worD ∨ len ≠ bit >>> met then .fail else .ok wor

/-- Word `i` of memory. -/
def wordAt (mem : Mem) (i : ℕ) : UInt32 :=
  UInt32.ofNat (Bits.loadBytes [mem (4 * i), mem (4 * i + 1), mem (4 * i + 2), mem (4 * i + 3)] 4)

/-- `u3i_slab_bare`, over what its memory holds. -/
def u3iSlabBare (mem : Mem) (met len : ℕ) : Out Slab :=
  (ciSlabSize met len).bind fun wor =>
    if wor = 0 ∨ wor = 1 then .ok ⟨none, wordAt mem 0, 1⟩
    else .ok ⟨some ((List.range wor).map (wordAt mem)), 0, wor⟩

/-- `u3r_met(5, a)`. -/
def met5 (m : Loom) (a : ℕ) : ℕ := if a = 0 then 0 else if isCat a then 1 else (bufOf m a).length

/-- `u3i_slab_from`. -/
def u3iSlabFrom (m : Loom) (mem : Mem) (a met len : ℕ) : Out Slab :=
  (u3iSlabBare mem met len).bind fun sab =>
    let buf := (List.range sab.len).map (wordAt (u3rWords m 0 sab.len a mem))
    if met < 5 ∧ sab.len ≤ met5 m a then
      let bit := (len <<< met) % 2 ^ 64
      let worW := (bit >>> 5) % 2 ^ 32
      let bitW := bit &&& 0x1f
      if bitW = 0 then .ok (sab.setBuf buf)
      else if worW < buf.length then
        .ok (sab.setBuf (buf.set worW (buf.getD worW 0 &&& UInt32.ofNat ((1 <<< bitW) - 1))))
      else .oops
    else .ok (sab.setBuf buf)

/-- `u3i_slab_grow`. -/
def u3iSlabGrow (sab : Slab) (met len : ℕ) : Out Slab :=
  (ciSlabSize met len).bind fun wor =>
    if wor ≤ sab.len then .ok { sab with len := wor }
    -- upgrade from static storage, also of a heap atom that shrank to a word
    else if sab.len = 1 then .ok ⟨some (sab.buf.headD 0 :: List.replicate (wor - 1) 0), sab.sat, wor⟩
    -- what is reallocated past the old length is zeroed
    else .ok ⟨some ((List.range wor).map fun i => if i < sab.len then sab.buf.getD i 0 else 0), sab.sat, wor⟩

/-- What is minted: a direct atom, or the words of an indirect one. -/
inductive Minted where
  | cat (a : ℕ)
  | pug (buf : List UInt32)
  deriving DecidableEq, Repr

/-- `u3i_word`. -/
def u3iWord (dat : UInt32) : Minted := if isCat dat.toNat then .cat dat.toNat else .pug [dat]

/-- `_ci_atom_mint`. -/
def ciAtomMint (vat : List UInt32) (len : ℕ) : Minted :=
  if len = 0 then .cat 0
  else if len = 1 ∧ isCat (vat.headD 0).toNat then .cat (vat.headD 0).toNat
  else .pug (vat.take len)

/-- The loop of `u3i_slab_mint` over zeros at the end. -/
def trimLen (buf : List UInt32) : ℕ → ℕ
  | 0 => 0
  | n + 1 => if buf.getD n 0 = 0 then trimLen buf n else n + 1

/-- `u3i_slab_mint`. -/
def u3iSlabMint (sab : Slab) : Out Minted :=
  if sab.len = 1 then
    if sab.vat.isSome then .oops else .ok (u3iWord sab.sat)
  else
    match sab.vat with
    | none => .oops
    | some vat => .ok (ciAtomMint vat (trimLen vat sab.len))

/-! ### What is asked -/

/-- The atom `v` as it is to be kept: direct if it has 31 bits, and otherwise in words of
which the top one is not zero. -/
def Minted.Is (v : ℕ) : Minted → Prop
  | .cat a => a = v ∧ v < 2 ^ 31
  | .pug buf => valueOf buf = v ∧ 2 ^ 31 ≤ v ∧ buf.getLastD 0 ≠ 0

/-- The words that `len` blocks of size `met` take. -/
def blockWords (met len : ℕ) : ℕ := (len * 2 ^ met + 31) / 32

/-- No slab has that many words. -/
def Refused (met len : ℕ) : Prop := 2 ^ 32 ≤ blockWords met len

instance (met len : ℕ) : Decidable (Refused met len) := inferInstanceAs (Decidable (_ ≤ _))

/-- The slab is minted as `v`, now and after each of the resizes to come. -/
def GrowsRight : Slab → ℕ → List (ℕ × ℕ) → Prop
  | sab, v, [] => ∃ r, u3iSlabMint sab = .ok r ∧ r.Is v
  | sab, v, (met, len) :: gs =>
    (∃ r, u3iSlabMint sab = .ok r ∧ r.Is v) ∧
      if Refused met len then u3iSlabGrow sab met len = .fail
      else ∃ sab', u3iSlabGrow sab met len = .ok sab' ∧ GrowsRight sab' (v % 2 ^ (len * 2 ^ met)) gs

/-- The slab made from the atom `x`, whatever its memory was. -/
def SlabRight (m : Loom) (a x met len : ℕ) (gs : List (ℕ × ℕ)) : Prop :=
  ∀ mem, if Refused met len then u3iSlabFrom m mem a met len = .fail
    else ∃ sab, u3iSlabFrom m mem a met len = .ok sab ∧ GrowsRight sab (x % 2 ^ (len * 2 ^ met)) gs

/-! ### Where the sizes fit -/

/-- The bits do not stop less than a word short of 2^64. -/
def SizeFits (met len : ℕ) : Prop := len * 2 ^ met + 31 < 2 ^ 64 ∨ 2 ^ 64 ≤ len * 2 ^ met

instance (met len : ℕ) : Decidable (SizeFits met len) := inferInstanceAs (Decidable (_ ∨ _))

/-- A resize leaves a slab of one word in the static storage and one of another length on the heap,
and cuts off no bit that is set in a word it keeps. -/
def StepFits (sab : Slab) (met len : ℕ) : Prop :=
  (sab.vat = none ∧ blockWords met len ≤ sab.len ↔ blockWords met len = 1) ∧
    ∀ i, len * 2 ^ met ≤ i → i < 32 * blockWords met len → wordBit (sab.buf.take sab.len) i = false

/-- Each of the resizes fits the slab it comes to. -/
def GrowsFit : Slab → List (ℕ × ℕ) → Prop
  | _, [] => True
  | sab, (met, len) :: gs =>
    SizeFits met len ∧ (Refused met len ∨
      StepFits sab met len ∧ ∀ sab', u3iSlabGrow sab met len = .ok sab' → GrowsFit sab' gs)

/-- The sizes fit, and no slab of no blocks is made from an atom with a low word. -/
def SlabFits (m : Loom) (a x met len : ℕ) (gs : List (ℕ × ℕ)) : Prop :=
  SizeFits met len ∧ (Refused met len ∨
    WordsFit 0 (max 1 (blockWords met len)) x ∧ (len = 0 → x % 2 ^ 32 = 0) ∧
      ∀ mem sab, u3iSlabFrom m mem a met len = .ok sab → GrowsFit sab gs)

/-! ### Sizes -/

/-- **What `_ci_slab_size` does**: it takes the words of the blocks, and fails where there are
too many, except that bits which stop less than a word short of 2^64 count for none. -/
theorem slabSize_spec (met len : ℕ) :
    (SizeFits met len → ¬ Refused met len → ciSlabSize met len = .ok (blockWords met len)) ∧
      (SizeFits met len → Refused met len → ciSlabSize met len = .fail) ∧
      (¬ SizeFits met len → ciSlabSize met len = .ok 0) := by
  have hpow : 0 < 2 ^ met := Nat.two_pow_pos met
  simp only [ciSlabSize, Nat.shiftLeft_eq, Nat.shiftRight_eq_div_pow, SizeFits, Refused, blockWords]
  by_cases hbig : 2 ^ 64 ≤ len * 2 ^ met
  · -- the check that shifts back finds the bits that were lost
    have h1 : len * 2 ^ met % 2 ^ 64 / 2 ^ met < len := by
      apply Nat.div_lt_of_lt_mul
      rw [Nat.mul_comm]
      exact Nat.lt_of_lt_of_le (Nat.mod_lt _ (by decide)) (Nat.mul_comm len _ ▸ hbig)
    have h2 : 2 ^ 32 ≤ (len * 2 ^ met + 31) / 32 := by omega
    refine ⟨fun _ h => absurd h2 h, fun _ _ => ?_, fun h => absurd (Or.inr hbig) h⟩
    rw [if_pos (Or.inr (Nat.ne_of_gt h1))]
  · have h1 : len * 2 ^ met % 2 ^ 64 = len * 2 ^ met := Nat.mod_eq_of_lt (Nat.lt_of_not_le hbig)
    have h2 : len * 2 ^ met / 2 ^ met = len := Nat.mul_div_cancel len hpow
    simp only [h1, h2, ne_eq, not_true, or_false]
    generalize len * 2 ^ met = t at hbig ⊢
    by_cases hfit : t + 31 < 2 ^ 64
    · have h3 : (t + 0x1f) % 2 ^ 64 / 2 ^ 5 = (t + 31) / 32 := by omega
      rw [h3]
      refine ⟨fun _ h => ?_, fun _ h => ?_, fun h => absurd (Or.inl hfit) h⟩
      · rw [if_neg (by omega), Nat.mod_eq_of_lt (by omega)]
      · rw [if_pos (by omega)]
    · have h3 : (t + 0x1f) % 2 ^ 64 / 2 ^ 5 = 0 := by omega
      rw [h3]
      exact ⟨fun h => absurd h (by omega), fun h => absurd h (by omega), fun _ => rfl⟩

theorem refused_of_not_fits {met len : ℕ} (h : ¬ SizeFits met len) : Refused met len := by
  rw [SizeFits] at h
  rw [Refused, blockWords]
  omega

/-! ### Minting -/

theorem Minted.Is.inj {r : Minted} {v w : ℕ} (hv : r.Is v) (hw : r.Is w) : v = w := by
  cases r with
  | cat a => exact hv.1.symm.trans hw.1
  | pug buf => exact hv.1.symm.trans hw.1

theorem valueOf_ge : ∀ {l : List UInt32}, l.getLastD 0 ≠ 0 → 2 ^ (32 * (l.length - 1)) ≤ valueOf l
  | [], h => absurd rfl h
  | [w], h => by
    have h1 : 0 < w.toNat := Nat.pos_of_ne_zero fun hw => h (UInt32.toNat_inj.mp hw)
    simpa [valueOf] using Nat.succ_le_of_lt h1
  | w :: w' :: l, h => by
    have h1 : 2 ^ (32 * ((w' :: l).length - 1)) ≤ valueOf (w' :: l) := valueOf_ge (by simpa using h)
    have h2 : 2 ^ (32 * ((w :: w' :: l).length - 1)) = 2 ^ 32 * 2 ^ (32 * ((w' :: l).length - 1)) := by
      rw [← Nat.pow_add]
      congr 1
      simp only [List.length_cons]
      omega
    rw [h2, valueOf]
    exact Nat.le_trans (Nat.mul_le_mul_left _ h1) (Nat.le_add_left _ _)

theorem trimLen_spec (buf : List UInt32) : ∀ n,
    valueOf (buf.take (trimLen buf n)) = valueOf (buf.take n) ∧ trimLen buf n ≤ n ∧
      (trimLen buf n = 0 ∨ buf.getD (trimLen buf n - 1) 0 ≠ 0)
  | 0 => ⟨rfl, Nat.le_refl 0, Or.inl rfl⟩
  | n + 1 => by
    rw [trimLen]
    split
    · rename_i h
      obtain ⟨h1, h2, h3⟩ := trimLen_spec buf n
      refine ⟨?_, Nat.le_succ_of_le h2, h3⟩
      rw [h1, valueOf_eq_iff]
      intro i
      -- the word that is left out is zero
      rw [testBit_valueOf, wordBit_take, wordBit_take]
      rcases Nat.lt_or_ge i (32 * n) with hi | hi
      · rw [decide_eq_true hi, decide_eq_true (by omega)]
      · rw [decide_eq_false (by omega), Bool.false_and]
        rcases Nat.lt_or_ge i (32 * (n + 1)) with hj | hj
        · have h4 : i / 32 = n := by omega
          rw [decide_eq_true hj, Bool.true_and, wordBit, h4, h]
          simp
        · rw [decide_eq_false (by omega), Bool.false_and]
    · rename_i h
      exact ⟨rfl, Nat.le_refl _, Or.inr h⟩

theorem u3iWord_is (dat : UInt32) : (u3iWord dat).Is (valueOf [dat]) := by
  have h1 : valueOf [dat] = dat.toNat := by rw [valueOf, valueOf, Nat.mul_zero, Nat.add_zero]
  rw [u3iWord, h1]
  split
  · rename_i h
    exact ⟨rfl, isCat_iff.mp h⟩
  · rename_i h
    rw [isCat_iff, Nat.not_lt] at h
    refine ⟨h1, h, ?_⟩
    intro h0
    have h2 : dat.toNat = 0 := by rw [show dat = 0 from h0]; rfl
    omega

theorem ciAtomMint_is {vat : List UInt32} {n : ℕ} (hn : n ≤ vat.length) (h : n = 0 ∨ vat.getD (n - 1) 0 ≠ 0) :
    (ciAtomMint vat n).Is (valueOf (vat.take n)) := by
  rw [ciAtomMint]
  split
  · rename_i h0
    rw [h0]
    exact ⟨rfl, Nat.two_pow_pos 31⟩
  · rename_i h0
    have hlast : vat.getD (n - 1) 0 ≠ 0 := h.resolve_left h0
    split
    · rename_i h1
      obtain ⟨rfl, hcat⟩ := h1
      cases vat with
      | nil => exact absurd hn (by decide)
      | cons w l =>
        have h2 : valueOf ((w :: l).take 1) = w.toNat := by
          rw [List.take_succ_cons, List.take_zero, valueOf, valueOf, Nat.mul_zero, Nat.add_zero]
        rw [h2]
        exact ⟨rfl, isCat_iff.mp hcat⟩
    · rename_i h1
      have hlen : (vat.take n).length = n := by rw [List.length_take, Nat.min_eq_left hn]
      have htop : (vat.take n).getLastD 0 ≠ 0 := by
        have h2 : (vat.take n).getLastD 0 = vat.getD (n - 1) 0 := by
          rw [List.getLastD_eq_getLast?, List.getLast?_eq_getElem?, hlen, List.getElem?_take,
            if_pos (by omega), List.getD_eq_getElem?_getD]
        rw [h2]
        exact hlast
      refine ⟨rfl, ?_, htop⟩
      by_cases h1' : n = 1
      · subst h1'
        cases vat with
        | nil => exact absurd hn (by decide)
        | cons w l =>
          have h2 : valueOf ((w :: l).take 1) = w.toNat := by
            rw [List.take_succ_cons, List.take_zero, valueOf, valueOf, Nat.mul_zero, Nat.add_zero]
          have h3 : ¬ isCat w.toNat := fun h => h1 ⟨rfl, h⟩
          rw [isCat_iff, Nat.not_lt] at h3
          rw [h2]
          exact h3
      · have h2 := valueOf_ge htop
        rw [hlen] at h2
        exact Nat.le_trans (Nat.pow_le_pow_right (by decide) (by omega)) h2

/-- **What is minted** is the number in the words of the length, if these are kept where that
length is looked for. -/
theorem slabMint_spec {sab : Slab} (hlen : sab.len ≤ sab.buf.length) :
    (sab.vat = none ↔ sab.len = 1) ∧ (∃ r, u3iSlabMint sab = .ok r ∧ r.Is (valueOf (sab.buf.take sab.len))) ∨
      ¬ (sab.vat = none ↔ sab.len = 1) ∧ u3iSlabMint sab = .oops := by
  obtain ⟨vat, sat, len⟩ := sab
  rw [u3iSlabMint]
  by_cases h1 : len = 1
  · subst h1
    cases vat with
    | none => exact Or.inl ⟨by simp, u3iWord sat, rfl, u3iWord_is sat⟩
    | some vat => exact Or.inr ⟨by simp, rfl⟩
  · cases vat with
    | none => exact Or.inr ⟨by simpa using h1, by rw [if_neg h1]⟩
    | some vat =>
      obtain ⟨h2, h3, h4⟩ := trimLen_spec vat len
      refine Or.inl ⟨by simpa using h1, ciAtomMint vat (trimLen vat len), by rw [if_neg h1], ?_⟩
      have hvat : trimLen vat len ≤ vat.length := Nat.le_trans h3 hlen
      have h5 := ciAtomMint_is hvat h4
      rw [h2] at h5
      exact h5

/-! ### Resizing -/

theorem valueOf_padded (buf : List UInt32) {n k : ℕ} (h : n ≤ k) :
    valueOf ((List.range k).map fun i => if i < n then buf.getD i 0 else 0) = valueOf (buf.take n) := by
  rw [valueOf_eq_iff]
  intro i
  rw [testBit_valueOf, wordBit_take, wordBit, List.getD_eq_getElem?_getD, List.getElem?_map]
  rcases Nat.lt_or_ge (i / 32) k with hi | hi
  · rw [List.getElem?_range hi, Option.map_some, Option.getD_some]
    split
    · rw [decide_eq_true (by omega), Bool.true_and]; rfl
    · rw [decide_eq_false (by omega), Bool.false_and]
      simp
  · rw [List.getElem?_eq_none (by rwa [List.length_range]), decide_eq_false (by omega), Bool.false_and]
    simp

theorem valueOf_replicate : ∀ n, valueOf (List.replicate n 0) = 0
  | 0 => rfl
  | n + 1 => by rw [List.replicate_succ, valueOf, valueOf_replicate n]; rfl

theorem valueOf_head {buf : List UInt32} (h : 1 ≤ buf.length) (n : ℕ) :
    valueOf (buf.headD 0 :: List.replicate n 0) = valueOf (buf.take 1) := by
  cases buf with
  | nil => exact absurd h (by decide)
  | cons w l => rw [valueOf, valueOf_replicate, List.take_succ_cons, List.take_zero, valueOf, valueOf]; rfl

/-- **What a resize does**: the words kept are those of the new length, and storage once on the
heap stays there. -/
theorem slabGrow_spec {sab : Slab} {met len : ℕ} (hlen : sab.len ≤ sab.buf.length) (hfit : SizeFits met len)
    (href : ¬ Refused met len) : ∃ sab', u3iSlabGrow sab met len = .ok sab' ∧
      sab'.len = blockWords met len ∧ sab'.len ≤ sab'.buf.length ∧
      valueOf (sab'.buf.take sab'.len) = valueOf (sab.buf.take sab.len) % 2 ^ (32 * blockWords met len) ∧
      (sab'.vat = none ↔ sab.vat = none ∧ blockWords met len ≤ sab.len) := by
  have hgrow {n : ℕ} (h : sab.len ≤ n) :
      valueOf (sab.buf.take sab.len) % 2 ^ (32 * n) = valueOf (sab.buf.take sab.len) := by
    apply Nat.mod_eq_of_lt
    refine Nat.lt_of_lt_of_le (valueOf_lt _) (Nat.pow_le_pow_right (by decide) ?_)
    rw [List.length_take]
    omega
  simp only [u3iSlabGrow, (slabSize_spec met len).1 hfit href, Out.bind]
  by_cases hle : blockWords met len ≤ sab.len
  · rw [if_pos hle]
    refine ⟨_, rfl, rfl, Nat.le_trans hle hlen, ?_, (and_iff_left hle).symm⟩
    have h1 : sab.buf.take (blockWords met len) = (sab.buf.take sab.len).take (blockWords met len) := by
      rw [List.take_take, Nat.min_eq_left hle]
    exact (congrArg valueOf h1).trans (valueOf_take _ _)
  · rw [if_neg hle]
    have hnone {vat : List UInt32} : some vat = none ↔ sab.vat = none ∧ blockWords met len ≤ sab.len :=
      iff_of_false (by simp) (fun h => hle h.2)
    by_cases h1 : sab.len = 1
    · rw [if_pos h1]
      refine ⟨_, rfl, rfl, ?_, ?_, hnone⟩
      · rw [buf_some, List.length_cons, List.length_replicate]
        simp only
        omega
      · rw [hgrow (by omega), buf_some, List.take_of_length_le, valueOf_head (h1 ▸ hlen), h1]
        rw [List.length_cons, List.length_replicate]
        simp only
        omega
    · rw [if_neg h1]
      refine ⟨_, rfl, rfl, ?_, ?_, hnone⟩
      · rw [buf_some, List.length_map, List.length_range]
      · rw [hgrow (by omega), buf_some, List.take_of_length_le, valueOf_padded sab.buf (Nat.le_of_not_le hle)]
        rw [List.length_map, List.length_range]

/-- Cutting at a word and cutting below it are the same where no bit between is set. -/
theorem mod_eq_iff {v n k : ℕ} (h : n ≤ k) :
    v % 2 ^ k = v % 2 ^ n ↔ ∀ i, n ≤ i → i < k → v.testBit i = false := by
  constructor
  · intro heq i hn hk
    have h1 : (v % 2 ^ k).testBit i = (v % 2 ^ n).testBit i := by rw [heq]
    rw [Nat.testBit_mod_two_pow, Nat.testBit_mod_two_pow, decide_eq_true hk,
      decide_eq_false (Nat.not_lt.mpr hn), Bool.true_and, Bool.false_and] at h1
    exact h1
  · intro hz
    apply Nat.eq_of_testBit_eq
    intro i
    rw [Nat.testBit_mod_two_pow, Nat.testBit_mod_two_pow]
    rcases Nat.lt_or_ge i n with hn | hn
    · rw [decide_eq_true hn, decide_eq_true (Nat.lt_of_lt_of_le hn h)]
    · rw [decide_eq_false (Nat.not_lt.mpr hn), Bool.false_and]
      rcases Nat.lt_or_ge i k with hk | hk
      · rw [hz i hn hk, Bool.and_false]
      · rw [decide_eq_false (Nat.not_lt.mpr hk), Bool.false_and]

theorem bits_le_words (met len : ℕ) : len * 2 ^ met ≤ 32 * blockWords met len := by
  rw [blockWords]
  omega

/-- A slab is minted as `v` exactly when its words are where its length says and make `v`. -/
theorem mint_is_iff {sab : Slab} (hlen : sab.len ≤ sab.buf.length) {v : ℕ} :
    (∃ r, u3iSlabMint sab = .ok r ∧ r.Is v) ↔
      (sab.vat = none ↔ sab.len = 1) ∧ valueOf (sab.buf.take sab.len) = v := by
  rcases slabMint_spec hlen with ⟨h1, r, h2, h3⟩ | ⟨h1, h2⟩
  · constructor
    · rintro ⟨r', h4, h5⟩
      obtain rfl : r = r' := Out.ok.inj (h2.symm.trans h4)
      exact ⟨h1, h3.inj h5⟩
    · rintro ⟨-, rfl⟩
      exact ⟨r, h2, h3⟩
  · refine iff_of_false ?_ (fun h => h1 h.1)
    rintro ⟨r, h3, -⟩
    exact absurd (h2.symm.trans h3) (by simp)

/-- **A resize is right exactly when it fits.** -/
theorem step_iff {sab sab' : Slab} {met len : ℕ} (hlen : sab.len ≤ sab.buf.length) (hfit : SizeFits met len)
    (href : ¬ Refused met len) (hg : u3iSlabGrow sab met len = .ok sab') :
    (∃ r, u3iSlabMint sab' = .ok r ∧ r.Is (valueOf (sab.buf.take sab.len) % 2 ^ (len * 2 ^ met))) ↔
      StepFits sab met len := by
  obtain ⟨sab₁, h1, h2, h3, h4, h5⟩ := slabGrow_spec hlen hfit href
  obtain rfl : sab₁ = sab' := Out.ok.inj (h1.symm.trans hg)
  rw [mint_is_iff h3, StepFits, h4, h5, h2, mod_eq_iff (bits_le_words met len)]
  simp only [testBit_valueOf]

theorem grows_right_iff : ∀ (gs : List (ℕ × ℕ)) {sab : Slab} {v : ℕ}, sab.len ≤ sab.buf.length →
    (∃ r, u3iSlabMint sab = .ok r ∧ r.Is v) → (GrowsRight sab v gs ↔ GrowsFit sab gs)
  | [], sab, v, _, hm => iff_of_true hm trivial
  | (met, len) :: gs, sab, v, hlen, hm => by
    rw [GrowsRight, GrowsFit]
    have hv : valueOf (sab.buf.take sab.len) = v := ((mint_is_iff hlen).mp hm).2
    by_cases hfit : SizeFits met len
    · by_cases href : Refused met len
      · have h1 : u3iSlabGrow sab met len = .fail := by
          rw [u3iSlabGrow, (slabSize_spec met len).2.1 hfit href]; rfl
        rw [if_pos href]
        exact iff_of_true ⟨hm, h1⟩ ⟨hfit, Or.inl href⟩
      · obtain ⟨sab', h1, h2, h3, -, -⟩ := slabGrow_spec hlen hfit href
        have hstep := step_iff hlen hfit href h1
        rw [hv] at hstep
        rw [if_neg href]
        constructor
        · rintro ⟨-, sab'', h4, h5⟩
          obtain rfl : sab' = sab'' := Out.ok.inj (h1.symm.trans h4)
          have hm' : ∃ r, u3iSlabMint sab' = .ok r ∧ r.Is (v % 2 ^ (len * 2 ^ met)) := by
            cases gs with
            | nil => exact h5
            | cons g gs => exact h5.1
          refine ⟨hfit, Or.inr ⟨hstep.mp hm', fun sab'' h6 => ?_⟩⟩
          obtain rfl : sab' = sab'' := Out.ok.inj (h1.symm.trans h6)
          exact (grows_right_iff gs h3 hm').mp h5
        · rintro ⟨-, h4⟩
          obtain ⟨h5, h6⟩ := h4.resolve_left href
          exact ⟨hm, sab', h1, (grows_right_iff gs h3 (hstep.mpr h5)).mpr (h6 sab' h1)⟩
    · -- a size that wraps around is taken for none
      have href : Refused met len := refused_of_not_fits hfit
      have h1 : u3iSlabGrow sab met len ≠ .fail := by
        rw [u3iSlabGrow, (slabSize_spec met len).2.2 hfit]
        simp only [Out.bind, if_pos (Nat.zero_le sab.len)]
        simp
      rw [if_pos href]
      exact iff_of_false (fun h => h1 h.2) (fun h => hfit h.1)

/-! ### Making a slab -/

theorem testBit_wordAt (mem : Mem) (i : ℕ) {k : ℕ} (hk : k < 32) :
    (wordAt mem i).toNat.testBit k = (mem (4 * i + k / 8)).toNat.testBit (k % 8) := by
  rw [wordAt, testBit_ofNat32, Bits.testBit_loadBytes, decide_eq_true hk, Bool.true_and, Bool.true_and,
    Bits.bitAt]
  have h1 : k / 8 < 4 := by omega
  congr 2
  obtain h | h | h | h : k / 8 = 0 ∨ k / 8 = 1 ∨ k / 8 = 2 ∨ k / 8 = 3 := by omega
  all_goals rw [h]; rfl

theorem wordBit_wordAt (mem : Mem) (n j : ℕ) :
    wordBit ((List.range n).map (wordAt mem)) j =
      (decide (j < 32 * n) && (mem (j / 8)).toNat.testBit (j % 8)) := by
  rw [wordBit, List.getD_eq_getElem?_getD, List.getElem?_map]
  rcases Nat.lt_or_ge (j / 32) n with hj | hj
  · have h1 : 4 * (j / 32) + j % 32 / 8 = j / 8 := by omega
    have h2 : j % 32 % 8 = j % 8 := by omega
    rw [List.getElem?_range hj, Option.map_some, Option.getD_some, testBit_wordAt _ _ (by omega), h1, h2,
      decide_eq_true (by omega), Bool.true_and]
  · rw [List.getElem?_eq_none (by rwa [List.length_range]), decide_eq_false (by omega), Bool.false_and]
    simp

/-- Masking one word of a buffer. -/
theorem wordBit_mask {buf : List UInt32} {w b : ℕ} (hw : w < buf.length) (j : ℕ) :
    wordBit (buf.set w (buf.getD w 0 &&& UInt32.ofNat ((1 <<< b) - 1))) j =
      (wordBit buf j && (decide (j / 32 ≠ w) || decide (j % 32 < b))) := by
  rw [wordBit, List.getD_eq_getElem?_getD, List.getElem?_set]
  by_cases hj : w = j / 32
  · rw [if_pos hj, if_pos hw, Option.getD_some, UInt32.toNat_and, Nat.testBit_and, testBit_ofNat32,
      decide_eq_true (by omega : j % 32 < 32), Bool.true_and, Nat.one_shiftLeft, Nat.testBit_two_pow_sub_one,
      decide_eq_false (not_not.mpr hj.symm), Bool.false_or, wordBit, hj]
  · rw [if_neg hj, decide_eq_true (Ne.symm hj), Bool.true_or, Bool.and_true, wordBit,
      List.getD_eq_getElem?_getD]

/-- Whether the top word is masked. -/
def Masked (m : Loom) (a met len : ℕ) : Prop :=
  met < 5 ∧ max 1 (blockWords met len) ≤ met5 m a ∧ len * 2 ^ met % 32 ≠ 0

instance (m : Loom) (a met len : ℕ) : Decidable (Masked m a met len) := inferInstanceAs (Decidable (_ ∧ _ ∧ _))

theorem setBuf_spec {sab : Slab} {buf : List UInt32} (hs : sab.vat = none ↔ sab.len = 1) (hlen : buf.length = sab.len) :
    (sab.setBuf buf).buf = buf ∧ (sab.setBuf buf).len = sab.len ∧
      ((sab.setBuf buf).vat = none ↔ (sab.setBuf buf).len = 1) := by
  obtain ⟨vat, sat, len⟩ := sab
  cases vat with
  | some vat => exact ⟨rfl, rfl, iff_of_false (by simp [Slab.setBuf]) (by simpa [Slab.setBuf] using hs)⟩
  | none =>
    have h1 : len = 1 := hs.mp rfl
    obtain ⟨w, rfl⟩ := List.length_eq_one_iff.mp (hlen.trans h1)
    exact ⟨rfl, rfl, iff_of_true rfl h1⟩

theorem slabBare_spec {met len : ℕ} (mem : Mem) (hfit : SizeFits met len) (href : ¬ Refused met len) :
    ∃ sab, u3iSlabBare mem met len = .ok sab ∧ sab.len = max 1 (blockWords met len) ∧
      (sab.vat = none ↔ sab.len = 1) := by
  simp only [u3iSlabBare, (slabSize_spec met len).1 hfit href, Out.bind]
  split
  · exact ⟨_, rfl, by simp only; omega, by simp⟩
  · exact ⟨_, rfl, by simp only; omega, iff_of_false (by simp) (by simp only; omega)⟩

/-- **What `u3i_slab_from` makes**: the words that `u3r_words` copies, below the mask if there is one. -/
theorem slabFrom_spec {m : Loom} {a met len : ℕ} (mem : Mem) (hfit : SizeFits met len) (href : ¬ Refused met len) :
    ∃ sab, u3iSlabFrom m mem a met len = .ok sab ∧ sab.len = max 1 (blockWords met len) ∧
      sab.len ≤ sab.buf.length ∧ (sab.vat = none ↔ sab.len = 1) ∧
      ∀ j, wordBit (sab.buf.take sab.len) j = (decide (j < 32 * max 1 (blockWords met len)) &&
        decide (Masked m a met len → j < len * 2 ^ met) &&
        (u3rWords m 0 (max 1 (blockWords met len)) a mem (j / 8)).toNat.testBit (j % 8)) := by
  obtain ⟨sab, hbare, hl, hvat⟩ := slabBare_spec mem hfit href
  simp only [u3iSlabFrom, hbare, Out.bind, hl]
  have hbuf : ((List.range (max 1 (blockWords met len))).map
      (wordAt (u3rWords m 0 (max 1 (blockWords met len)) a mem))).length = sab.len := by
    rw [List.length_map, List.length_range, hl]
  have hbits := wordBit_wordAt (u3rWords m 0 (max 1 (blockWords met len)) a mem) (max 1 (blockWords met len))
  generalize (List.range (max 1 (blockWords met len))).map
    (wordAt (u3rWords m 0 (max 1 (blockWords met len)) a mem)) = buf at hbuf hbits ⊢
  -- the slab over a buffer of its length
  have hdone {buf' : List UInt32} (hb : buf'.length = sab.len)
      (hj : ∀ j, wordBit buf' j = (wordBit buf j && decide (Masked m a met len → j < len * 2 ^ met))) :
      ∃ sab', Out.ok (sab.setBuf buf') = .ok sab' ∧ sab'.len = max 1 (blockWords met len) ∧
        sab'.len ≤ sab'.buf.length ∧ (sab'.vat = none ↔ sab'.len = 1) ∧
        ∀ j, wordBit (sab'.buf.take sab'.len) j = (decide (j < 32 * max 1 (blockWords met len)) &&
          decide (Masked m a met len → j < len * 2 ^ met) &&
          (u3rWords m 0 (max 1 (blockWords met len)) a mem (j / 8)).toNat.testBit (j % 8)) := by
    obtain ⟨h1, h2, h3⟩ := setBuf_spec hvat hb
    refine ⟨_, rfl, h2.trans hl, by rw [h1, h2, hb], h3, fun j => ?_⟩
    rw [h1, h2, ← hb, List.take_length, hj, hbits, Bool.and_right_comm]
  have hunmasked (hn : ¬ Masked m a met len) (j : ℕ) :
      wordBit buf j = (wordBit buf j && decide (Masked m a met len → j < len * 2 ^ met)) := by
    rw [decide_eq_true (fun h => absurd h hn), Bool.and_true]
  by_cases hmask : met < 5 ∧ max 1 (blockWords met len) ≤ met5 m a
  · rw [if_pos hmask]
    have hlt : len * 2 ^ met < 2 ^ 64 := by
      rw [Refused, blockWords] at href
      omega
    have hand : len * 2 ^ met &&& 0x1f = len * 2 ^ met % 32 := Nat.and_two_pow_sub_one_eq_mod _ 5
    have hwor : (len * 2 ^ met) >>> 5 % 2 ^ 32 = len * 2 ^ met / 32 := by
      rw [Nat.shiftRight_eq_div_pow]
      rw [Refused, blockWords] at href
      omega
    simp only [Nat.shiftLeft_eq len, Nat.mod_eq_of_lt hlt, hand, hwor]
    by_cases hbit : len * 2 ^ met % 32 = 0
    · rw [if_pos hbit]
      exact hdone hbuf (hunmasked fun h => h.2.2 hbit)
    · have hw : len * 2 ^ met / 32 < buf.length := by
        rw [hbuf, hl, blockWords]
        omega
      rw [if_neg hbit, if_pos hw]
      refine hdone (by rw [List.length_set, hbuf]) fun j => ?_
      have hm : Masked m a met len := ⟨hmask.1, hmask.2, hbit⟩
      rw [wordBit_mask hw]
      -- below the mask, above it in its word, and past the buffer
      by_cases hj : j < 32 * buf.length
      · congr 1
        rw [← Bool.decide_or]
        apply decide_eq_decide.mpr
        rw [hbuf, hl, blockWords] at hj
        constructor
        · intro h _
          omega
        · intro h
          have h1 := h hm
          omega
      · rw [wordBit_of_le (Nat.le_of_not_lt hj), Bool.false_and, Bool.false_and]
  · rw [if_neg hmask]
    exact hdone hbuf (hunmasked fun h => hmask ⟨h.1, h.2.1⟩)

/-- Below the mask, or without one below the words taken, the atom is cut to its blocks. -/
theorem masked_cut {m : Loom} {a x met len : ℕ} (ha : Den m a (.atom x)) (hlen : len ≠ 0) (j : ℕ) :
    (decide (j < 32 * max 1 (blockWords met len)) && decide (Masked m a met len → j < len * 2 ^ met) &&
      x.testBit j) = (decide (j < len * 2 ^ met) && x.testBit j) := by
  have hpos : 0 < len * 2 ^ met := Nat.mul_pos (Nat.pos_of_ne_zero hlen) (Nat.two_pow_pos met)
  by_cases hj : j < len * 2 ^ met
  · rw [decide_eq_true hj, decide_eq_true (fun _ => hj), decide_eq_true (by rw [blockWords]; omega)]
    rfl
  · rw [decide_eq_false hj, Bool.false_and]
    by_cases hm : Masked m a met len
    · rw [decide_eq_false (fun h : Masked m a met len → _ => hj (h hm)), Bool.and_false, Bool.false_and]
    · by_cases hw : j < 32 * max 1 (blockWords met len)
      · -- the atom has no bit in the words that are not masked
        have h32 : len * 2 ^ met % 32 ≠ 0 := by
          rw [blockWords] at hw
          omega
        have hmet : met < 5 := by
          by_contra hge
          obtain ⟨k, rfl⟩ := Nat.exists_eq_add_of_le (Nat.le_of_not_lt hge)
          apply h32
          rw [Nat.pow_add, Nat.mul_left_comm]
          exact Nat.mul_mod_right 32 _
        have hmet5 : met5 m a < max 1 (blockWords met len) := Nat.lt_of_not_le fun h => hm ⟨hmet, h, h32⟩
        have hx : x < 2 ^ (32 * met5 m a) := by
          rw [met5]
          cases ha with
          | cat ha =>
            split
            · rename_i h0; rw [h0]; exact Nat.two_pow_pos _
            · rw [if_pos (isCat_iff.mpr ha)]
              exact Nat.lt_of_lt_of_le ha (Nat.pow_le_pow_right (by decide) (by decide))
          | pug hp hb _ _ =>
            have hne : a ≠ 0 := by
              rintro rfl
              exact not_cat_of_pug hp (isCat_iff.mpr (Nat.two_pow_pos 31))
            rw [if_neg hne, if_neg (not_cat_of_pug hp)]
            simp only [bufOf, hb]
            exact lt_words x
        rw [Nat.testBit_lt_two_pow (Nat.lt_of_lt_of_le hx (Nat.pow_le_pow_right (by decide) ?_)), Bool.and_false]
        rw [blockWords] at hmet5
        omega
      · rw [decide_eq_false hw, Bool.false_and, Bool.false_and]

/-- Where the words fit, the slab is the atom cut to its blocks, or to a word if there are none. -/
theorem slabFrom_value {m : Loom} {a x met len : ℕ} (ha : Den m a (.atom x)) (mem : Mem) (hfit : SizeFits met len)
    (href : ¬ Refused met len) (hw : WordsFit 0 (max 1 (blockWords met len)) x) :
    ∃ sab, u3iSlabFrom m mem a met len = .ok sab ∧ sab.len ≤ sab.buf.length ∧ (sab.vat = none ↔ sab.len = 1) ∧
      valueOf (sab.buf.take sab.len) = if len = 0 then x % 2 ^ 32 else x % 2 ^ (len * 2 ^ met) := by
  obtain ⟨sab, h1, -, h3, h4, h5⟩ := slabFrom_spec (m := m) (a := a) mem hfit href
  refine ⟨sab, h1, h3, h4, valueOf_eq_iff.mpr fun j => ?_⟩
  have hbit : (decide (j < 32 * max 1 (blockWords met len)) &&
      (u3rWords m 0 (max 1 (blockWords met len)) a mem (j / 8)).toNat.testBit (j % 8)) =
      (decide (j < 32 * max 1 (blockWords met len)) && x.testBit j) := by
    by_cases hj : j < 32 * max 1 (blockWords met len)
    · have h6 : 8 * (4 * 0 + j / 8) + j % 8 = j := by omega
      rw [words_fit ha hw mem (j / 8), if_pos (by omega), testBit_byteOf, h6,
        decide_eq_true (by omega : j % 8 < 8), Bool.true_and]
    · rw [decide_eq_false hj, Bool.false_and, Bool.false_and]
  rw [h5, Bool.and_right_comm, hbit, Bool.and_right_comm]
  by_cases h0 : len = 0
  · have h7 : blockWords met len = 0 := by rw [blockWords, h0, Nat.zero_mul]
    have h8 : ¬ Masked m a met len := by
      rintro ⟨-, -, h⟩
      rw [h0, Nat.zero_mul] at h
      exact h rfl
    rw [if_pos h0, Nat.testBit_mod_two_pow, h7, decide_eq_true (fun h => absurd h h8), Bool.and_true]
    rfl
  · rw [if_neg h0, Nat.testBit_mod_two_pow, masked_cut ha h0]

theorem GrowsRight.mint {sab : Slab} {v : ℕ} : ∀ {gs : List (ℕ × ℕ)}, GrowsRight sab v gs →
    ∃ r, u3iSlabMint sab = .ok r ∧ r.Is v
  | [], h => h
  | _ :: _, h => h.1

/-- Where they do not, the slab keeps a bit of what its memory was. -/
theorem slabFrom_unset {m : Loom} {a x met len : ℕ} (ha : Den m a (.atom x)) (hfit : SizeFits met len)
    (href : ¬ Refused met len) (hw : ¬ WordsFit 0 (max 1 (blockWords met len)) x) (gs : List (ℕ × ℕ)) :
    ¬ ∀ mem, ∃ sab, u3iSlabFrom m mem a met len = .ok sab ∧ GrowsRight sab (x % 2 ^ (len * 2 ^ met)) gs := by
  intro h
  rw [Refused] at href
  obtain ⟨i, hi, hunset⟩ := words_not_fit ha (by omega) hw
  have hbit (c : UInt8) : (x % 2 ^ (len * 2 ^ met)).testBit (8 * i) = c.toNat.testBit 0 := by
    obtain ⟨sab, h1, h2⟩ := h fun _ => c
    obtain ⟨sab', h3, -, h4, -, h5⟩ := slabFrom_spec (m := m) (a := a) (fun _ => c) hfit href
    obtain rfl : sab = sab' := Out.ok.inj (h1.symm.trans h3)
    have h6 := ((mint_is_iff h4).mp h2.mint).2
    have h7 : 8 * i / 8 = i := by omega
    have h8 : 8 * i % 8 = 0 := by omega
    have h9 : 8 * i < len * 2 ^ met := by
      rw [blockWords] at hi
      omega
    rw [← h6, testBit_valueOf, h5, decide_eq_true (by omega), decide_eq_true (fun _ => h9), h7, h8, hunset]
    rfl
  exact absurd ((hbit 0).symm.trans (hbit 1)) (by decide)

/-- **When the slab builder is right.** A slab made from an atom is minted as the atom cut to
its blocks, and after each resize as what is left of it filled up with zeros, exactly when each
size fits, the words to copy fit, no slab of no blocks keeps a word, and each resize leaves one word
in the static storage and every other length on the heap and cuts no bits off within a word. -/
theorem slab_right_iff {m : Loom} {a x : ℕ} (ha : Den m a (.atom x)) (met len : ℕ) (gs : List (ℕ × ℕ)) :
    SlabRight m a x met len gs ↔ SlabFits m a x met len gs := by
  rw [SlabRight, SlabFits]
  by_cases hfit : SizeFits met len
  · by_cases href : Refused met len
    · refine iff_of_true (fun mem => ?_) ⟨hfit, Or.inl href⟩
      rw [if_pos href, u3iSlabFrom, u3iSlabBare, (slabSize_spec met len).2.1 hfit href]; rfl
    · simp only [if_neg href]
      by_cases hw : WordsFit 0 (max 1 (blockWords met len)) x
      · -- the slab that is made, and when it is minted as asked
        have hmade (mem : Mem) {sab : Slab} (hs : u3iSlabFrom m mem a met len = .ok sab) :
            sab.len ≤ sab.buf.length ∧ ((∃ r, u3iSlabMint sab = .ok r ∧ r.Is (x % 2 ^ (len * 2 ^ met))) ↔
              (len = 0 → x % 2 ^ 32 = 0)) := by
          obtain ⟨sab', h1, h2, h3, h4⟩ := slabFrom_value ha mem hfit href hw
          obtain rfl : sab' = sab := Out.ok.inj (h1.symm.trans hs)
          refine ⟨h2, ?_⟩
          rw [mint_is_iff h2, h4, and_iff_right h3]
          by_cases h0 : len = 0
          · rw [if_pos h0, h0, Nat.zero_mul, Nat.pow_zero, Nat.mod_one]
            exact ⟨fun h _ => h, fun h => h rfl⟩
          · rw [if_neg h0]
            exact iff_of_true rfl fun h => absurd h h0
        constructor
        · intro h
          refine ⟨hfit, Or.inr ⟨hw, ?_, fun mem sab hs => ?_⟩⟩
          · obtain ⟨sab, h1, h2⟩ := h fun _ => 0
            exact (hmade _ h1).2.mp h2.mint
          · obtain ⟨sab', h1, h2⟩ := h mem
            obtain rfl : sab' = sab := Out.ok.inj (h1.symm.trans hs)
            exact (grows_right_iff gs (hmade mem hs).1 h2.mint).mp h2
        · rintro ⟨-, h⟩ mem
          obtain ⟨-, hlow, hgs⟩ := h.resolve_left href
          obtain ⟨sab, h1, -, -, -⟩ := slabFrom_value ha mem hfit href hw
          obtain ⟨h2, h3⟩ := hmade mem h1
          exact ⟨sab, h1, (grows_right_iff gs h2 (h3.mpr hlow)).mpr (hgs mem sab h1)⟩
      · exact iff_of_false (slabFrom_unset ha hfit href hw gs) fun h => hw (h.2.resolve_left href).1
  · -- a size that wraps around makes a slab of a word
    have href : Refused met len := refused_of_not_fits hfit
    simp only [if_pos href]
    refine iff_of_false (fun h => ?_) fun h => hfit h.1
    have h1 := h fun _ => 0
    simp only [u3iSlabFrom, u3iSlabBare, (slabSize_spec met len).2.2 hfit, Out.bind, true_or, if_true] at h1
    split at h1
    · split at h1
      · exact absurd h1 (by simp)
      · split at h1
        · exact absurd h1 (by simp)
        · exact absurd h1 (by simp)
    · exact absurd h1 (by simp)

/-- A slab of eight bytes of the atom 7, cut to five. -/
theorem slab_right_five : SlabRight twoAtoms 7 7 3 8 [(3, 5)] ↔ SlabFits twoAtoms 7 7 3 8 [(3, 5)] :=
  slab_right_iff (.cat (by decide)) 3 8 [(3, 5)]

/-- A slab of no bytes of the atom 7 is minted as 7, a slab of two words that is cut to one byte
cannot be minted, and a byte of ones that is cut to four bits is minted as before. -/
theorem slab_not_right : Den twoAtoms 7 (.atom 7) ∧ Den twoAtoms 255 (.atom 255) ∧
    ¬ SlabRight twoAtoms 7 7 3 0 [] ∧ ¬ SlabRight twoAtoms 7 7 3 8 [(3, 1)] ∧
    ¬ SlabRight twoAtoms 255 255 0 8 [(0, 4)] := by
  refine ⟨.cat (by decide), .cat (by decide), fun h => ?_, fun h => ?_, fun h => ?_⟩
  · obtain ⟨sab, h1, r, h2, h3⟩ := h fun _ => 0
    have h4 : u3iSlabFrom twoAtoms (fun _ => 0) 7 3 0 = .ok ⟨none, 7, 1⟩ := by decide +kernel
    obtain rfl := Out.ok.inj (h4.symm.trans h1)
    obtain rfl : Minted.cat 7 = r := Out.ok.inj h2
    exact absurd h3.1 (by decide)
  · obtain ⟨sab, h1, -, h2⟩ := h fun _ => 0
    obtain ⟨sab', h3, r, h4, -⟩ := h2
    have h5 : u3iSlabFrom twoAtoms (fun _ => 0) 7 3 8 = .ok ⟨some [7, 0], 0, 2⟩ := by decide +kernel
    obtain rfl := Out.ok.inj (h5.symm.trans h1)
    obtain rfl : (⟨some [7, 0], 0, 1⟩ : Slab) = sab' := Out.ok.inj h3
    have h6 : u3iSlabMint ⟨some [7, 0], 0, 1⟩ = .oops := rfl
    exact absurd (h6.symm.trans h4) (by simp)
  · obtain ⟨sab, h1, -, h2⟩ := h fun _ => 0
    obtain ⟨sab', h3, r, h4, h5⟩ := h2
    have h6 : u3iSlabFrom twoAtoms (fun _ => 0) 255 0 8 = .ok ⟨none, 255, 1⟩ := by decide +kernel
    obtain rfl := Out.ok.inj (h6.symm.trans h1)
    obtain rfl : (⟨none, 255, 1⟩ : Slab) = sab' := Out.ok.inj h3
    obtain rfl : Minted.cat 255 = r := Out.ok.inj h4
    exact absurd h5.1 (by decide)

end Imprison
end Ursockets
