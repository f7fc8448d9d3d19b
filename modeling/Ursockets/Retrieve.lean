/-
# The orders of nouns

`u3r_comp` and `u3r_nord` of `noun/retrieve.c` compare nouns of the loom: a noun
is a word, a direct atom as it stands or a reference to an indirect atom or a
cell. `u3r_comp` compares two atoms by their words from the highest down and is
the order of the numbers. `u3r_nord` orders all nouns, but takes the words of two
indirect atoms of one length from the lowest up: it is a total order, and the
order of the numbers only where the lowest word that differs agrees with it.

Key definitions: `Loom`, `Den`, `u3rComp`, `u3rNord`, `Noun.order`, `LowAgrees`.
Key theorems: `comp_order`, `nord_order`, `order_low_iff`, `nord_right_iff`.
-/
import Ursockets.Noun
import Ursockets.Lib.Words

namespace Ursockets

/-! ### Orders of nouns -/

namespace Noun

/-- The order of nouns over an order of atoms: an atom before a cell, and of two
cells the heads first. -/
def order (cmp : ℕ → ℕ → Ordering) : Noun → Noun → Ordering
  | .atom a, .atom b => cmp a b
  | .atom _, .cell _ _ => .lt
  | .cell _ _, .atom _ => .gt
  | .cell h t, .cell h' t' => (order cmp h h').then (order cmp t t')

/-- How many cells are above the deepest atom. -/
def depth : Noun → ℕ
  | .atom _ => 0
  | .cell h t => max h.depth t.depth + 1

section
variable {cmp : ℕ → ℕ → Ordering}

instance [Std.ReflCmp cmp] : Std.ReflCmp (order cmp) where
  compare_self {x} := by
    induction x with
    | atom a =>
      have h1 : cmp a a = .eq := Std.ReflCmp.compare_self
      exact h1
    | cell h t ih iht => rw [order, ih, iht]; rfl

instance [Std.LawfulEqCmp cmp] : Std.LawfulEqCmp (order cmp) where
  eq_of_compare {x y} heq := by
    induction x generalizing y with
    | atom a =>
      cases y with
      | atom b =>
        have h1 : cmp a b = .eq := heq
        rw [Std.LawfulEqCmp.eq_of_compare h1]
      | cell h t => exact absurd heq (by simp [order])
    | cell h t ih iht =>
      cases y with
      | atom b => exact absurd heq (by simp [order])
      | cell h' t' =>
        rw [order, Ordering.then_eq_eq] at heq
        rw [ih heq.1, iht heq.2]

instance [Std.OrientedCmp cmp] : Std.OrientedCmp (order cmp) where
  eq_swap {x y} := by
    induction x generalizing y with
    | atom a =>
      cases y with
      | atom b =>
        have h1 : cmp a b = (cmp b a).swap := Std.OrientedCmp.eq_swap
        exact h1
      | cell h t => rfl
    | cell h t ih iht =>
      cases y with
      | atom b => rfl
      | cell h' t' => rw [order, order, ih, iht, Ordering.swap_then]

instance [Std.TransCmp cmp] [Std.LawfulEqCmp cmp] : Std.TransCmp (order cmp) where
  isLE_trans {x y z} hxy hyz := by
    induction x generalizing y z with
    | atom a =>
      cases y with
      | atom b =>
        cases z with
        | atom c =>
          have h1 : (cmp a b).isLE := hxy
          have h2 : (cmp b c).isLE := hyz
          have h3 : (cmp a c).isLE := Std.TransCmp.isLE_trans h1 h2
          exact h3
        | cell h t => rfl
      | cell h t =>
        cases z with
        | atom c => exact absurd hyz (by simp [order])
        | cell h' t' => rfl
    | cell h t ih iht =>
      cases y with
      | atom b => exact absurd hxy (by simp [order])
      | cell h' t' =>
        cases z with
        | atom c => exact absurd hyz (by simp [order])
        | cell h'' t'' =>
          simp only [order, Ordering.isLE_then_iff_and] at hxy hyz ⊢
          -- heads that come out equal are one noun, and then the middle head is that noun too
          have eq_of (h1 : order cmp h h'' = .eq) : h = h' ∧ h' = h'' := by
            have h2 : h = h'' := Std.LawfulEqCmp.eq_of_compare h1
            subst h2
            have h4 : order cmp h h' = .eq := Ordering.eq_eq_of_isLE_of_isLE_swap hxy.1
              (by rw [← Std.OrientedCmp.eq_swap]; exact hyz.1)
            exact ⟨Std.LawfulEqCmp.eq_of_compare h4, (Std.LawfulEqCmp.eq_of_compare h4).symm⟩
          have h1 : (order cmp h h'').isLE := ih hxy.1 hyz.1
          refine ⟨h1, ?_⟩
          rcases Ordering.isLE_iff_eq_lt_or_eq_eq.mp h1 with hlt | heq
          · exact Or.inl hlt
          · obtain ⟨rfl, rfl⟩ := eq_of heq
            have h2 : order cmp h h = .eq := Std.ReflCmp.compare_self
            have h3 : order cmp h h ≠ .lt := by rw [h2]; decide
            exact Or.inr (iht (hxy.2.resolve_left h3) (hyz.2.resolve_left h3))

end
end Noun

namespace Retrieve

open Words

/-! ### Nouns of the loom -/

/-- What a reference leads to: the words of an indirect atom, or a cell. -/
inductive Held where
  | atom (buf : List UInt32)
  | cell (hed tel : ℕ)
  deriving DecidableEq, Repr

/-- What the loom keeps at each reference. -/
abbrev Loom : Type := ℕ → Option Held

/-- `u3_none`. -/
def u3None : ℕ := 0xffffffff

/-- `u3a_is_cat`. -/
def isCat (som : ℕ) : Bool := som >>> 31 = 0

/-- `u3a_is_pug`. -/
def isPug (som : ℕ) : Bool := som >>> 30 = 2

/-- `u3a_is_cell`. -/
def isCell (som : ℕ) : Bool := som >>> 30 = 3

/-- `u3a_is_atom`. -/
def isAtom (som : ℕ) : Bool := isCat som || isPug som

/-- `len_w` and `buf_w` of an indirect atom. -/
def bufOf (m : Loom) (som : ℕ) : List UInt32 :=
  match m som with
  | some (.atom buf) => buf
  | _ => []

/-- The word `som` is the noun `x`: indirect atoms are those that are not direct,
without high zero words. -/
inductive Den (m : Loom) : ℕ → Noun → Prop where
  | cat {a : ℕ} : a < 2 ^ 31 → Den m a (.atom a)
  | pug {som a : ℕ} : isPug som → m som = some (.atom (wordsOf a)) → 2 ^ 31 ≤ a →
      (wordsOf a).length < 2 ^ 32 → Den m som (.atom a)
  | pom {som h t : ℕ} {x y : Noun} : isCell som → som ≠ u3None → m som = some (.cell h t) →
      Den m h x → Den m t y → Den m som (.cell x y)

/-! ### The two comparisons -/

/-- `_comp_words`. -/
def compWords (a b : ℕ) : ℤ := (if a > b then 1 else 0) - (if a < b then 1 else 0)

/-- The loop of `u3r_comp` over the words below `i`, the highest first. -/
def compLoop (a b : List UInt32) : ℕ → ℤ
  | 0 => 0
  | i + 1 =>
    if a.getD i 0 ≠ b.getD i 0 then compWords (a.getD i 0).toNat (b.getD i 0).toNat
    else compLoop a b i

/-- `u3r_comp`. -/
def u3rComp (m : Loom) (a b : ℕ) : ℤ :=
  if isCat a || isCat b then compWords a b
  else if a = b then 0
  else
    let x := bufOf m a
    let y := bufOf m b
    if x.length ≠ y.length then compWords x.length y.length else compLoop x y x.length

/-- The loop of `u3r_nord` over the words of two atoms, the lowest first. -/
def nordLoop : List UInt32 → List UInt32 → ℕ
  | a :: as, b :: bs => if a ≠ b then (if a < b then 0 else 2) else nordLoop as bs
  | _, _ => 1

/-- `u3r_nord` on two atoms that are not the same word. -/
def nordAtoms (m : Loom) (a b : ℕ) : ℕ :=
  if isCat a then
    if isCat b then (if a < b then 0 else 2) else 0
  else if isCat b then 2
  else
    let x := bufOf m a
    let y := bufOf m b
    if x.length ≠ y.length then (if x.length < y.length then 0 else 2) else nordLoop x y

/-- `u3r_nord`; `none` when it bails, or when it may go no deeper. -/
def u3rNord (m : Loom) : ℕ → ℕ → ℕ → Option ℕ
  | 0, _, _ => none
  | fuel + 1, a, b =>
    if a = u3None ∨ b = u3None then none
    else if a = b then some 1
    else if isAtom a then
      if isAtom b then some (nordAtoms m a b) else some 0
    else if isAtom b then some 2
    else
      match m a, m b with
      | some (.cell h t), some (.cell h' t') =>
        (u3rNord m fuel h h').bind fun c => if c = 1 then u3rNord m fuel t t' else some c
      | _, _ => none

/-- The answers of `u3r_nord`: below, equal to, above. -/
def nordCode : Ordering → ℕ
  | .lt => 0
  | .eq => 1
  | .gt => 2

/-- The answers of `u3r_comp`. -/
def compCode : Ordering → ℤ
  | .lt => -1
  | .eq => 0
  | .gt => 1

/-! ### The words of two numbers -/

/-- Word `i` of a number. -/
def word (a i : ℕ) : ℕ := a / 2 ^ (32 * i) % 2 ^ 32

theorem getD_wordsOf (a i : ℕ) : ((wordsOf a).getD i 0).toNat = word a i := by
  apply Nat.eq_of_testBit_eq
  intro k
  rcases Nat.lt_or_ge k 32 with hk | hk
  · rw [testBit_getD32 _ hk, wordBit_wordsOf, word, Nat.testBit_mod_two_pow, Nat.testBit_div_two_pow,
      decide_eq_true hk, Bool.true_and, Nat.add_comm]
  · rw [testBit_word hk, word, Nat.testBit_mod_two_pow, decide_eq_false (by omega), Bool.false_and]

theorem lt_words (a : ℕ) : a < 2 ^ (32 * (wordsOf a).length) := by
  rw [length_wordsOf]
  exact Nat.lt_of_lt_of_le (Bits.lt_two_pow_met0 a) (Nat.pow_le_pow_right (by decide) (by omega))

theorem length_wordsOf_mono {a b : ℕ} (h : a ≤ b) : (wordsOf a).length ≤ (wordsOf b).length := by
  have h1 : Bits.met0 a ≤ Bits.met0 b :=
    Bits.met0_le_iff.mpr (Nat.lt_of_le_of_lt h (Bits.lt_two_pow_met0 b))
  rw [length_wordsOf, length_wordsOf]
  omega

theorem length_wordsOf_pos {a : ℕ} (h : 2 ^ 31 ≤ a) : 0 < (wordsOf a).length := by
  have h1 : 0 < Bits.met0 a := Bits.met0_pos (by omega)
  rw [length_wordsOf]
  omega

/-- A number is its words. -/
theorem wordsOf_inj {a b : ℕ} (h : wordsOf a = wordsOf b) : a = b := by
  apply Nat.eq_of_testBit_eq
  intro i
  rw [← wordBit_wordsOf, ← wordBit_wordsOf, h]

theorem mod_succ_words (a i : ℕ) :
    a % 2 ^ (32 * (i + 1)) = word a i * 2 ^ (32 * i) + a % 2 ^ (32 * i) := by
  have h1 : 2 ^ (32 * (i + 1)) = 2 ^ (32 * i) * 2 ^ 32 := by rw [← Nat.pow_add, Nat.mul_succ]
  rw [h1, Nat.mod_mul, word, Nat.mul_comm (_ % _), Nat.add_comm]

/-! ### The order of `u3r_comp` -/

theorem compWords_eq (a b : ℕ) : compWords a b = compCode (compare a b) := by
  rw [compWords]
  rcases Nat.lt_trichotomy a b with h | rfl | h
  · rw [Nat.compare_eq_lt.mpr h, if_pos h, if_neg (by omega)]; rfl
  · rw [Nat.compare_eq_eq.mpr rfl, if_neg (by omega)]; rfl
  · rw [Nat.compare_eq_gt.mpr h, if_pos h, if_neg (by omega)]; rfl

/-- The higher words decide, the lower ones only where these are the same. -/
theorem compare_words {p q c d n : ℕ} (hc : c < n) (hd : d < n) :
    compare (p * n + c) (q * n + d) = (compare p q).then (compare c d) := by
  rcases Nat.lt_trichotomy p q with h | rfl | h
  · have h1 : p * n + n ≤ q * n := by rw [← Nat.succ_mul]; exact Nat.mul_le_mul_right n h
    rw [Nat.compare_eq_lt.mpr h, Nat.compare_eq_lt.mpr (by omega)]; rfl
  · rw [Nat.compare_eq_eq.mpr rfl]
    rcases Nat.lt_trichotomy c d with h | rfl | h
    · rw [Nat.compare_eq_lt.mpr h, Nat.compare_eq_lt.mpr (by omega)]; rfl
    · rw [Nat.compare_eq_eq.mpr rfl, Nat.compare_eq_eq.mpr rfl]; rfl
    · rw [Nat.compare_eq_gt.mpr h, Nat.compare_eq_gt.mpr (by omega)]; rfl
  · have h1 : q * n + n ≤ p * n := by rw [← Nat.succ_mul]; exact Nat.mul_le_mul_right n h
    rw [Nat.compare_eq_gt.mpr h, Nat.compare_eq_gt.mpr (by omega)]; rfl

theorem compLoop_eq (a b : ℕ) : ∀ i,
    compLoop (wordsOf a) (wordsOf b) i = compCode (compare (a % 2 ^ (32 * i)) (b % 2 ^ (32 * i)))
  | 0 => by simp [compLoop, Nat.mod_one, compCode]
  | i + 1 => by
    rw [compLoop, mod_succ_words, mod_succ_words, compare_words (Nat.mod_lt _ (Nat.two_pow_pos _))
      (Nat.mod_lt _ (Nat.two_pow_pos _)), getD_wordsOf, getD_wordsOf]
    by_cases h : (wordsOf a).getD i 0 = (wordsOf b).getD i 0
    · have h1 : word a i = word b i := by rw [← getD_wordsOf, ← getD_wordsOf, h]
      rw [if_neg (not_not.mpr h), compLoop_eq a b i, h1, Nat.compare_eq_eq.mpr rfl]; rfl
    · have h1 : word a i ≠ word b i := by
        rw [← getD_wordsOf, ← getD_wordsOf]
        exact fun hw => h (UInt32.toNat_inj.mp hw)
      rw [if_pos h, compWords_eq]
      rcases Nat.lt_or_gt_of_ne h1 with hlt | hgt
      · rw [Nat.compare_eq_lt.mpr hlt]; rfl
      · rw [Nat.compare_eq_gt.mpr hgt]; rfl

theorem isCat_iff {a : ℕ} : isCat a ↔ a < 2 ^ 31 := by
  rw [isCat, Nat.shiftRight_eq_div_pow, decide_eq_true_iff]
  omega

theorem not_cat_of_pug {a : ℕ} (h : isPug a) : ¬ isCat a := by
  rw [isPug, Nat.shiftRight_eq_div_pow, decide_eq_true_iff] at h
  rw [isCat_iff]
  omega

theorem not_atom_of_cell {a : ℕ} (h : isCell a) : ¬ isAtom a := by
  rw [isCell, Nat.shiftRight_eq_div_pow, decide_eq_true_iff] at h
  rw [isAtom, Bool.or_eq_true, isCat_iff, isPug, Nat.shiftRight_eq_div_pow, decide_eq_true_iff]
  omega

/-- **`u3r_comp` is the order of the numbers.** -/
theorem comp_order {m : Loom} {a b x y : ℕ} (ha : Den m a (.atom x)) (hb : Den m b (.atom y)) :
    u3rComp m a b = compCode (compare x y) := by
  rw [u3rComp]
  cases ha with
  | cat ha =>
    rw [if_pos (by rw [isCat_iff.mpr ha]; rfl), compWords_eq]
    cases hb with
    | cat hb => rfl
    | pug hp hm hy _ =>
      have h1 : ¬ b < 2 ^ 31 := fun h => not_cat_of_pug hp (isCat_iff.mpr h)
      rw [Nat.compare_eq_lt.mpr (by omega), Nat.compare_eq_lt.mpr (by omega)]
  | pug hpa hma hx _ =>
    have h1 : ¬ a < 2 ^ 31 := fun h => not_cat_of_pug hpa (isCat_iff.mpr h)
    cases hb with
    | cat hb =>
      rw [if_pos (by rw [isCat_iff.mpr hb, Bool.or_true]), compWords_eq,
        Nat.compare_eq_gt.mpr (by omega), Nat.compare_eq_gt.mpr (by omega)]
    | pug hpb hmb hy hl =>
      rw [if_neg (by rw [Bool.or_eq_true]; exact not_or.mpr ⟨not_cat_of_pug hpa, not_cat_of_pug hpb⟩)]
      by_cases hab : a = b
      · subst hab
        have h2 : x = y := wordsOf_inj (Held.atom.inj (Option.some.inj (hma.symm.trans hmb)))
        rw [if_pos rfl, h2, Nat.compare_eq_eq.mpr rfl]; rfl
      · simp only [if_neg hab, bufOf, hma, hmb]
        by_cases hl : (wordsOf x).length = (wordsOf y).length
        · rw [if_neg (not_not.mpr hl), compLoop_eq, Nat.mod_eq_of_lt (lt_words x), hl,
            Nat.mod_eq_of_lt (lt_words y)]
        · rw [if_pos hl, compWords_eq]
          rcases Nat.lt_or_gt_of_ne hl with hlt | hgt
          · have h2 : x < y := Nat.lt_of_not_le fun h => Nat.not_lt.mpr (length_wordsOf_mono h) hlt
            rw [Nat.compare_eq_lt.mpr hlt, Nat.compare_eq_lt.mpr h2]
          · have h2 : y < x := Nat.lt_of_not_le fun h => Nat.not_lt.mpr (length_wordsOf_mono h) hgt
            rw [Nat.compare_eq_gt.mpr hgt, Nat.compare_eq_gt.mpr h2]

/-! ### The order of `u3r_nord` -/

/-- What `u3r_nord` goes by in an atom: a direct atom comes first, then the
number of words, then the words with the lowest first. -/
def lowKey (a : ℕ) : List ℕ :=
  if a < 2 ^ 31 then [0, a] else (wordsOf a).length :: (wordsOf a).map UInt32.toNat

/-- The order of `u3r_nord` on atoms. -/
def lowCmp (a b : ℕ) : Ordering := compare (lowKey a) (lowKey b)

instance : Std.TransCmp lowCmp := inferInstanceAs (Std.TransCmp (compareOn lowKey))

theorem lowKey_inj {a b : ℕ} (h : lowKey a = lowKey b) : a = b := by
  rw [lowKey, lowKey] at h
  split at h <;> split at h
  · exact (List.cons.inj (List.cons.inj h).2).1
  · rename_i h1 h2
    exact absurd (List.cons.inj h).1 (Nat.ne_of_lt (length_wordsOf_pos (Nat.le_of_not_lt h2)))
  · rename_i h1 h2
    exact absurd (List.cons.inj h).1 (Nat.ne_of_gt (length_wordsOf_pos (Nat.le_of_not_lt h1)))
  · have hinj : Function.Injective UInt32.toNat := fun _ _ h => UInt32.toNat_inj.mp h
    exact wordsOf_inj (List.map_injective_iff.mpr hinj (List.cons.inj h).2)

instance : Std.LawfulEqCmp lowCmp where
  eq_of_compare h := lowKey_inj (Std.LawfulEqOrd.eq_of_compare h)

theorem nordLoop_eq : ∀ {as bs : List UInt32}, as.length = bs.length →
    nordLoop as bs = nordCode (compare (as.map UInt32.toNat) (bs.map UInt32.toNat))
  | [], [], _ => rfl
  | a :: as, b :: bs, h => by
    rw [nordLoop, List.map_cons, List.map_cons, List.compare_cons_cons]
    by_cases hab : a = b
    · rw [if_neg (not_not.mpr hab), nordLoop_eq (Nat.succ.inj h), hab, Nat.compare_eq_eq.mpr rfl]; rfl
    · rw [if_pos hab]
      have h1 : a.toNat ≠ b.toNat := fun h => hab (UInt32.toNat_inj.mp h)
      rcases Nat.lt_or_gt_of_ne h1 with hlt | hgt
      · rw [if_pos (UInt32.lt_iff_toNat_lt.mpr hlt), Nat.compare_eq_lt.mpr hlt]; rfl
      · rw [if_neg (fun h => Nat.lt_asymm hgt (UInt32.lt_iff_toNat_lt.mp h)), Nat.compare_eq_gt.mpr hgt]; rfl

theorem nordCode_ne {a b : ℕ} (h : a ≠ b) : (if a < b then 0 else 2) = nordCode (compare a b) := by
  rcases Nat.lt_or_gt_of_ne h with hlt | hgt
  · rw [if_pos hlt, Nat.compare_eq_lt.mpr hlt]; rfl
  · rw [if_neg (by omega), Nat.compare_eq_gt.mpr hgt]; rfl

/-- A reference is one noun. -/
theorem Den.inj {m : Loom} {a : ℕ} {x y : Noun} (hx : Den m a x) (hy : Den m a y) : x = y := by
  induction hx generalizing y with
  | cat ha =>
    cases hy with
    | cat _ => rfl
    | pug hp _ _ _ => exact absurd (isCat_iff.mpr ha) (not_cat_of_pug hp)
    | pom hp _ _ _ _ =>
      exact absurd (by rw [isAtom, isCat_iff.mpr ha]; rfl) (not_atom_of_cell hp)
  | pug hp hm _ _ =>
    cases hy with
    | cat ha => exact absurd (isCat_iff.mpr ha) (not_cat_of_pug hp)
    | pug _ hm' _ _ => rw [wordsOf_inj (Held.atom.inj (Option.some.inj (hm.symm.trans hm')))]
    | pom _ _ hm' _ _ => exact absurd (hm.symm.trans hm') (by simp)
  | pom hp _ hm _ _ ih iht =>
    cases hy with
    | cat ha => exact absurd (by rw [isAtom, isCat_iff.mpr ha]; rfl) (not_atom_of_cell hp)
    | pug _ hm' _ _ => exact absurd (hm.symm.trans hm') (by simp)
    | pom _ _ hm' hh ht =>
      obtain ⟨rfl, rfl⟩ := Held.cell.inj (Option.some.inj (hm.symm.trans hm'))
      rw [ih hh, iht ht]

theorem Den.ne_none {m : Loom} {a : ℕ} {x : Noun} (h : Den m a x) : a ≠ u3None := by
  cases h with
  | cat ha => rw [u3None]; omega
  | pug hp _ _ _ =>
    rw [isPug, Nat.shiftRight_eq_div_pow, decide_eq_true_iff] at hp
    rw [u3None]; omega
  | pom _ h _ _ _ => exact h

theorem Den.isAtom {m : Loom} {a x : ℕ} (h : Den m a (.atom x)) : isAtom a := by
  cases h with
  | cat ha => rw [Retrieve.isAtom, isCat_iff.mpr ha]; rfl
  | pug hp _ _ _ => rw [Retrieve.isAtom, hp, Bool.or_true]

theorem Den.not_isAtom {m : Loom} {a : ℕ} {x y : Noun} (h : Den m a (.cell x y)) : ¬ Retrieve.isAtom a := by
  cases h with
  | pom hp _ _ _ _ => exact not_atom_of_cell hp

theorem nordAtoms_eq {m : Loom} {a b x y : ℕ} (ha : Den m a (.atom x)) (hb : Den m b (.atom y))
    (hab : a ≠ b) : nordAtoms m a b = nordCode (lowCmp x y) := by
  rw [nordAtoms, lowCmp, lowKey, lowKey]
  cases ha with
  | cat ha =>
    rw [if_pos (isCat_iff.mpr ha), if_pos ha]
    cases hb with
    | cat hb =>
      rw [if_pos (isCat_iff.mpr hb), if_pos hb, nordCode_ne hab, List.compare_cons_cons,
        List.compare_cons_cons, Nat.compare_eq_eq.mpr rfl]
      rcases Nat.lt_or_gt_of_ne hab with hlt | hgt
      · rw [Nat.compare_eq_lt.mpr hlt]; rfl
      · rw [Nat.compare_eq_gt.mpr hgt]; rfl
    | pug hp hm hy _ =>
      rw [if_neg (not_cat_of_pug hp), if_neg (by omega), List.compare_cons_cons,
        Nat.compare_eq_lt.mpr (length_wordsOf_pos hy)]; rfl
  | pug hpa hma hx _ =>
    rw [if_neg (not_cat_of_pug hpa), if_neg (Nat.not_lt.mpr hx)]
    cases hb with
    | cat hb =>
      rw [if_pos (isCat_iff.mpr hb), if_pos hb, List.compare_cons_cons,
        Nat.compare_eq_gt.mpr (length_wordsOf_pos hx)]; rfl
    | pug hpb hmb hy hl =>
      rw [if_neg (not_cat_of_pug hpb), if_neg (Nat.not_lt.mpr hy), List.compare_cons_cons]
      simp only [bufOf, hma, hmb]
      by_cases hl : (wordsOf x).length = (wordsOf y).length
      · rw [if_neg (not_not.mpr hl), nordLoop_eq hl, hl, Nat.compare_eq_eq.mpr rfl]; rfl
      · rw [if_pos hl, nordCode_ne hl]
        rcases Nat.lt_or_gt_of_ne hl with hlt | hgt
        · rw [Nat.compare_eq_lt.mpr hlt]; rfl
        · rw [Nat.compare_eq_gt.mpr hgt]; rfl

theorem order_self (x : Noun) : Noun.order lowCmp x x = .eq := Std.ReflCmp.compare_self

theorem nord_same {m : Loom} {a : ℕ} {x : Noun} (ha : Den m a x) (fuel : ℕ) :
    u3rNord m (fuel + 1) a a = some 1 := by
  rw [u3rNord, if_neg (not_or.mpr ⟨ha.ne_none, ha.ne_none⟩), if_pos rfl]

/-- The order where one of the two nouns is an atom. -/
theorem nord_atom {m : Loom} {a b x : ℕ} {y : Noun} (ha : Den m a (.atom x)) (hb : Den m b y) (fuel : ℕ) :
    u3rNord m (fuel + 1) a b = some (nordCode (Noun.order lowCmp (.atom x) y)) := by
  by_cases hab : a = b
  · subst hab
    rw [nord_same ha, ← ha.inj hb, order_self]; rfl
  · rw [u3rNord, if_neg (not_or.mpr ⟨ha.ne_none, hb.ne_none⟩), if_neg hab, if_pos ha.isAtom]
    cases y with
    | atom y => rw [if_pos hb.isAtom, nordAtoms_eq ha hb hab]; rfl
    | cell h t => rw [if_neg hb.not_isAtom]; rfl

/-- **`u3r_nord` is the order of nouns over the order of the lowest words.** -/
theorem nord_order {m : Loom} {a b : ℕ} {x y : Noun} (ha : Den m a x) (hb : Den m b y) {fuel : ℕ}
    (hf : x.depth < fuel) : u3rNord m fuel a b = some (nordCode (Noun.order lowCmp x y)) := by
  obtain ⟨fuel, rfl⟩ : ∃ n, fuel = n + 1 := ⟨fuel - 1, by omega⟩
  induction ha generalizing b y fuel with
  | cat ha => exact nord_atom (.cat ha) hb fuel
  | pug hp hm hx hl => exact nord_atom (.pug hp hm hx hl) hb fuel
  | @pom a h t xh xt hp hn hm hh ht ihh iht =>
    have ha : Den m a (.cell xh xt) := .pom hp hn hm hh ht
    by_cases hab : a = b
    · subst hab
      rw [nord_same ha, ← ha.inj hb, order_self]; rfl
    · rw [u3rNord, if_neg (not_or.mpr ⟨hn, hb.ne_none⟩), if_neg hab, if_neg (not_atom_of_cell hp)]
      cases hb with
      | cat hb => rw [if_pos (Den.cat hb : Den m _ _).isAtom]; rfl
      | pug hpb hmb hy hl => rw [if_pos (Den.pug hpb hmb hy hl).isAtom]; rfl
      | @pom _ h' t' yh yt hpb _ hmb hh' ht' =>
        -- the two heads, then the two tails where the heads are equal
        have hd : max xh.depth xt.depth + 1 < fuel + 1 := hf
        obtain ⟨n, rfl⟩ : ∃ n, fuel = n + 1 := ⟨fuel - 1, by omega⟩
        rw [if_neg (not_atom_of_cell hpb)]
        simp only [hm, hmb, ihh hh' n (by omega), iht ht' n (by omega), Option.bind_some, Noun.order]
        cases Noun.order lowCmp xh yh <;> rfl

/-! ### Where the lowest words decide as the numbers do -/

/-- Two lists of one length compare as their first entries that differ. -/
theorem compare_first {as bs : List ℕ} (hl : as.length = bs.length) : ∀ {i : ℕ},
    (∀ j < i, as.getD j 0 = bs.getD j 0) → as.getD i 0 ≠ bs.getD i 0 →
    compare as bs = compare (as.getD i 0) (bs.getD i 0) := by
  induction as generalizing bs with
  | nil =>
    intro i _ hne
    rw [List.length_nil, eq_comm, List.length_eq_zero_iff] at hl
    exact absurd (by rw [hl]) hne
  | cons a as ih =>
    intro i hlow hne
    obtain ⟨b, bs, rfl⟩ := List.exists_cons_of_length_eq_add_one hl.symm
    rw [List.compare_cons_cons]
    cases i with
    | zero =>
      rw [List.getD_cons_zero, List.getD_cons_zero] at hne ⊢
      rcases Nat.lt_or_gt_of_ne hne with hlt | hgt
      · rw [Nat.compare_eq_lt.mpr hlt]; rfl
      · rw [Nat.compare_eq_gt.mpr hgt]; rfl
    | succ i =>
      have h1 : a = b := hlow 0 (Nat.succ_pos i)
      rw [h1, Nat.compare_eq_eq.mpr rfl, List.getD_cons_succ, List.getD_cons_succ]
      exact ih (Nat.succ.inj hl) (fun j hj => hlow (j + 1) (Nat.succ_lt_succ hj)) hne

/-- Two numbers of one count of words that are not equal have a lowest word that differs. -/
theorem exists_low_word {a b : ℕ} (h : a ≠ b) :
    ∃ i, (∀ j < i, word a j = word b j) ∧ word a i ≠ word b i := by
  have h1 : ∃ i, word a i ≠ word b i := by
    by_contra hno
    apply h
    apply Nat.eq_of_testBit_eq
    intro i
    rw [← wordBit_wordsOf, ← wordBit_wordsOf, wordBit, wordBit, getD_wordsOf, getD_wordsOf,
      not_not.mp (not_exists.mp hno (i / 32))]
  exact ⟨Nat.find h1, fun j hj => not_not.mp (Nat.find_min h1 hj), Nat.find_spec h1⟩

/-- The lowest word in which two numbers differ is ordered as the numbers are. -/
def LowWordAgrees (a b : ℕ) : Prop :=
  ∀ i, (∀ j < i, word a j = word b j) → word a i ≠ word b i → (word a i < word b i ↔ a < b)

/-- At the first place where two nouns differ, if both have an indirect atom of one
count of words there, then the lowest word that differs is ordered as the atoms are. -/
def LowAgrees : Noun → Noun → Prop
  | .atom a, .atom b =>
    2 ^ 31 ≤ a → 2 ^ 31 ≤ b → (wordsOf a).length = (wordsOf b).length → LowWordAgrees a b
  | .cell h t, .cell h' t' => LowAgrees h h' ∧ (h = h' → LowAgrees t t')
  | _, _ => True

theorem lowWordAgrees_iff {a b i : ℕ} (hlow : ∀ j < i, word a j = word b j) (hne : word a i ≠ word b i) :
    LowWordAgrees a b ↔ (word a i < word b i ↔ a < b) := by
  constructor
  · intro h
    exact h i hlow hne
  · intro h k hk hkne
    have h1 : k = i := by
      rcases Nat.lt_trichotomy k i with hlt | heq | hgt
      · exact absurd (hlow k hlt) hkne
      · exact heq
      · exact absurd (hk i hgt) hne
    rw [h1]
    exact h

theorem compare_eq_iff {a b c d : ℕ} (hab : a ≠ b) (hcd : c ≠ d) :
    compare a b = compare c d ↔ (a < b ↔ c < d) := by
  rcases Nat.lt_or_gt_of_ne hab with h1 | h1 <;> rcases Nat.lt_or_gt_of_ne hcd with h2 | h2
  · rw [Nat.compare_eq_lt.mpr h1, Nat.compare_eq_lt.mpr h2]
    exact iff_of_true rfl (iff_of_true h1 h2)
  · rw [Nat.compare_eq_lt.mpr h1, Nat.compare_eq_gt.mpr h2]
    exact iff_of_false (by decide) (by omega)
  · rw [Nat.compare_eq_gt.mpr h1, Nat.compare_eq_lt.mpr h2]
    exact iff_of_false (by decide) (by omega)
  · rw [Nat.compare_eq_gt.mpr h1, Nat.compare_eq_gt.mpr h2]
    exact iff_of_true rfl (iff_of_false (by omega) (by omega))

/-- On two indirect atoms of one count of words. -/
theorem lowCmp_words {a b i : ℕ} (ha : 2 ^ 31 ≤ a) (hb : 2 ^ 31 ≤ b)
    (hl : (wordsOf a).length = (wordsOf b).length) (hlow : ∀ j < i, word a j = word b j)
    (hne : word a i ≠ word b i) : lowCmp a b = compare (word a i) (word b i) := by
  have hget (c k : ℕ) : ((wordsOf c).map UInt32.toNat).getD k 0 = word c k := by
    rw [← getD_wordsOf, List.getD_eq_getElem?_getD, List.getElem?_map, List.getD_eq_getElem?_getD]
    cases (wordsOf c)[k]? <;> rfl
  rw [lowCmp, lowKey, lowKey, if_neg (Nat.not_lt.mpr ha), if_neg (Nat.not_lt.mpr hb), List.compare_cons_cons, hl,
    Nat.compare_eq_eq.mpr rfl, Ordering.eq_then]
  have h1 : ((wordsOf a).map UInt32.toNat).length = ((wordsOf b).map UInt32.toNat).length := by
    rw [List.length_map, List.length_map, hl]
  have h2 : compare ((wordsOf a).map UInt32.toNat) ((wordsOf b).map UInt32.toNat) = _ :=
    compare_first h1 (fun j hj => by rw [hget, hget]; exact hlow j hj) (by rw [hget, hget]; exact hne)
  rw [h2, hget, hget]

/-- On two atoms of which one is direct, or the counts of words are not the same. -/
theorem lowCmp_of_ne {a b : ℕ}
    (h : a < 2 ^ 31 ∨ b < 2 ^ 31 ∨ (wordsOf a).length ≠ (wordsOf b).length) : lowCmp a b = compare a b := by
  rw [lowCmp, lowKey, lowKey]
  by_cases ha : a < 2 ^ 31
  · rw [if_pos ha]
    by_cases hb : b < 2 ^ 31
    · rw [if_pos hb, List.compare_cons_cons, List.compare_cons_cons, Nat.compare_eq_eq.mpr rfl,
        List.compare_nil_nil, Ordering.then_eq, Ordering.eq_then]
    · rw [if_neg hb, List.compare_cons_cons,
        Nat.compare_eq_lt.mpr (length_wordsOf_pos (Nat.le_of_not_lt hb)), Nat.compare_eq_lt.mpr (by omega)]; rfl
  · rw [if_neg ha]
    by_cases hb : b < 2 ^ 31
    · rw [if_pos hb, List.compare_cons_cons,
        Nat.compare_eq_gt.mpr (length_wordsOf_pos (Nat.le_of_not_lt ha)), Nat.compare_eq_gt.mpr (by omega)]; rfl
    · rw [if_neg hb, List.compare_cons_cons]
      have hl := (h.resolve_left ha).resolve_left hb
      rcases Nat.lt_or_gt_of_ne hl with hlt | hgt
      · have h2 : a < b := Nat.lt_of_not_le fun h => Nat.not_lt.mpr (length_wordsOf_mono h) hlt
        rw [Nat.compare_eq_lt.mpr hlt, Nat.compare_eq_lt.mpr h2]; rfl
      · have h2 : b < a := Nat.lt_of_not_le fun h => Nat.not_lt.mpr (length_wordsOf_mono h) hgt
        rw [Nat.compare_eq_gt.mpr hgt, Nat.compare_eq_gt.mpr h2]; rfl

theorem lowCmp_iff (a b : ℕ) : lowCmp a b = compare a b ↔ LowAgrees (.atom a) (.atom b) := by
  by_cases h : a < 2 ^ 31 ∨ b < 2 ^ 31 ∨ (wordsOf a).length ≠ (wordsOf b).length
  · refine iff_of_true (lowCmp_of_ne h) ?_
    intro ha hb hl
    exact absurd h (by
      rw [not_or, not_or]
      exact ⟨Nat.not_lt.mpr ha, Nat.not_lt.mpr hb, not_not.mpr hl⟩)
  · rw [not_or, not_or, not_not, Nat.not_lt, Nat.not_lt] at h
    obtain ⟨ha, hb, hl⟩ := h
    have h1 : LowAgrees (.atom a) (.atom b) ↔ LowWordAgrees a b :=
      ⟨fun h => h ha hb hl, fun h _ _ _ => h⟩
    rw [h1]
    by_cases hab : a = b
    · subst hab
      have h2 : lowCmp a a = .eq := Std.ReflCmp.compare_self
      refine iff_of_true (by rw [h2, Nat.compare_eq_eq.mpr rfl]) ?_
      intro i _ hne
      exact absurd rfl hne
    · obtain ⟨i, hlow, hne⟩ := exists_low_word hab
      rw [lowCmp_words ha hb hl hlow hne, compare_eq_iff hne hab, lowWordAgrees_iff hlow hne]

/-- **The two orders agree exactly where the lowest words do.** -/
theorem order_low_iff (x y : Noun) :
    Noun.order lowCmp x y = Noun.order compare x y ↔ LowAgrees x y := by
  induction x generalizing y with
  | atom a =>
    cases y with
    | atom b => exact lowCmp_iff a b
    | cell h t => exact iff_of_true rfl trivial
  | cell h t ihh iht =>
    cases y with
    | atom b => exact iff_of_true rfl trivial
    | cell h' t' =>
      rw [Noun.order, Noun.order, LowAgrees, ← ihh, ← iht]
      by_cases hh : h = h'
      · subst hh
        have h1 : Noun.order compare h h = .eq := Std.ReflCmp.compare_self
        rw [order_self, h1, Ordering.eq_then, Ordering.eq_then]
        exact ⟨fun ht => ⟨rfl, fun _ => ht⟩, fun ht => ht.2 rfl⟩
      · have h1 : Noun.order lowCmp h h' ≠ .eq := fun h => hh (Std.LawfulEqCmp.eq_of_compare h)
        have h2 : Noun.order compare h h' ≠ .eq := fun h => hh (Std.LawfulEqCmp.eq_of_compare h)
        have hthen {o p : Ordering} (ho : o ≠ .eq) : o.then p = o := by
          cases o with
          | lt => rfl
          | eq => exact absurd rfl ho
          | gt => rfl
        rw [hthen h1, hthen h2]
        exact ⟨fun h => ⟨h, fun heq => absurd heq hh⟩, fun h => h.1⟩

/-! ### What is asked of the two -/

/-- On `a` and `b`, the two give the order of nouns over the order of numbers. -/
def OrdersRight (m : Loom) (a b : ℕ) (x y : Noun) : Prop :=
  (∀ fuel, x.depth < fuel → u3rNord m fuel a b = some (nordCode (Noun.order compare x y))) ∧
    ∀ p q, x = .atom p → y = .atom q → u3rComp m a b = compCode (compare p q)

theorem nordCode_inj {o p : Ordering} (h : nordCode o = nordCode p) : o = p := by
  cases o <;> cases p <;> first | rfl | exact absurd h (by decide)

/-- **The order of `u3r_nord`, and where it is the order of the numbers.** It is
total on all nouns of a loom: it says "equal" of one noun only, turns around with
its arguments and is transitive. It is the order over the numbers, as `u3r_comp`
is on atoms, exactly where the lowest word that differs is ordered as the atoms. -/
theorem nord_right_iff {m : Loom} {a b c : ℕ} {x y z : Noun} (ha : Den m a x) (hb : Den m b y)
    (hc : Den m c z) :
    (OrdersRight m a b x y ↔ LowAgrees x y) ∧
      ∀ fuel, x.depth < fuel → y.depth < fuel →
        (u3rNord m fuel a b = some 1 ↔ x = y) ∧
        (u3rNord m fuel a b = some 0 ↔ u3rNord m fuel b a = some 2) ∧
        (u3rNord m fuel a b = some 0 → u3rNord m fuel b c = some 0 → u3rNord m fuel a c = some 0) := by
  have hcode {o p : Ordering} : some (nordCode o) = some (nordCode p) ↔ o = p :=
    ⟨fun h => nordCode_inj (Option.some.inj h), fun h => by rw [h]⟩
  constructor
  · rw [← order_low_iff]
    constructor
    · intro h
      have h1 := h.1 (x.depth + 1) (Nat.lt_succ_self _)
      rw [nord_order ha hb (Nat.lt_succ_self _)] at h1
      exact hcode.mp h1
    · intro h
      refine ⟨fun fuel hf => by rw [nord_order ha hb hf, h], ?_⟩
      rintro p q rfl rfl
      exact comp_order ha hb
  · intro fuel hx hy
    rw [nord_order ha hb hx, nord_order hb ha hy, nord_order hb hc hy, nord_order ha hc hx]
    refine ⟨?_, ?_, ?_⟩
    · apply hcode (p := .eq).trans
      exact Std.LawfulEqCmp.compare_eq_iff_eq
    · apply (hcode (p := .lt)).trans
      apply Iff.trans _ (hcode (p := .gt)).symm
      rw [Std.OrientedCmp.gt_iff_lt]
    · intro hab hbc
      have h1 : Noun.order lowCmp x y = .lt := (hcode (p := .lt)).mp hab
      have h2 : Noun.order lowCmp y z = .lt := (hcode (p := .lt)).mp hbc
      exact (hcode (p := .lt)).mpr (Std.TransCmp.lt_trans h1 h2)

/-- A loom with `2^32 + 2` at one reference and `2^33 + 1` at another. -/
def twoAtoms : Loom
  | 0x80000000 => some (.atom (wordsOf 0x100000002))
  | 0x80000010 => some (.atom (wordsOf 0x200000001))
  | _ => none

/-- The order of a direct atom and an indirect one. -/
theorem nord_right_cat :
    OrdersRight twoAtoms 7 0x80000000 (.atom 7) (.atom 0x100000002) ↔
      LowAgrees (.atom 7) (.atom 0x100000002) :=
  (nord_right_iff (.cat (by decide)) (.pug (by decide) rfl (by decide) (by decide +kernel))
    (.cat (a := 0) (by decide))).1

/-- `2^32 + 2` is the lower of the two, and `u3r_nord` says it is above. -/
theorem nord_above_of_lower : ∃ (m : Loom) (a b : ℕ) (x y : Noun), Den m a x ∧ Den m b y ∧
    ¬ OrdersRight m a b x y := by
  refine ⟨twoAtoms, 0x80000000, 0x80000010, .atom 0x100000002, .atom 0x200000001,
    .pug (by decide) rfl (by decide) (by decide +kernel),
    .pug (by decide) rfl (by decide) (by decide +kernel), ?_⟩
  intro h
  have h1 := h.1 1 (by decide)
  exact absurd h1 (by decide +kernel)

end Retrieve
end Ursockets
