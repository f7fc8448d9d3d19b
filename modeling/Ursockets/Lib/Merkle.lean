/-
# Merkle trees of any number of leaves

The tree over `m` leaves splits after the largest power of two below `m`. Its
subtrees are full, except those at the right end, and they are numbered by
height: subtree `j` of height `h` covers the leaves from `j * 2 ^ h` on. A subtree
whose right half has no leaf is the same as its left half.

Key definitions: `half`, `spanRoot`, `node`, `spine`, `CollisionFree`.
Key theorems: `node_pair`, `node_alone`, `foldl_spine`, `foldl_parent_inj`.
-/
import Mathlib.Data.Nat.Init
import Mathlib.Data.List.Basic
import Mathlib.Tactic.Ring

namespace Merkle

variable {H : Type} (parent : H → H → H) (leaf : ℕ → H)

/-- The largest power of two below `m`, where `m` is two at least. -/
def half (m : ℕ) : ℕ := 2 ^ (m - 1).log2

theorem half_pos (m : ℕ) : 0 < half m := Nat.two_pow_pos _

theorem half_lt {m : ℕ} (h : 1 < m) : half m < m := by
  have := Nat.log2_self_le (show m - 1 ≠ 0 by omega)
  rw [half]
  omega

theorem half_eq {m h : ℕ} (hlt : 2 ^ h < m) (hle : m ≤ 2 ^ (h + 1)) : half m = 2 ^ h := by
  have hpos := Nat.two_pow_pos h
  have hlog : (m - 1).log2 = h := (Nat.log2_eq_iff (by omega)).mpr ⟨by omega, by omega⟩
  rw [half, hlog]

/-- The root of the tree over the `m` leaves from leaf `s` on. -/
def spanRoot (s m : ℕ) : H :=
  if m ≤ 1 then leaf s
  else parent (spanRoot s (half m)) (spanRoot (s + half m) (m - half m))
termination_by m
decreasing_by
  · exact half_lt (by omega)
  · have := half_pos m
    omega

/-- The root of subtree `j` of height `h` in the tree over `n` leaves. -/
def node (n h j : ℕ) : H := spanRoot parent leaf (j * 2 ^ h) (min (2 ^ h) (n - j * 2 ^ h))

/-- The first leaf, and the right neighbour of each subtree that begins with it, up to height `k`. -/
def spine (n k : ℕ) : List H := leaf 0 :: (List.range k).map fun h => node parent leaf n h 1

variable {parent leaf} {n h j : ℕ}

theorem spanRoot_one {s m : ℕ} (hm : m ≤ 1) : spanRoot parent leaf s m = leaf s := by
  rw [spanRoot, if_pos hm]

theorem spanRoot_pair {s m : ℕ} (hm : 1 < m) : spanRoot parent leaf s m =
    parent (spanRoot parent leaf s (half m)) (spanRoot parent leaf (s + half m) (m - half m)) := by
  rw [spanRoot, if_neg (by omega)]

/-! ### Subtrees -/

@[simp] theorem node_zero : node parent leaf n 0 j = leaf j := by
  rw [node, spanRoot_one (by omega), Nat.pow_zero, Nat.mul_one]

/-- A subtree whose right half has a leaf joins its halves. -/
theorem node_pair (hn : (2 * j + 1) * 2 ^ h < n) :
    node parent leaf n (h + 1) j = parent (node parent leaf n h (2 * j)) (node parent leaf n h (2 * j + 1)) := by
  have hpow : 2 ^ (h + 1) = 2 ^ h + 2 ^ h := by ring
  have hleft : 2 * j * 2 ^ h = j * 2 ^ (h + 1) := by ring
  have hright : (2 * j + 1) * 2 ^ h = j * 2 ^ (h + 1) + 2 ^ h := by ring
  rw [hright] at hn
  have hpos := Nat.two_pow_pos h
  have hhalf : half (min (2 ^ (h + 1)) (n - j * 2 ^ (h + 1))) = 2 ^ h := half_eq (by omega) (by omega)
  rw [node, spanRoot_pair (by omega), hhalf, node, node, hleft, hright]
  congr 2
  · omega
  · omega

/-- A subtree whose right half has no leaf is its left half. -/
theorem node_alone (hn : n ≤ (2 * j + 1) * 2 ^ h) :
    node parent leaf n (h + 1) j = node parent leaf n h (2 * j) := by
  have hleft : 2 * j * 2 ^ h = j * 2 ^ (h + 1) := by ring
  have hright : (2 * j + 1) * 2 ^ h = j * 2 ^ (h + 1) + 2 ^ h := by ring
  rw [hright] at hn
  have hle : n - j * 2 ^ (h + 1) ≤ 2 ^ h := Nat.sub_le_iff_le_add'.mpr hn
  have hpow : 2 ^ h ≤ 2 ^ (h + 1) := Nat.pow_le_pow_right (by decide) (Nat.le_succ h)
  rw [node, node, hleft, Nat.min_eq_right hle, Nat.min_eq_right (hle.trans hpow)]

/-- The subtree of number 0 is the whole tree if it is high enough. -/
theorem node_root (hn : n ≤ 2 ^ h) : node parent leaf n h 0 = spanRoot parent leaf 0 n := by
  rw [node, Nat.zero_mul, Nat.sub_zero, Nat.min_eq_right hn]

/-! ### The spine -/

theorem length_spine (k : ℕ) : (spine parent leaf n k).length = k + 1 := by
  rw [spine, List.length_cons, List.length_map, List.length_range]

/-- **The spine gives the root.** -/
theorem foldl_spine : ∀ {k : ℕ}, (∀ h < k, 2 ^ h < n) →
    ((List.range k).map fun h => node parent leaf n h 1).foldl parent (leaf 0) = node parent leaf n k 0
  | 0, _ => node_zero.symm
  | k + 1, hk => by
    have hlast : (2 * 0 + 1) * 2 ^ k < n := by
      have := hk k (Nat.lt_succ_self k)
      omega
    rw [List.range_succ, List.map_append, List.foldl_append,
      foldl_spine fun h hlt => hk h (Nat.lt_succ_of_lt hlt), node_pair hlast]
    rfl

/-- The joining of hashes has no collisions. -/
def CollisionFree (parent : H → H → H) : Prop := ∀ l r l' r', parent l r = parent l' r' → l = l' ∧ r = r'

/-- One root has one spine of each length. -/
theorem foldl_parent_inj (hp : CollisionFree parent) : ∀ {l l' : List H} {a a' : H}, l.length = l'.length →
    l.foldl parent a = l'.foldl parent a' → a = a' ∧ l = l'
  | [], [], _, _, _, h => ⟨h, rfl⟩
  | x :: l, x' :: l', a, a', hlen, h => by
    obtain ⟨h1, rfl⟩ := foldl_parent_inj hp (Nat.succ.inj hlen) h
    obtain ⟨rfl, rfl⟩ := hp _ _ _ _ h1
    exact ⟨rfl, rfl⟩
  | [], _ :: _, _, _, hlen, _ => by cases hlen
  | _ :: _, [], _, _, hlen, _ => by cases hlen

end Merkle
