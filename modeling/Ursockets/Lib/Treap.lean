/-
# Treaps

Binary trees that are search trees by a key and heaps by a priority, both from linear orders. A
treap is determined by its entries, so that what is known of the entries of a tree is known of the
tree.

Key definitions: `Apt`.
Key theorems: `Apt.eq_of_key`, `Apt.unique`, `apt_node`.
-/
import Mathlib.Data.Tree.Basic
import Mathlib.Order.Lattice
import Mathlib.Tactic.Common

namespace Ursockets
namespace Treap

variable {ε : Type}

/-- The entry stands in the tree. -/
def Mem (t : BinaryTree ε) (e : ε) : Prop :=
  match t with
  | .nil => False
  | .node n l r => e = n ∨ Mem l e ∨ Mem r e

instance instMem : Membership ε (BinaryTree ε) := ⟨Mem⟩

@[simp, grind =] theorem mem_nil {e : ε} : e ∈ (.nil : BinaryTree ε) ↔ False := Iff.rfl

@[simp, grind =] theorem mem_node {e n : ε} {l r : BinaryTree ε} :
    e ∈ (.node n l r : BinaryTree ε) ↔ e = n ∨ e ∈ l ∨ e ∈ r := Iff.rfl

@[grind =] theorem numNodes_nil : (.nil : BinaryTree ε).numNodes = 0 := rfl

@[grind =] theorem numNodes_node {n : ε} {l r : BinaryTree ε} :
    (.node n l r : BinaryTree ε).numNodes = l.numNodes + r.numNodes + 1 := rfl

variable {κ π : Type} [LinearOrder κ] [LinearOrder π] (key : ε → κ) (pri : ε → π)

/-- A search tree by the keys and a heap by the priorities, the least at the root. -/
def Apt : BinaryTree ε → Prop
  | .nil => True
  | .node n l r => Apt l ∧ Apt r ∧ (∀ e ∈ l, key e < key n ∧ pri n < pri e) ∧ ∀ e ∈ r, key n < key e ∧ pri n < pri e

variable {key pri}

@[grind =] theorem apt_node {n : ε} {l r : BinaryTree ε} :
    Apt key pri (.node n l r) ↔ Apt key pri l ∧ Apt key pri r ∧ (∀ e ∈ l, key e < key n ∧ pri n < pri e) ∧
      ∀ e ∈ r, key n < key e ∧ pri n < pri e := Iff.rfl

/-- Each key stands once. -/
theorem Apt.eq_of_key {t : BinaryTree ε} (h : Apt key pri t) {e e' : ε} (he : e ∈ t) (he' : e' ∈ t)
    (hk : key e = key e') : e = e' := by
  induction t with
  | nil => exact he.elim
  | node n l r ihl ihr => grind

/-- **A treap is determined by its entries.** -/
theorem Apt.unique {t t' : BinaryTree ε} (h : Apt key pri t) (h' : Apt key pri t') (hm : ∀ e, e ∈ t ↔ e ∈ t') :
    t = t' := by
  induction t generalizing t' with
  | nil =>
    cases t' with
    | nil => rfl
    | node n l r => exact ((hm n).mpr (.inl rfl)).elim
  | node n l r ihl ihr =>
    cases t' with
    | nil => exact ((hm n).mp (.inl rfl)).elim
    | node n' l' r' =>
      obtain ⟨hl, hr, hln, hrn⟩ := h
      obtain ⟨hl', hr', hln', hrn'⟩ := h'
      have hroot : n = n' := by
        have h1 := hm n
        have h2 := hm n'
        grind
      subst hroot
      rw [ihl hl hl' fun e => ?_, ihr hr hr' fun e => ?_]
      · have h1 := hm e
        grind
      · have h1 := hm e
        grind

end Treap
end Ursockets
