/-
# The jam format

A noun is written as a string of bits. An atom is a zero and its run-length
encoded bits, a cell is a one, a zero, its head and its tail, and where a
sub-noun was written before, a back-reference may take its place: two ones and
the run-length encoded place. An atom is written again if that is not longer.

A noun is first planned into items, with the places of the atoms and cells
written so far carried along, and the items are then laid out as bits.

Key definitions: `mat`, `Item`, `find`, `plan`, `subs`.
Key theorems: `plan_marks`, `subs_plan`.
-/
import Ursockets.Noun
import Ursockets.Lib.Bits
import Mathlib.Tactic.Set

namespace Ursockets
namespace Jam

open Bits

/-- A run-length encoded string: the length of its length in unary, its length
without the highest bit, and the string. -/
def mat (bs : List Bool) : List Bool :=
  if bs = [] then [true]
  else
    let k := met0 bs.length
    bitsOf (k + 1) (fun i => decide (i = k)) ++ ofNat (k - 1) bs.length ++ bs

/-- The bits of a number. -/
def rub (a : ℕ) : List Bool := mat (ofNat (met0 a) a)

/-- What is written for a noun. -/
inductive Item where
  | atom (a : ℕ)
  | back (p : ℕ)
  | cell (hed tel : Item)
  deriving DecidableEq, Repr

def Item.bits : Item → List Bool
  | .atom a => false :: rub a
  | .back p => true :: true :: rub p
  | .cell h t => true :: false :: (h.bits ++ t.bits)

/-- How deep the cells of an item are nested. -/
def Item.depth : Item → ℕ
  | .atom _ => 0
  | .back _ => 0
  | .cell h t => max h.depth t.depth + 1

/-- How deep the cells of an item are nested in heads of cells. -/
def Item.heads : Item → ℕ
  | .atom _ => 0
  | .back _ => 0
  | .cell h t => max (h.heads + 1) t.heads

/-- The atoms and cells written so far, with their places. -/
abbrev Marks := List (ℕ × Noun)

/-- Where a noun was written first. -/
def find (m : Marks) (x : Noun) : Option ℕ := (m.find? fun e => e.2 = x).map Prod.fst

/-- What is written at place `c` for a noun, and what has been written then. -/
def plan (m : Marks) (c : ℕ) : Noun → Item × Marks
  | .atom a =>
    match find m (.atom a) with
    | some p =>
      if met0 a ≤ met0 p then (.atom a, m ++ [(c, .atom a)]) else (.back p, m)
    | none => (.atom a, m ++ [(c, .atom a)])
  | .cell h t =>
    match find m (.cell h t) with
    | some p => (.back p, m)
    | none =>
      let hed := plan (m ++ [(c, .cell h t)]) (c + 2) h
      let tel := plan hed.2 (c + 2 + hed.1.bits.length) t
      (.cell hed.1 tel.1, tel.2)

/-- What is written for a noun alone. -/
def jam (x : Noun) : Item := (plan [] 0 x).1

/-- The places at which its atoms and cells are written. -/
def marks (x : Noun) : Marks := (plan [] 0 x).2

/-- A noun and all nouns in it. -/
def subs : Noun → List Noun
  | .atom a => [.atom a]
  | .cell h t => .cell h t :: (subs h ++ subs t)

/-- The cells and atoms of a noun. -/
def size : Noun → ℕ
  | .atom _ => 1
  | .cell h t => size h + size t + 1

/-! ### Nouns in nouns -/

theorem self_mem_subs (x : Noun) : x ∈ subs x := by cases x <;> exact List.mem_cons_self

theorem subs_trans {x y : Noun} : ∀ {z}, y ∈ subs z → x ∈ subs y → x ∈ subs z
  | .atom a, hy, hx => by
    rw [subs, List.mem_singleton] at hy
    rwa [hy] at hx
  | .cell h t, hy, hx => by
    rw [subs, List.mem_cons, List.mem_append] at hy
    rcases hy with rfl | hy | hy
    · exact hx
    · exact List.mem_cons_of_mem _ (List.mem_append_left _ (subs_trans hy hx))
    · exact List.mem_cons_of_mem _ (List.mem_append_right _ (subs_trans hy hx))

/-! ### Places -/

theorem find_append (m m' : Marks) (x : Noun) : find (m ++ m') x = (find m x).or (find m' x) := by
  rw [find, List.find?_append, find, find]
  cases m.find? fun e => e.2 = x <;> rfl

theorem mem_of_find {m : Marks} {x : Noun} {p : ℕ} (h : find m x = some p) : (p, x) ∈ m := by
  obtain ⟨e, he, rfl⟩ := Option.map_eq_some_iff.mp h
  have h1 : e.2 = x := by simpa using List.find?_some he
  rw [← h1]
  exact List.mem_of_find?_eq_some he

theorem find_of_mem {m : Marks} {x : Noun} {p : ℕ} (h : (p, x) ∈ m) : (find m x).isSome := by
  rw [find, Option.isSome_map, List.find?_isSome]
  exact ⟨_, h, by simp⟩

theorem find_push (m : Marks) (c : ℕ) (x y : Noun) :
    find (m ++ [(c, x)]) y = (find m y).or (if x = y then some c else none) := by
  rw [find_append]
  congr 1
  rw [find, List.find?_singleton]
  by_cases h : x = y <;> simp [h]

theorem bits_pos (i : Item) : 0 < i.bits.length := by
  cases i <;> exact Nat.succ_pos _

/-- **What is written at a place**: the marks of before, and marks from there on
of nouns in the noun. -/
theorem plan_marks : ∀ (x : Noun) (m : Marks) (c : ℕ), ∃ new, (plan m c x).2 = m ++ new ∧
    ∀ e ∈ new, c ≤ e.1 ∧ e.1 < c + (plan m c x).1.bits.length ∧ e.2 ∈ subs x
  | .atom a, m, c => by
    have hone : ∀ i : Item, ∀ e ∈ [(c, Noun.atom a)],
        c ≤ e.1 ∧ e.1 < c + i.bits.length ∧ e.2 ∈ subs (.atom a) := by
      intro i e he
      rw [List.mem_singleton] at he
      subst he
      have := bits_pos i
      exact ⟨Nat.le_refl _, by show c < _; omega, self_mem_subs _⟩
    simp only [plan]
    split
    · split
      · exact ⟨_, rfl, hone _⟩
      · exact ⟨[], (List.append_nil m).symm, fun _ he => absurd he List.not_mem_nil⟩
    · exact ⟨_, rfl, hone _⟩
  | .cell h t, m, c => by
    simp only [plan]
    split
    · exact ⟨[], (List.append_nil m).symm, fun _ he => absurd he List.not_mem_nil⟩
    · obtain ⟨nh, h1, h2⟩ := plan_marks h (m ++ [(c, .cell h t)]) (c + 2)
      set hed := plan (m ++ [(c, .cell h t)]) (c + 2) h
      obtain ⟨nt, h3, h4⟩ := plan_marks t hed.2 (c + 2 + hed.1.bits.length)
      set tel := plan hed.2 (c + 2 + hed.1.bits.length) t
      refine ⟨(c, .cell h t) :: (nh ++ nt), by rw [h3, h1]; simp, fun e he => ?_⟩
      have hlen : (Item.cell hed.1 tel.1).bits.length = 2 + hed.1.bits.length + tel.1.bits.length := by
        simp only [Item.bits, List.length_cons, List.length_append]
        omega
      rw [hlen]
      rw [List.mem_cons, List.mem_append] at he
      rcases he with rfl | he | he
      · exact ⟨Nat.le_refl _, by show c < _; omega, List.mem_cons_self⟩
      · obtain ⟨h5, h6, h7⟩ := h2 e he
        exact ⟨by omega, by omega, List.mem_cons_of_mem _ (List.mem_append_left _ h7)⟩
      · obtain ⟨h5, h6, h7⟩ := h4 e he
        exact ⟨by omega, by omega, List.mem_cons_of_mem _ (List.mem_append_right _ h7)⟩

/-- All nouns in a noun that was written are written, if the noun is not larger than `k`. -/
def Closed (k : ℕ) (m : Marks) : Prop :=
  ∀ p y, (p, y) ∈ m → size y ≤ k → ∀ z ∈ subs y, (find m z).isSome

theorem find_mono {m new : Marks} {z : Noun} (h : (find m z).isSome) : (find (m ++ new) z).isSome := by
  rw [find_append]
  cases hf : find m z with
  | none => rw [hf] at h; cases h
  | some p => rfl

/-- **All nouns in a noun are written with it.** -/
theorem subs_plan : ∀ (x : Noun) (m : Marks) (c : ℕ), Closed (size x) m →
    ∀ z ∈ subs x, (find (plan m c x).2 z).isSome
  | .atom a, m, c, _, z, hz => by
    rw [subs, List.mem_singleton] at hz
    subst hz
    simp only [plan]
    split
    · rename_i p hp
      split
      · exact find_mono (by rw [hp]; rfl)
      · rw [hp]; rfl
    · exact find_of_mem (List.mem_append_right _ (List.mem_singleton.mpr rfl))
  | .cell h t, m, c, hm, z, hz => by
    simp only [plan]
    split
    · rename_i p hp
      exact hm p _ (mem_of_find hp) (Nat.le_refl _) z hz
    · have hch : Closed (size h) (m ++ [(c, .cell h t)]) := by
        intro p y hy hs w hw
        rcases List.mem_append.mp hy with hy | hy
        · exact find_mono (hm p y hy (by rw [size]; omega) w hw)
        · rw [List.mem_singleton] at hy
          cases hy
          rw [size] at hs
          omega
      have ihh := subs_plan h (m ++ [(c, .cell h t)]) (c + 2) hch
      obtain ⟨nh, h1, h2⟩ := plan_marks h (m ++ [(c, .cell h t)]) (c + 2)
      set hed := plan (m ++ [(c, .cell h t)]) (c + 2) h
      have hct : Closed (size t) hed.2 := by
        intro p y hy hs w hw
        rw [h1] at hy ⊢
        rcases List.mem_append.mp hy with hy | hy
        · rcases List.mem_append.mp hy with hy | hy
          · exact find_mono (find_mono (hm p y hy (by rw [size]; omega) w hw))
          · rw [List.mem_singleton] at hy
            cases hy
            rw [size] at hs
            omega
        · rw [← h1]
          exact ihh w (subs_trans (h2 _ hy).2.2 hw)
      have iht := subs_plan t hed.2 (c + 2 + hed.1.bits.length) hct
      obtain ⟨nt, h3, -⟩ := plan_marks t hed.2 (c + 2 + hed.1.bits.length)
      rw [subs, List.mem_cons, List.mem_append] at hz
      rcases hz with rfl | hz | hz
      · rw [h3, h1]
        exact find_mono (find_mono (find_of_mem (List.mem_append_right _ (List.mem_singleton.mpr rfl))))
      · rw [h3]
        exact find_mono (ihh z hz)
      · exact iht z hz

end Jam
end Ursockets
