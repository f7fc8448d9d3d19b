/-
# Doubly linked lists

Nodes that point to the one before and the one after, in a memory of nodes. A segment (`Seg`) is a list
of nodes each of which points to its neighbours, its ends to what is around it. A node is put at an end,
or taken from anywhere, by pointing its neighbours elsewhere (`Seg.push_back`, `Seg.push_front`,
`Seg.unlink`), and whatever is written outside a segment leaves it one (`Seg.congr`).

Key definitions: `Links`, `first`, `last`, `Seg`, `linkNex`, `linkPre`.
Key theorems: `Seg.append_iff`, `Seg.congr`, `Seg.push_back`, `Seg.push_front`, `Seg.unlink`.
-/
import Mathlib.Data.List.Nodup
import Mathlib.Logic.Function.Basic
import Mathlib.Tactic.Common

namespace Linked

variable {ι : Type*}

/-- What a node points to. -/
@[ext] structure Links (ι : Type*) where
  pre : Option ι
  nex : Option ι

/-- The node that a list begins with, or else what comes after it. -/
def first : List ι → Option ι → Option ι
  | [], n => n
  | i :: _, _ => some i

/-- The node that a list ends with, or else what comes before it. -/
def last : Option ι → List ι → Option ι
  | p, [] => p
  | _, i :: l => last (some i) l

theorem last_append (p : Option ι) (l r : List ι) : last p (l ++ r) = last (last p l) r := by
  induction l generalizing p with
  | nil => rfl
  | cons i l ih => exact ih (some i)

theorem last_concat (p : Option ι) (l : List ι) (i : ι) : last p (l ++ [i]) = some i := by
  rw [last_append]
  rfl

theorem first_append (l r : List ι) (n : Option ι) : first (l ++ r) n = first l (first r n) := by
  cases l with
  | nil => rfl
  | cons i l => rfl

theorem first_mem {l : List ι} {i : ι} (h : first l none = some i) : i ∈ l := by
  cases l with
  | nil => exact absurd h (nomatch ·)
  | cons j l => exact Option.some.inj h ▸ List.mem_cons_self

theorem last_mem {l : List ι} {i : ι} (h : last none l = some i) : i ∈ l := by
  rcases List.eq_nil_or_concat l with rfl | ⟨l, j, rfl⟩
  · exact absurd h (nomatch ·)
  · rw [List.concat_eq_append, last_concat] at h
    rw [List.concat_eq_append, ← Option.some.inj h]
    exact List.mem_append_right l List.mem_cons_self

/-- **A segment**: each node points to the ones around it, the ends to `p` and `n`. -/
def Seg (h : ι → Option (Links ι)) : Option ι → List ι → Option ι → Prop
  | _, [], _ => True
  | p, i :: l, n => h i = some ⟨p, first l n⟩ ∧ Seg h (some i) l n

variable {h h' : ι → Option (Links ι)} {p n : Option ι} {l r : List ι} {i : ι}

theorem Seg.append_iff : Seg h p (l ++ r) n ↔ Seg h p l (first r n) ∧ Seg h (last p l) r n := by
  induction l generalizing p with
  | nil => exact (iff_of_eq (true_and _)).symm
  | cons i l ih =>
    show h i = some ⟨p, first (l ++ r) n⟩ ∧ Seg h (some i) (l ++ r) n ↔
      (h i = some ⟨p, first l (first r n)⟩ ∧ Seg h (some i) l (first r n)) ∧ Seg h (last (some i) l) r n
    rw [ih, first_append, and_assoc]

/-- What is outside a segment does not matter to it. -/
theorem Seg.congr (heq : ∀ i ∈ l, h' i = h i) (hs : Seg h p l n) : Seg h' p l n := by
  induction l generalizing p with
  | nil => trivial
  | cons i l ih =>
    obtain ⟨hi, hs⟩ := hs
    exact ⟨(heq i List.mem_cons_self).trans hi, ih (fun j hj => heq j (List.mem_cons_of_mem i hj)) hs⟩

/-- What a node in the middle points to. -/
theorem Seg.node (hs : Seg h p (l ++ i :: r) n) : h i = some ⟨last p l, first r n⟩ :=
  (Seg.append_iff.mp hs).2.1

/-! ### Pointing elsewhere -/

variable [DecidableEq ι]

/-- A node, if there is one, is made to point to another one after it. -/
def linkNex (h : ι → Option (Links ι)) (j n : Option ι) : ι → Option (Links ι) :=
  match j with
  | none => h
  | some j => Function.update h j ((h j).map fun o => { o with nex := n })

/-- A node, if there is one, is made to point to another one before it. -/
def linkPre (h : ι → Option (Links ι)) (j p : Option ι) : ι → Option (Links ι) :=
  match j with
  | none => h
  | some j => Function.update h j ((h j).map fun o => { o with pre := p })

theorem linkNex_of_ne {j : Option ι} {x : ι} (hx : j ≠ some x) : linkNex h j n x = h x := by
  cases j with
  | none => rfl
  | some j => exact Function.update_of_ne (fun hxj => hx (congrArg some hxj.symm)) _ _

theorem linkPre_of_ne {j : Option ι} {x : ι} (hx : j ≠ some x) : linkPre h j p x = h x := by
  cases j with
  | none => rfl
  | some j => exact Function.update_of_ne (fun hxj => hx (congrArg some hxj.symm)) _ _

/-- The end of a segment points elsewhere. -/
theorem Seg.linkNex (hs : Seg h p l n) (hl : l.Nodup) (n' : Option ι) :
    Seg (linkNex h (last p l) n') p l n' := by
  rcases List.eq_nil_or_concat l with rfl | ⟨l, e, rfl⟩
  · trivial
  · rw [List.concat_eq_append] at hs hl ⊢
    obtain ⟨hs, he⟩ := Seg.append_iff.mp hs
    have hel : e ∉ l := fun hmem => (List.disjoint_of_nodup_append hl) hmem List.mem_cons_self
    rw [last_concat]
    refine Seg.append_iff.mpr ⟨hs.congr fun x hx => linkNex_of_ne ?_, ?_, trivial⟩
    · rintro hxe
      exact hel (Option.some.inj hxe ▸ hx)
    · show Function.update h e _ e = _
      rw [Function.update_self, he.1]
      rfl

/-- So does its beginning. -/
theorem Seg.linkPre (hs : Seg h p l n) (hl : l.Nodup) (p' : Option ι) :
    Seg (linkPre h (first l n) p') p' l n := by
  cases l with
  | nil => trivial
  | cons e l =>
    obtain ⟨he, hs⟩ := hs
    have hel : e ∉ l := (List.nodup_cons.mp hl).1
    refine ⟨?_, hs.congr fun x hx => linkPre_of_ne ?_⟩
    · show Function.update h e _ e = _
      rw [Function.update_self, he]
      rfl
    · rintro hxe
      exact hel (Option.some.inj hxe ▸ hx)

/-! ### Putting and taking -/

/-- **A node at the end.** -/
theorem Seg.push_back (hs : Seg h none l none) (hl : l.Nodup) (hi : i ∉ l) :
    Seg (Linked.linkNex (Function.update h i (some ⟨last none l, none⟩)) (last none l) (some i)) none (l ++ [i])
      none := by
  have hs1 : Seg (Function.update h i (some ⟨last none l, none⟩)) none l none :=
    hs.congr fun x hx => Function.update_of_ne (ne_of_mem_of_not_mem hx hi) _ _
  refine Seg.append_iff.mpr ⟨hs1.linkNex hl (some i), ?_, trivial⟩
  rw [linkNex_of_ne fun hlast => hi (last_mem hlast), Function.update_self]
  rfl

/-- **A node at the beginning.** -/
theorem Seg.push_front (hs : Seg h none l none) (hl : l.Nodup) (hi : i ∉ l) :
    Seg (Linked.linkPre (Function.update h i (some ⟨none, first l none⟩)) (first l none) (some i)) none (i :: l)
      none := by
  have hs1 : Seg (Function.update h i (some ⟨none, first l none⟩)) none l none :=
    hs.congr fun x hx => Function.update_of_ne (ne_of_mem_of_not_mem hx hi) _ _
  refine ⟨?_, hs1.linkPre hl (some i)⟩
  rw [linkPre_of_ne fun hfirst => hi (first_mem hfirst), Function.update_self]

/-- **A node taken from anywhere**: its neighbours point to one another. -/
theorem Seg.unlink (hs : Seg h none (l ++ i :: r) none) (hl : (l ++ i :: r).Nodup) :
    Seg (Linked.linkPre (Linked.linkNex h (last none l) (first r none)) (first r none) (last none l)) none (l ++ r)
      none := by
  obtain ⟨hsl, -, hsr⟩ := Seg.append_iff.mp hs
  obtain ⟨hnl, hnr, hdis⟩ := List.nodup_append'.mp hl
  have hdis' : ∀ x ∈ l, x ∉ r := fun x hx hxr => hdis hx (List.mem_cons_of_mem i hxr)
  have hsr1 : Seg (Linked.linkNex h (last none l) (first r none)) (some i) r none :=
    hsr.congr fun x hx => linkNex_of_ne fun hlast => hdis' x (last_mem hlast) hx
  refine Seg.append_iff.mpr ⟨(hsl.linkNex hnl (first r none)).congr fun x hx => linkPre_of_ne fun hfirst => ?_,
    hsr1.linkPre (List.nodup_cons.mp hnr).2 (last none l)⟩
  exact hdis' x hx (first_mem hfirst)

end Linked
