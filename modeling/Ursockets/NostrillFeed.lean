/-
# Feeds

What the desk's feed library does to a feed, and the same to the merged feed: a
post is put under its id; a deletion takes the post, its children (one level) or
everything below it (a worklist), and the parent's link.

Key definitions: `deleteWithChildren`, `OwnFeed.deleteNested`, `nodeToFull`,
`latestPage`, `addNewFeed`.
-/
import Ursockets.Nostrill
import Ursockets.Lib.Forest

namespace Ursockets
namespace Nostrill

/-! ### Deletion -/

/-- The ids of a post's children, listed. -/
def kids (p : Post) : List Id := p.children.sort (· ≥ ·)

@[simp]
theorem mem_kids {p : Post} {id : Id} : id ∈ kids p ↔ id ∈ p.children := Finset.mem_sort _

/-- `delete-nested-children`, from a list of ids: each that is found is deleted, and its children are
put at the end of the list. -/
def OwnFeed.deleteNested (f : OwnFeed) (children : List Id) : OwnFeed :=
  match children with
  | [] => f
  | id :: rest =>
    match _h : f.get id with
    | none => f.deleteNested rest
    | some child => (f.del id).deleteNested (rest ++ kids child)
termination_by (f.posts.keys.card, children.length)
decreasing_by
  · exact Prod.Lex.right _ (Nat.lt_succ_self _)
  · exact Prod.Lex.left _ _ (OwnFeed.card_del_lt _h)

/-- A post of the feed has the id among its children. -/
def OwnFeed.Lists (f : OwnFeed) (a b : Id) : Prop := ∃ p, f.get a = some p ∧ b ∈ p.children

/-- The id is reached from another over the children of the posts. -/
def OwnFeed.Reach (f : OwnFeed) : Id → Id → Prop := Relation.ReflTransGen f.Lists

theorem OwnFeed.lists_del (f : OwnFeed) (id : Id) : (f.del id).Lists = Forest.Without f.Lists id := by
  funext a b
  by_cases ha : a = id
  · subst ha
    simp [Lists, Forest.Without]
  · simp [Lists, Forest.Without, ha, get_del_ne ha]

theorem OwnFeed.reach_absent {f : OwnFeed} {id x : Id} (h : f.get id = none) (hx : f.Reach id x) : x = id := by
  refine Forest.eq_of_reach_leaf ?_ hx
  rintro b ⟨p, hp, -⟩
  rw [h] at hp
  cases hp

/-- What is reached after a post is deleted, from a list and from the post's children. -/
theorem OwnFeed.reach_del {f : OwnFeed} {id x : Id} {child : Post} (h : f.get id = some child) (hx : x ≠ id)
    (rest : List Id) :
    (∃ y ∈ rest ++ kids child, (f.del id).Reach y x) ↔ ∃ y ∈ id :: rest, f.Reach y x := by
  have hkids : ∀ c, c ∈ child.children ↔ f.Lists id c := by
    intro c
    simp [Lists, h]
  have hreach : (f.del id).Reach = Relation.ReflTransGen (Forest.Without f.Lists id) := by
    unfold Reach
    rw [lists_del]
  simp only [List.mem_append, mem_kids, hkids, List.mem_cons]
  constructor
  · rintro ⟨y, hy | hy, hr⟩
    · rw [hreach] at hr
      exact ⟨y, .inr hy, Forest.reach_of_without hr⟩
    · rw [hreach] at hr
      exact ⟨id, .inl rfl, (Forest.reach_of_without hr).head hy⟩
  · rintro ⟨y, hy, hr⟩
    rcases Forest.reach_without hr with hr | ⟨c, hc, hr⟩
    · rw [← hreach] at hr
      rcases hy with rfl | hy
      · exact absurd (reach_absent (get_del_self f y) hr) hx
      · exact ⟨y, .inl hy, hr⟩
    · exact ⟨c, .inr hc, hreach ▸ hr⟩

/-- The worklist deletes exactly what is reached from it. -/
theorem OwnFeed.get_deleteNested (f : OwnFeed) (l : List Id) (x : Id) :
    ((∃ y ∈ l, f.Reach y x) → (f.deleteNested l).get x = none) ∧
      ((¬ ∃ y ∈ l, f.Reach y x) → (f.deleteNested l).get x = f.get x) := by
  induction f, l using OwnFeed.deleteNested.induct with
  | case1 f =>
    rw [deleteNested]
    simp
  | case2 f id rest h ih =>
    rw [deleteNested]
    split
    · by_cases hr : f.Reach id x
      · have hx := reach_absent h hr
        subst hx
        refine ⟨fun _ => ?_, fun hn => absurd ⟨x, List.mem_cons_self, hr⟩ hn⟩
        by_cases hrest : ∃ y ∈ rest, f.Reach y x
        · exact ih.1 hrest
        · rw [ih.2 hrest, h]
      · simpa [hr] using ih
    · rename_i child hc
      rw [h] at hc
      cases hc
  | case3 f id rest child h ih =>
    rw [deleteNested]
    split
    · rename_i hn
      rw [h] at hn
      cases hn
    · rename_i c hc
      obtain rfl := Option.some.inj (h.symm.trans hc)
      by_cases hx : x = id
      · subst hx
        refine ⟨fun _ => ?_, fun hn => absurd ⟨x, List.mem_cons_self, .refl⟩ hn⟩
        by_cases hrest : ∃ y ∈ rest ++ kids child, (f.del x).Reach y x
        · exact ih.1 hrest
        · rw [ih.2 hrest, get_del_self]
      · rw [← reach_del h hx]
        refine ⟨ih.1, fun hn => ?_⟩
        rw [ih.2 hn, get_del_ne hx]

/-- `del` and `delete-nested-children`: a post with all that is reached over the children. -/
def OwnFeed.delTree (f : OwnFeed) (id : Id) (p : Post) : OwnFeed := (f.del id).deleteNested (kids p)

/-- A post deleted with all that is reached from it. -/
theorem OwnFeed.get_delTree {f : OwnFeed} {id : Id} {p : Post} (h : f.get id = some p) (x : Id) :
    (f.Reach id x → (f.delTree id p).get x = none) ∧ (¬ f.Reach id x → (f.delTree id p).get x = f.get x) := by
  unfold delTree
  by_cases hx : x = id
  · subst hx
    refine ⟨fun _ => ?_, fun hn => absurd .refl hn⟩
    by_cases hr : ∃ y ∈ kids p, (f.del x).Reach y x
    · exact (get_deleteNested _ _ x).1 hr
    · rw [(get_deleteNested _ _ x).2 hr, get_del_self]
  · have hiff := reach_del h hx []
    simp only [List.nil_append, List.mem_singleton, exists_eq_left] at hiff
    rw [← hiff]
    refine ⟨(get_deleteNested _ _ x).1, fun hn => ?_⟩
    rw [(get_deleteNested _ _ x).2 hn, get_del_ne hx]

/-- `update-parent-on-delete` -/
def updateParentOnDelete (f : Feed) (p : Post) : Feed :=
  match p.parent with
  | none => f
  | some pid =>
    match f.lookup pid with
    | none => f
    | some parent => put f { parent with children := parent.children.erase p.id }

/-- One round of `delete-children`. -/
def deleteChild (f : Feed) (id : Id) : Feed :=
  match f.lookup id with
  | none => f
  | some child => f.erase child.id

/-- `delete-children`: one level. -/
def deleteChildren (f : Feed) (p : Post) : Feed := (kids p).foldl deleteChild f

/-- `delete-with-children` -/
def deleteWithChildren (f : Feed) (p : Post) : Feed :=
  deleteChildren (updateParentOnDelete (f.erase p.id) p) p

theorem Keyed.updateParentOnDelete {f : Feed} (h : Keyed f) (p : Post) : Keyed (updateParentOnDelete f p) := by
  unfold Nostrill.updateParentOnDelete
  split
  · exact h
  · split
    · exact h
    · exact h.put _

theorem Keyed.deleteChild {f : Feed} (h : Keyed f) (id : Id) : Keyed (deleteChild f id) := by
  unfold Nostrill.deleteChild
  split
  · exact h
  · exact h.erase _

theorem Keyed.deleteChildren {f : Feed} (h : Keyed f) (p : Post) : Keyed (deleteChildren f p) := by
  unfold Nostrill.deleteChildren
  induction kids p generalizing f with
  | nil => exact h
  | cons id ids ih => exact ih (h.deleteChild id)

theorem Keyed.deleteWithChildren {f : Feed} (h : Keyed f) (p : Post) : Keyed (deleteWithChildren f p) :=
  ((h.erase p.id).updateParentOnDelete p).deleteChildren p

def OwnFeed.deleteWithChildren (f : OwnFeed) (p : Post) : OwnFeed :=
  ⟨Nostrill.deleteWithChildren f.posts p, f.keyed.deleteWithChildren p⟩

/-! ### The merged feed -/

/-- `insert-to-global` -/
def insertToGlobal (gf : Map Upid Post) (p : Post) : Map Upid Post := gf.insert ⟨atomToUser p.host, p.id⟩ p

/-- `add-new-feed` -/
def addNewFeed (global : Map Upid Post) (new : Feed) : Map Upid Post :=
  (tap new).foldl (fun gf e => insertToGlobal gf e.2) global

/-- `update-parent-on-delete-g` -/
def updateParentOnDeleteG (gf : Map Upid Post) (p : Post) : Map Upid Post :=
  match p.parent with
  | none => gf
  | some pid =>
    match gf.lookup ⟨atomToUser p.host, pid⟩ with
    | none => gf
    | some parent =>
      gf.insert ⟨atomToUser p.host, parent.id⟩ { parent with children := parent.children.erase p.id }

/-- One round of `delete-children-g`. -/
def deleteChildG (host : User) (gf : Map Upid Post) (id : Id) : Map Upid Post :=
  match gf.lookup ⟨host, id⟩ with
  | none => gf
  | some _ => gf.erase ⟨host, id⟩

/-- `delete-children-g` -/
def deleteChildrenG (gf : Map Upid Post) (p : Post) : Map Upid Post :=
  (kids p).foldl (deleteChildG (atomToUser p.host)) gf

/-- `delete-with-children-g`, which is `delete-from-global`. -/
def deleteFromGlobal (gf : Map Upid Post) (p : Post) : Map Upid Post :=
  deleteChildrenG (updateParentOnDeleteG (gf.erase ⟨atomToUser p.host, p.id⟩) p) p

/-! ### Pages and threads -/

/-- `gas` of an empty map. -/
def gas {κ α : Type} [DecidableEq κ] (l : List (κ × α)) : Map κ α := l.foldl (fun m e => m.insert e.1 e.2) ∅

/-- `latest-page`, of `count` posts. -/
def latestPage (count : ℕ) (f : Feed) : Fc :=
  match (tap f).take count with
  | [] => ⟨f, none, none⟩
  | e :: es => ⟨gas (e :: es), some e.1, (e :: es).getLast?.map Prod.fst⟩

/-- `node-to-full` and `convert-children`: the children that are in the feed, newest first. With too
little fuel there is no answer; a post below itself has none with any. -/
def nodeToFull (f : Feed) : ℕ → Post → Option FullNode
  | 0, _ => none
  | fuel + 1, p =>
    (((kids p).filterMap f.lookup).mapM (nodeToFull f fuel)).map fun l => ⟨p, l⟩

end Nostrill
end Ursockets
