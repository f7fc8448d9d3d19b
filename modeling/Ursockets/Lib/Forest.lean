/-
# Forests kept by links

Nodes hold links to other nodes. What is reached over the links from some nodes
can be taken away one node at a time: a path either avoids the node, or goes on
from a node that it links to (`reach_without`).

A table may keep each link twice: a node names its parent, and lists its children.
The table is a forest (`Links.Wf`) when the two agree for the nodes that are there
and no node is below itself. Taking nodes away keeps that (`Links.Wf.prune`); for a
node that comes new the condition is local (`Links.wf_update_iff`), also when its
parent is made to list it at the same time (`Links.wf_graft_iff`).

Key definitions: `Without`, `Links.Wf`, `Links.Prunes`, `Links.Joins`, `Links.Grafts`, `Links.Clears`.
Key theorems: `reach_without`, `reach_of_without`, `Links.Wf.prune`, `Links.wf_update_iff`, `Links.wf_graft_iff`,
`Links.clears_iff`, `Links.Wf.apart`.
-/
import Mathlib.Logic.Relation
import Mathlib.Data.Set.Insert
import Mathlib.Tactic.Common

namespace Forest

open Relation

variable {ι : Type*}

/-- The links, but those of a node. -/
def Without (r : ι → ι → Prop) (i a b : ι) : Prop := a ≠ i ∧ r a b

variable {r : ι → ι → Prop} {i x y : ι}

/-- A path, from its last visit to a node on. -/
theorem reach_without (h : ReflTransGen r y x) :
    ReflTransGen (Without r i) y x ∨ ∃ c, r i c ∧ ReflTransGen (Without r i) c x := by
  induction h with
  | refl => exact .inl .refl
  | @tail a b _ hab ih =>
    by_cases ha : a = i
    · exact .inr ⟨b, ha ▸ hab, .refl⟩
    · rcases ih with h | ⟨c, hc, h⟩
      · exact .inl (h.tail ⟨ha, hab⟩)
      · exact .inr ⟨c, hc, h.tail ⟨ha, hab⟩⟩

theorem reach_of_without (h : ReflTransGen (Without r i) y x) : ReflTransGen r y x :=
  h.lift id fun _ _ hab => hab.2

/-- From a node without links nothing else is reached. -/
theorem eq_of_reach_leaf (hi : ∀ b, ¬ r i b) (h : ReflTransGen r i x) : x = i := by
  rcases ReflTransGen.cases_head h with h | ⟨b, hb, -⟩
  · exact h.symm
  · exact absurd hb (hi b)

/-! ### Tables of nodes -/

/-- A node: the parent that it names, and the children that it lists. -/
structure Node (ι : Type*) where
  parent : Option ι
  children : Set ι

/-- Nodes by their names. -/
abbrev Links (ι : Type*) := ι → Option (Node ι)

namespace Links

variable {L L' : Links ι} {a b c : ι} {m n : Node ι}

/-- `a` is the parent that `b` names. -/
def Up (L : Links ι) (a b : ι) : Prop := ∃ n, L b = some n ∧ n.parent = some a

/-- `b` is a descendant of `a`. -/
def Under (L : Links ι) : ι → ι → Prop := TransGen L.Up

/-- **The table is a forest**: a node lists another as its child just when that one names it as its parent, and
none is below itself. -/
structure Wf (L : Links ι) : Prop where
  agree : ∀ {a b m n}, L a = some m → L b = some n → (b ∈ m.children ↔ n.parent = some a)
  acyclic : ∀ a, ¬ L.Under a a

theorem Up.unique (h : L.Up a c) (h' : L.Up b c) : a = b := by
  obtain ⟨n, hn, ha⟩ := h
  obtain ⟨m, hm, hb⟩ := h'
  obtain rfl := Option.some.inj (hn.symm.trans hm)
  exact Option.some.inj (ha.symm.trans hb)

theorem Under.mono (hup : ∀ x y, L.Up x y → L'.Up x y) (h : L.Under a b) : L'.Under a b :=
  TransGen.mono hup a b h

theorem Up.isSome (h : L.Up a b) : (L b).isSome := by
  obtain ⟨n, hn, -⟩ := h
  rw [hn]
  rfl

theorem Under.isSome (h : L.Under a b) : (L b).isSome := by
  obtain ⟨c, -, hc⟩ := TransGen.tail'_iff.mp h
  exact hc.isSome

/-- The trees below two children of one node have nothing in common. -/
theorem Wf.apart {x : ι} (h : L.Wf) (hb : L.Up a b) (hc : L.Up a c) (hne : b ≠ c) (hbx : ReflTransGen L.Up b x)
    (hcx : ReflTransGen L.Up c x) : False := by
  -- of two nodes above a third, one is above the other
  have hone {y z : ι} (hy : L.Up a y) (hz : L.Up a z) (hyz : y ≠ z) (h' : ReflTransGen L.Up y z) : False := by
    rcases ReflTransGen.cases_tail h' with he | ⟨w, hyw, hw⟩
    · exact hyz he.symm
    · obtain rfl := hw.unique hz
      exact h.acyclic w (TransGen.head' hy hyw)
  have hunique : Relator.RightUnique (Function.swap L.Up) := fun _ _ _ h1 h2 => h1.unique h2
  have htotal := ReflTransGen.total_of_right_unique hunique (reflTransGen_swap.mpr hbx) (reflTransGen_swap.mpr hcx)
  rcases htotal with h' | h'
  · exact hone hc hb hne.symm (reflTransGen_swap.mp h')
  · exact hone hb hc hne (reflTransGen_swap.mp h')

/-! ### Taking nodes away -/

/-- Nodes go, and those that stay keep their parents, and their children among those that stay. -/
def Prunes (L L' : Links ι) : Prop :=
  ∀ x n', L' x = some n' → ∃ n, L x = some n ∧ n'.parent = n.parent ∧
    ∀ b, (L' b).isSome → (b ∈ n'.children ↔ b ∈ n.children)

theorem Prunes.up (hp : L.Prunes L') (h : L'.Up a b) : L.Up a b := by
  obtain ⟨n', hn', ha⟩ := h
  obtain ⟨n, hn, hpar, -⟩ := hp b n' hn'
  exact ⟨n, hn, hpar ▸ ha⟩

theorem Wf.prune (h : L.Wf) (hp : L.Prunes L') : L'.Wf where
  agree {a b m' n'} hm' hn' := by
    obtain ⟨m, hm, -, hchildren⟩ := hp a m' hm'
    obtain ⟨n, hn, hpar, -⟩ := hp b n' hn'
    rw [hchildren b (by rw [hn']; rfl), hpar]
    exact h.agree hm hn
  acyclic a ha := h.acyclic a (ha.mono fun _ _ => hp.up)

/-- Each node that goes takes all that is below it along. -/
def Clears (L L' : Links ι) : Prop := ∀ a b, (L a).isSome → L' a = none → L.Under a b → L' b = none

section

variable [DecidableEq ι] {i : ι}

/-- A node fits in with the others but that its parent may not list it: the nodes that list it are its parent, those
that it lists are those that name it, and it is not below itself. -/
structure Grafts (L : Links ι) (i : ι) (n : Node ι) : Prop where
  parent : ∀ a m, L a = some m → i ∈ m.children → n.parent = some a
  children : ∀ b m, L b = some m → (b ∈ n.children ↔ m.parent = some i)
  self : i ∉ n.children
  acyclic : ∀ a, n.parent = some a → a ≠ i ∧ ¬ L.Under i a

/-- A node fits in with the others, and its parent lists it. -/
structure Joins (L : Links ι) (i : ι) (n : Node ι) : Prop extends Grafts L i n where
  listed : ∀ a m, L a = some m → n.parent = some a → i ∈ m.children

theorem up_update (hi : L i = none) :
    Up (Function.update L i (some n)) a b ↔ (b = i ∧ n.parent = some a) ∨ L.Up a b := by
  by_cases hb : b = i
  · subst hb
    simp [Up, hi]
  · simp [Up, hb]

/-- A path to a node that comes new, or through it. -/
theorem under_update (hi : L i = none) (hn : n.parent = some c) (h : Under (Function.update L i (some n)) a b) :
    L.Under a b ∨ (ReflTransGen L.Up a c ∧ ReflTransGen L.Up i b) ∨ ReflTransGen L.Up i c := by
  induction h with
  | single hb =>
    rcases (up_update hi).mp hb with ⟨rfl, ha⟩ | hb
    · obtain rfl := Option.some.inj (hn.symm.trans ha)
      exact .inr (.inl ⟨.refl, .refl⟩)
    · exact .inl (.single hb)
  | @tail b d _ hd ih =>
    rcases (up_update hi).mp hd with ⟨rfl, hb⟩ | hd
    · obtain rfl := Option.some.inj (hn.symm.trans hb)
      rcases ih with h | ⟨-, h⟩ | h
      · exact .inr (.inl ⟨h.to_reflTransGen, .refl⟩)
      · exact .inr (.inr h)
      · exact .inr (.inr h)
    · rcases ih with h | ⟨h, h'⟩ | h
      · exact .inl (h.tail hd)
      · exact .inr (.inl ⟨h, h'.tail hd⟩)
      · exact .inr (.inr h)

theorem Joins.wf_update (hi : L i = none) (h : L.Wf) (hj : L.Joins i n) : Wf (Function.update L i (some n)) where
  agree {a b m k} hm hk := by
    by_cases ha : a = i
    · subst ha
      rw [Function.update_self] at hm
      obtain rfl := Option.some.inj hm
      by_cases hb : b = a
      · subst hb
        rw [Function.update_self] at hk
        obtain rfl := Option.some.inj hk
        exact iff_of_false hj.self fun hp => (hj.acyclic b hp).1 rfl
      · rw [Function.update_of_ne hb] at hk
        exact hj.children b k hk
    · rw [Function.update_of_ne ha] at hm
      by_cases hb : b = i
      · subst hb
        rw [Function.update_self] at hk
        obtain rfl := Option.some.inj hk
        exact ⟨hj.parent a m hm, hj.listed a m hm⟩
      · rw [Function.update_of_ne hb] at hk
        exact h.agree hm hk
  acyclic a ha := by
    cases hn : n.parent with
    | none =>
      refine h.acyclic a (Under.mono (fun x y hxy => ?_) ha)
      rcases (up_update hi).mp hxy with ⟨-, hx⟩ | hxy
      · exact nomatch hn.symm.trans hx
      · exact hxy
    | some c =>
      have hic : ¬ ReflTransGen L.Up i c := by
        intro hic
        rcases reflTransGen_iff_eq_or_transGen.mp hic with he | hu
        · exact (hj.acyclic c hn).1 he
        · exact (hj.acyclic c hn).2 hu
      rcases under_update hi hn ha with h' | ⟨h1, h2⟩ | h'
      · exact h.acyclic a h'
      · exact hic (h2.trans h1)
      · exact hic h'

/-- **A new node leaves a forest just when it fits in.** -/
theorem wf_update_iff (hi : L i = none) (h : L.Wf) : Wf (Function.update L i (some n)) ↔ L.Joins i n := by
  refine ⟨fun h' => ?_, Joins.wf_update hi h⟩
  have hne {a : ι} {m : Node ι} (ha : L a = some m) : a ≠ i := by
    rintro rfl
    exact nomatch hi.symm.trans ha
  have hself : Function.update L i (some n) i = some n := Function.update_self i (some n) L
  have hother {a : ι} {m : Node ι} (ha : L a = some m) : Function.update L i (some n) a = some m := by
    rw [Function.update_of_ne (hne ha), ha]
  have hparent : n.parent ≠ some i := fun hp => h'.acyclic i (.single ⟨n, hself, hp⟩)
  refine ⟨⟨fun a m ha => (h'.agree (hother ha) hself).mp, fun b m hb => h'.agree hself (hother hb), fun hs => ?_,
    fun a ha => ⟨fun he => hparent (he ▸ ha), fun hu => ?_⟩⟩, fun a m ha => (h'.agree (hother ha) hself).mpr⟩
  · exact hparent ((h'.agree hself hself).mp hs)
  · exact h'.acyclic i ((Under.mono (fun _ _ hxy => (up_update hi).mpr (.inr hxy)) hu).tail ⟨n, hself, ha⟩)

/-- **A new node whose parent is made to list it leaves a forest just when it fits in otherwise.** -/
theorem wf_graft_iff (hi : L i = none) (h : L.Wf) (ha : L a = some m) (hn : n.parent = some a) :
    Wf (Function.update (Function.update L a (some ⟨m.parent, insert i m.children⟩)) i (some n)) ↔ L.Grafts i n := by
  have hai : a ≠ i := by
    rintro rfl
    exact nomatch hi.symm.trans ha
  have hget (x : ι) (k : Node ι) : Function.update L a (some ⟨m.parent, insert i m.children⟩) x = some k ↔
      (x = a ∧ k = ⟨m.parent, insert i m.children⟩) ∨ (x ≠ a ∧ L x = some k) := by
    by_cases hx : x = a
    · subst hx
      simp [eq_comm]
    · simp [hx]
  have hi1 : Function.update L a (some ⟨m.parent, insert i m.children⟩) i = none := by
    rw [Function.update_of_ne hai.symm, hi]
  have hup : Up (Function.update L a (some ⟨m.parent, insert i m.children⟩)) = L.Up := by
    funext x y
    refine propext ⟨?_, ?_⟩
    · rintro ⟨k, hk, hx⟩
      rcases (hget y k).mp hk with ⟨rfl, rfl⟩ | ⟨-, hy⟩
      · exact ⟨m, ha, hx⟩
      · exact ⟨k, hy, hx⟩
    · rintro ⟨k, hk, hx⟩
      by_cases hy : y = a
      · subst hy
        obtain rfl := Option.some.inj (ha.symm.trans hk)
        exact ⟨_, (hget y _).mpr (.inl ⟨rfl, rfl⟩), hx⟩
      · exact ⟨k, (hget y k).mpr (.inr ⟨hy, hk⟩), hx⟩
  -- the node is not there yet, so that its parent may list it
  have h1 : Wf (Function.update L a (some ⟨m.parent, insert i m.children⟩)) := by
    refine h.prune fun x k hk => ?_
    rcases (hget x k).mp hk with ⟨rfl, rfl⟩ | ⟨-, hx⟩
    · refine ⟨m, ha, rfl, fun b hb => ?_⟩
      have hbi : b ≠ i := by
        rintro rfl
        rw [hi1] at hb
        cases hb
      exact ⟨fun hmem => hmem.resolve_left hbi, fun hmem => .inr hmem⟩
    · exact ⟨k, hx, rfl, fun _ _ => Iff.rfl⟩
  rw [wf_update_iff hi1 h1]
  constructor
  · intro hj
    refine ⟨fun x k hx hmem => ?_, fun b k hb => ?_, hj.self, fun x hx => ?_⟩
    · by_cases hxa : x = a
      · exact hxa ▸ hn
      · exact hj.parent x k ((hget x k).mpr (.inr ⟨hxa, hx⟩)) hmem
    · by_cases hba : b = a
      · subst hba
        obtain rfl := Option.some.inj (ha.symm.trans hb)
        exact hj.children b ⟨m.parent, insert i m.children⟩ ((hget b _).mpr (.inl ⟨rfl, rfl⟩))
      · exact hj.children b k ((hget b k).mpr (.inr ⟨hba, hb⟩))
    · have hac := hj.acyclic x hx
      rw [Under, hup] at hac
      exact hac
  · intro hg
    refine ⟨⟨fun x k hx hmem => ?_, fun b k hb => ?_, hg.self, fun x hx => ?_⟩, fun x k hx hp => ?_⟩
    · rcases (hget x k).mp hx with ⟨rfl, -⟩ | ⟨-, hx⟩
      · exact hn
      · exact hg.parent x k hx hmem
    · rcases (hget b k).mp hb with ⟨rfl, rfl⟩ | ⟨-, hb⟩
      · exact hg.children b m ha
      · exact hg.children b k hb
    · rw [Under, hup]
      exact hg.acyclic x hx
    · obtain rfl := Option.some.inj (hn.symm.trans hp)
      rcases (hget a k).mp hx with ⟨-, rfl⟩ | ⟨hne, -⟩
      · exact Set.mem_insert i m.children
      · exact absurd rfl hne

end

end Links

end Forest
