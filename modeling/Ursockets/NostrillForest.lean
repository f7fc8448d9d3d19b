/-
# Feeds as forests

A post names its parent and lists its children. A feed is a forest when the two agree
for the posts that are there and no post is below itself; then the thread of a post
can be built, and has each post below it once. What a feed is written with keeps it a
forest just when the post that is put fits in with the rest of it; what is deleted
takes all that is below it along just when the deletion reaches far enough.

Key definitions: `links`, `IsForest`, `Threaded`, `Fits`, `FitsUnder`, `Sweeps`.
Key theorems: `IsForest.put_iff`, `IsForest.reply_iff`, `IsForest.delete`, `IsForest.sweeps_iff`,
`IsForest.delTree`, `IsForest.threaded`.
-/
import Ursockets.NostrillFact

namespace Ursockets
namespace Nostrill

open Relation (ReflTransGen TransGen)

/-- The place of a post: its parent and its children. -/
def Post.node (p : Post) : Forest.Node Id := ⟨p.parent, {c | c ∈ p.children}⟩

def links (f : Feed) : Forest.Links Id := fun id => (f.lookup id).map Post.node

/-- **A feed is a forest**: each post is under its own id, a post that is there is listed by its parent, if that is
there, and names as its parent the post that lists it, and no post is below itself. -/
structure IsForest (f : Feed) : Prop where
  keyed : Keyed f
  wf : (links f).Wf

section

variable {f : Feed} {p q : Post} {a b id : Id}

theorem links_some (h : f.lookup id = some p) : links f id = some p.node := by
  unfold links
  rw [h]
  rfl

theorem links_none : links f id = none ↔ f.lookup id = none := Option.map_eq_none_iff

theorem links_isSome : (links f id).isSome ↔ (f.lookup id).isSome := by
  unfold links
  rw [Option.isSome_map]

theorem links_eq_some {n : Forest.Node Id} (h : links f id = some n) : ∃ p, f.lookup id = some p ∧ p.node = n :=
  Option.map_eq_some_iff.mp h

theorem up_iff : (links f).Up a b ↔ ∃ q, f.lookup b = some q ∧ q.parent = some a := by
  constructor
  · rintro ⟨n, hn, ha⟩
    obtain ⟨q, hq, rfl⟩ := links_eq_some hn
    exact ⟨q, hq, ha⟩
  · rintro ⟨q, hq, ha⟩
    exact ⟨q.node, links_some hq, ha⟩

theorem links_erase (f : Feed) (id x : Id) : links (f.erase id) x = if x = id then none else links f x := by
  unfold links
  by_cases hx : x = id
  · rw [if_pos hx, hx, Finmap.lookup_erase]
    rfl
  · rw [if_neg hx, Finmap.lookup_erase_ne hx]

theorem links_put (f : Feed) (p : Post) :
    links (put f p) = Function.update (links (f.erase p.id)) p.id (some p.node) := by
  funext x
  by_cases hx : x = p.id
  · subst hx
    rw [Function.update_self]
    exact links_some (lookup_put f p)
  · rw [Function.update_of_ne hx, links_erase, if_neg hx]
    unfold links
    rw [lookup_put_ne hx]

/-- Posts that go leave a forest. -/
theorem IsForest.erase (h : IsForest f) (id : Id) : IsForest (f.erase id) := by
  refine ⟨h.keyed.erase id, h.wf.prune fun x n hn => ?_⟩
  rw [links_erase] at hn
  split at hn
  · cases hn
  · exact ⟨n, hn, rfl, fun _ _ => Iff.rfl⟩

/-- Where both ends are there, a post names its parent just when that lists it. -/
theorem IsForest.up_iff_mem (h : IsForest f) (ha : f.lookup a = some p) (hb : (f.lookup b).isSome) :
    (links f).Up a b ↔ b ∈ p.children := by
  obtain ⟨q, hq⟩ := Option.isSome_iff_exists.mp hb
  have hagree : b ∈ p.children ↔ q.parent = some a := h.wf.agree (links_some ha) (links_some hq)
  rw [hagree, up_iff]
  constructor
  · rintro ⟨q', hq', ha'⟩
    obtain rfl := Option.some.inj (hq.symm.trans hq')
    exact ha'
  · exact fun ha' => ⟨q, hq, ha'⟩

/-! ### A post is put -/

/-- A post fits in with the rest of a feed: the posts that list it are its parent, and its parent lists it; those that
it lists are those that name it as their parent; and it is not below itself. -/
def Fits (f : Feed) (p : Post) : Prop := (links (f.erase p.id)).Joins p.id p.node

/-- The same, but that its parent may not list it. -/
def FitsUnder (f : Feed) (p : Post) : Prop := (links (f.erase p.id)).Grafts p.id p.node

theorem links_erase_self (f : Feed) (id : Id) : links (f.erase id) id = none := by
  rw [links_erase, if_pos rfl]

theorem IsForest.put_iff (h : IsForest f) (p : Post) : IsForest (put f p) ↔ Fits f p := by
  have hiff := Forest.Links.wf_update_iff (n := p.node) (links_erase_self f p.id) (h.erase p.id).wf
  rw [← links_put] at hiff
  exact ⟨fun h' => hiff.mp h'.wf, fun hf => ⟨h.keyed.put p, hiff.mpr hf⟩⟩

theorem IsForest.reply_iff {pp : Post} {pid : Id} (h : IsForest f) (hpp : f.lookup pid = some pp)
    (hpid : p.parent = some pid) : IsForest (put (put f (pp.addChild p.id)) p) ↔ FitsUnder f p := by
  have hid : pp.id = pid := h.keyed pid pp hpp
  by_cases hne : pid = p.id
  · -- a reply to itself
    refine iff_of_false (fun h' => ?_) fun hf => (hf.acyclic pid hpid).1 hne
    have hup : (links (put (put f (pp.addChild p.id)) p)).Up pid p.id := up_iff.mpr ⟨p, lookup_put _ p, hpid⟩
    rw [hne] at hup
    exact h'.wf.acyclic p.id (.single hup)
  · have hlinks : links (put (put f (pp.addChild p.id)) p) = Function.update (Function.update (links (f.erase p.id)) pid
        (some ⟨pp.node.parent, insert p.id pp.node.children⟩)) p.id (some p.node) := by
      funext x
      by_cases hx : x = p.id
      · subst hx
        rw [Function.update_self]
        exact links_some (lookup_put _ p)
      · rw [Function.update_of_ne hx]
        by_cases hxp : x = pid
        · subst hxp
          have hget : (put (put f (pp.addChild p.id)) p).lookup x = some (pp.addChild p.id) := by
            rw [lookup_put_ne hx]
            exact hid ▸ lookup_put f (pp.addChild p.id)
          rw [Function.update_self, links_some hget]
          simp [Post.node, Post.addChild, Set.insert_def]
        · have hget : (put (put f (pp.addChild p.id)) p).lookup x = f.lookup x := by
            rw [lookup_put_ne hx]
            exact lookup_put_ne fun hx' : x = pp.id => hxp (hx'.trans hid)
          rw [Function.update_of_ne hxp, links_erase, if_neg hx]
          unfold links
          rw [hget]
    have hpl : links (f.erase p.id) pid = some pp.node := by
      rw [links_erase, if_neg hne]
      exact links_some hpp
    have hiff := Forest.Links.wf_graft_iff (n := p.node) (links_erase_self f p.id) (h.erase p.id).wf hpl hpid
    rw [← hlinks] at hiff
    exact ⟨fun h' => hiff.mp h'.wf, fun hf => ⟨(h.keyed.put _).put p, hiff.mpr hf⟩⟩

theorem lookup_deleteChildren (h : Keyed f) (p : Post) (x : Id) :
    (deleteChildren f p).lookup x = if x ∈ p.children then none else f.lookup x := by
  have hlist : ∀ (l : List Id) {g : Feed}, Keyed g →
      (l.foldl deleteChild g).lookup x = if x ∈ l then none else g.lookup x := by
    intro l
    induction l with
    | nil => exact fun _ => rfl
    | cons c l ih =>
      intro g hg
      have hone : (deleteChild g c).lookup x = if x = c then none else g.lookup x := by
        unfold deleteChild
        cases hc : g.lookup c with
        | none =>
          dsimp only
          split
          · next hx => rw [hx, hc]
          · rfl
        | some child =>
          dsimp only
          rw [hg c child hc]
          split
          · next hx => rw [hx, Finmap.lookup_erase]
          · next hx => exact Finmap.lookup_erase_ne hx
      rw [List.foldl_cons, ih (hg.deleteChild c), hone]
      by_cases hl : x ∈ l
      · rw [if_pos hl, if_pos (List.mem_cons_of_mem c hl)]
      · rw [if_neg hl]
        simp [hl]
  unfold deleteChildren
  rw [hlist (kids p) h]
  simp only [mem_kids]

/-- What a deletion leaves: the post and its children are gone, and its parent does not list it. -/
theorem lookup_deleteWithChildren (h : Keyed f) (p : Post) (x : Id) : (deleteWithChildren f p).lookup x =
    if x = p.id ∨ x ∈ p.children then none
    else if p.parent = some x then (f.lookup x).map fun q => q.dropChild p.id else f.lookup x := by
  have hparent : (updateParentOnDelete (f.erase p.id) p).lookup x =
      if x = p.id then none
      else if p.parent = some x then (f.lookup x).map fun q => q.dropChild p.id else f.lookup x := by
    unfold updateParentOnDelete
    have herase : (f.erase p.id).lookup x = if x = p.id then none else f.lookup x := by
      split
      · next hx => rw [hx, Finmap.lookup_erase]
      · next hx => exact Finmap.lookup_erase_ne hx
    cases hpid : p.parent with
    | none => simp [herase]
    | some pid =>
      dsimp only
      cases hpp : (f.erase p.id).lookup pid with
      | none =>
        rw [herase]
        split
        · rfl
        · next hx =>
          split
          · next hxp =>
            obtain rfl := Option.some.inj hxp
            rw [Finmap.lookup_erase_ne hx] at hpp
            rw [hpp]
            rfl
          · rfl
      | some pp =>
        have hid : pp.id = pid := (h.erase p.id) pid pp hpp
        have hpid' : pid ≠ p.id := by
          rintro rfl
          rw [Finmap.lookup_erase] at hpp
          cases hpp
        dsimp only
        rw [lookup_put_if]
        by_cases hx : x = pid
        · subst hx
          rw [Finmap.lookup_erase_ne hpid'] at hpp
          rw [if_pos hid.symm, if_neg hpid', if_pos rfl, hpp]
          rfl
        · rw [if_neg fun hx' : x = pp.id => hx (hx'.trans hid), herase,
            if_neg fun hx' : some pid = some x => hx (Option.some.inj hx').symm]
  unfold deleteWithChildren
  rw [lookup_deleteChildren ((h.erase p.id).updateParentOnDelete p) p x, hparent]
  by_cases hx : x = p.id
  · simp [hx]
  · by_cases hc : x ∈ p.children
    · simp [hc]
    · simp [hx, hc]

theorem IsForest.delete (h : IsForest f) (p : Post) : IsForest (deleteWithChildren f p) := by
  refine ⟨h.keyed.deleteWithChildren p, h.wf.prune fun x n hn => ?_⟩
  obtain ⟨q, hq, rfl⟩ := links_eq_some hn
  rw [lookup_deleteWithChildren h.keyed] at hq
  split at hq
  · cases hq
  · split at hq
    · -- the parent: only the post that is gone is not listed any more
      obtain ⟨q0, hq0, rfl⟩ := Option.map_eq_some_iff.mp hq
      refine ⟨q0.node, links_some hq0, rfl, fun b hb => ?_⟩
      have hbp : b ≠ p.id := by
        rintro rfl
        rw [links_isSome, lookup_deleteWithChildren h.keyed, if_pos (.inl rfl)] at hb
        cases hb
      simp [Post.node, Post.dropChild, hbp]
    · exact ⟨q.node, links_some hq, rfl, fun _ _ => Iff.rfl⟩

section

variable {o : OwnFeed}

theorem OwnFeed.links_delTree (hp : o.get id = some p) (x : Id) :
    (o.Reach id x → links (o.delTree id p).posts x = none) ∧
      (¬ o.Reach id x → links (o.delTree id p).posts x = links o.posts x) := by
  have hget := OwnFeed.get_delTree hp x
  exact ⟨fun hr => links_none.mpr (hget.1 hr), fun hr => congrArg (Option.map Post.node) (hget.2 hr)⟩

theorem IsForest.delTree (h : IsForest o.posts) (hp : o.get id = some p) : IsForest (o.delTree id p).posts := by
  refine ⟨(o.delTree id p).keyed, h.wf.prune fun x n hn => ?_⟩
  by_cases hr : o.Reach id x
  · rw [(OwnFeed.links_delTree hp x).1 hr] at hn
    cases hn
  · rw [(OwnFeed.links_delTree hp x).2 hr] at hn
    exact ⟨n, hn, rfl, fun _ _ => Iff.rfl⟩

end

/-! ### Threads -/

mutual

/-- The ids of the posts of a thread. -/
def FullNode.ids : FullNode → List Id
  | .mk p children => p.id :: FullNode.idsOf children

def FullNode.idsOf : List FullNode → List Id
  | [] => []
  | n :: ns => n.ids ++ FullNode.idsOf ns

end

/-- **The threads of a feed are whole**: that of each of its posts can be built, and has the post and all that is below
it, each once. -/
def Threaded (f : Feed) : Prop :=
  ∀ id p, f.lookup id = some p → ∃ n, nodeToFull f (f.keys.card + 1) p = some n ∧ n.ids.Nodup ∧
    ∀ x, x ∈ n.ids ↔ x = id ∨ (links f).Under id x

/-- A thread is the tree at its post. -/
def IsTree (f : Feed) (id : Id) (n : FullNode) : Prop := n.ids.Nodup ∧ ∀ x, x ∈ n.ids ↔ ReflTransGen (links f).Up id x

/-- The ids below an id. -/
noncomputable def below (f : Feed) (id : Id) : Finset Id := by
  classical exact f.keys.filter fun x => (links f).Under id x

theorem mem_below {x : Id} : x ∈ below f id ↔ (links f).Under id x := by
  classical
  unfold below
  rw [Finset.mem_filter, and_iff_right_iff_imp]
  intro h
  exact Finmap.mem_keys.mpr (Finmap.lookup_isSome.mp (links_isSome.mp h.isSome))

theorem card_below_le (f : Feed) (id : Id) : (below f id).card ≤ f.keys.card := by
  classical
  unfold below
  exact Finset.card_filter_le _ _

/-- There is less below a post than below its parent. -/
theorem IsForest.card_below_lt (h : IsForest f) (hab : (links f).Up a b) : (below f b).card < (below f a).card := by
  refine Finset.card_lt_card ⟨fun x hx => mem_below.mpr ((mem_below.mp hx).head hab), fun hsub => ?_⟩
  exact h.wf.acyclic b (mem_below.mp (hsub (mem_below.mpr (.single hab))))

/-- The children of a post that are there. -/
def childPosts (f : Feed) (p : Post) : List Post := (kids p).filterMap f.lookup

theorem IsForest.mem_childPosts (h : IsForest f) (hp : f.lookup p.id = some p) :
    q ∈ childPosts f p ↔ f.lookup q.id = some q ∧ (links f).Up p.id q.id := by
  unfold childPosts
  rw [List.mem_filterMap]
  constructor
  · rintro ⟨c, hc, hq⟩
    obtain rfl := h.keyed c q hq
    exact ⟨hq, (h.up_iff_mem hp (by rw [hq]; rfl)).mpr (mem_kids.mp hc)⟩
  · rintro ⟨hq, hup⟩
    exact ⟨q.id, mem_kids.mpr ((h.up_iff_mem hp (by rw [hq]; rfl)).mp hup), hq⟩

theorem IsForest.childPosts_pairwise (h : IsForest f) : (childPosts f p).Pairwise fun q r => q.id ≠ r.id := by
  unfold childPosts
  rw [List.pairwise_filterMap]
  refine (Finset.sort_nodup p.children _).imp fun {c d} hne q hq r hr => ?_
  rw [h.keyed c q hq, h.keyed d r hr]
  exact hne

/-- The trees at posts that have nothing in common below them. -/
theorem trees_of_list {g : Post → Option FullNode} : ∀ {l : List Post}, (∀ q ∈ l, ∃ n, g q = some n ∧ IsTree f q.id n) →
    (l.Pairwise fun q r => ∀ x, ReflTransGen (links f).Up q.id x → ¬ ReflTransGen (links f).Up r.id x) →
      ∃ ns, l.mapM g = some ns ∧ (FullNode.idsOf ns).Nodup ∧
        ∀ x, x ∈ FullNode.idsOf ns ↔ ∃ q ∈ l, ReflTransGen (links f).Up q.id x
  | [], _, _ => ⟨[], rfl, List.nodup_nil, fun x => by simp [FullNode.idsOf]⟩
  | q :: l, hl, hpair => by
    obtain ⟨hq, hpair⟩ := List.pairwise_cons.mp hpair
    obtain ⟨n, hn, hnodup, hmem⟩ := hl q List.mem_cons_self
    obtain ⟨ns, hns, hnodups, hmems⟩ := trees_of_list (fun r hr => hl r (List.mem_cons_of_mem q hr)) hpair
    refine ⟨n :: ns, ?_, ?_, fun x => ?_⟩
    · rw [List.mapM_cons, hn, hns]
      rfl
    · refine List.nodup_append.mpr ⟨hnodup, hnodups, fun x hx y hy he => ?_⟩
      subst he
      obtain ⟨r, hr, hrx⟩ := (hmems x).mp hy
      exact hq r hr x ((hmem x).mp hx) hrx
    · show x ∈ n.ids ++ FullNode.idsOf ns ↔ _
      rw [List.mem_append, hmem, hmems]
      simp

/-- With as much fuel as there are posts below it, the tree at a post is built. -/
theorem IsForest.nodeToFull (h : IsForest f) : ∀ {fuel : ℕ} {p : Post}, f.lookup p.id = some p →
    (below f p.id).card < fuel → ∃ n, Nostrill.nodeToFull f fuel p = some n ∧ IsTree f p.id n
  | 0, _, _, hf => absurd hf (Nat.not_lt_zero _)
  | fuel + 1, p, hp, hf => by
    have hchild (q : Post) (hq : q ∈ childPosts f p) :
        ∃ n, Nostrill.nodeToFull f fuel q = some n ∧ IsTree f q.id n := by
      obtain ⟨hq, hup⟩ := (h.mem_childPosts hp).mp hq
      exact h.nodeToFull hq (Nat.lt_of_lt_of_le (h.card_below_lt hup) (Nat.le_of_lt_succ hf))
    have hapart : (childPosts f p).Pairwise fun q r => ∀ x, ReflTransGen (links f).Up q.id x →
        ¬ ReflTransGen (links f).Up r.id x := by
      refine List.Pairwise.imp_of_mem (fun {q r} hq hr hne x hqx hrx => ?_) h.childPosts_pairwise
      exact h.wf.apart ((h.mem_childPosts hp).mp hq).2 ((h.mem_childPosts hp).mp hr).2 hne hqx hrx
    obtain ⟨ns, hns, hnodup, hmem⟩ := trees_of_list hchild hapart
    have hmem' (x : Id) : x ∈ FullNode.idsOf ns ↔ (links f).Under p.id x := by
      rw [hmem, Forest.Links.Under, TransGen.head'_iff]
      constructor
      · rintro ⟨q, hq, hqx⟩
        exact ⟨q.id, ((h.mem_childPosts hp).mp hq).2, hqx⟩
      · rintro ⟨c, hc, hcx⟩
        obtain ⟨q, hq⟩ := Option.isSome_iff_exists.mp (links_isSome.mp hc.isSome)
        obtain rfl := h.keyed c q hq
        exact ⟨q, (h.mem_childPosts hp).mpr ⟨hq, hc⟩, hcx⟩
    refine ⟨.mk p ns, ?_, ?_, fun x => ?_⟩
    · show ((childPosts f p).mapM (Nostrill.nodeToFull f fuel)).map _ = _
      rw [hns]
      rfl
    · exact List.nodup_cons.mpr ⟨fun hid => h.wf.acyclic p.id ((hmem' p.id).mp hid), hnodup⟩
    · show x ∈ p.id :: FullNode.idsOf ns ↔ _
      rw [List.mem_cons, hmem', Relation.reflTransGen_iff_eq_or_transGen]
      rfl

/-- **In a forest the thread of each post can be built, and is whole.** -/
theorem IsForest.threaded (h : IsForest f) : Threaded f := by
  intro id p hp
  obtain rfl := h.keyed id p hp
  obtain ⟨n, hn, hnodup, hmem⟩ := h.nodeToFull hp (Nat.lt_succ_of_le (card_below_le f p.id))
  refine ⟨n, hn, hnodup, fun x => ?_⟩
  rw [hmem, Relation.reflTransGen_iff_eq_or_transGen]
  rfl

end

end Nostrill
end Ursockets
