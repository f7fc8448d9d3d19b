/-
# Facts and other users' feeds

A fact from a ship that we follow should change nothing that is stored of anybody
else. But a post is filed by the host it names, and nobody compares the host with
the sender: a fact changes our own feed, or another user's, unless the posts in it
are its ship's, or of users that we do not follow, or change nothing.

Key definitions: `Isolated`, `PutFits`, `DelFits`, `FactFits`.
Key theorems: `handleFact_isolated_iff`.
-/
import Ursockets.NostrillFollow
import Ursockets.Lib.Maps

namespace Ursockets
namespace Nostrill

/-- Nothing of anybody but the sender is changed. -/
structure Isolated (B : Bowl) (st st' : State) : Prop where
  feed : st'.feed = st.feed
  feeds : ∀ u, u ≠ .urbit B.src → st'.following.lookup u = st.following.lookup u
  merged : ∀ k : Upid, k.user ≠ .urbit B.src → st'.following2.lookup k = st.following2.lookup k
  profiles : ∀ u, u ≠ .urbit B.src → st'.profiles.lookup u = st.profiles.lookup u

theorem Isolated.refl (B : Bowl) (st : State) : Isolated B st st :=
  ⟨rfl, fun _ _ => rfl, fun _ _ => rfl, fun _ _ => rfl⟩

/-! ### When filing changes nothing -/

/-- The post is the sender's, or of a user whose feed we do not have, or it is there as it is. -/
def PutFits (B : Bowl) (st : State) (p : Post) : Prop :=
  if B.our = p.host then st.feed.get p.id = some p
  else
    atomToUser p.host = .urbit B.src ∨
      ∀ uf, st.following.lookup (atomToUser p.host) = some uf →
        uf.lookup p.id = some p ∧ st.following2.lookup ⟨atomToUser p.host, p.id⟩ = some p

/-- A post without one of its children. -/
def Post.dropChild (p : Post) (id : Id) : Post := { p with children := p.children.erase id }

/-- Deleting a post from a feed takes nothing: neither it nor its children are there, and its parent has not
got it as a child. A feed with posts under other ids than their own has more ways to stay as it is: a parent
may be put under the id taken, or be put and taken with the children. -/
def FeedSpares (f : Feed) (p : Post) : Prop :=
  (∀ c ∈ p.children, ∀ q, f.lookup c = some q → f.lookup q.id = none) ∧
    match p.parent.bind (f.erase p.id).lookup with
    | none => f.lookup p.id = none
    | some pp =>
      (pp.id = p.id ∨ f.lookup p.id = none) ∧
        (f.lookup pp.id = some (pp.dropChild p.id) ∨
          (f.lookup pp.id = none ∧ ∃ c ∈ p.children, c = pp.id ∨ ∃ q, f.lookup c = some q ∧ q.id = pp.id))

/-- The same of the merged feed. -/
def MergedSpares (gf : Map Upid Post) (p : Post) : Prop :=
  (∀ c ∈ p.children, gf.lookup ⟨atomToUser p.host, c⟩ = none) ∧
    match p.parent.bind fun pid => (gf.erase ⟨atomToUser p.host, p.id⟩).lookup ⟨atomToUser p.host, pid⟩ with
    | none => gf.lookup ⟨atomToUser p.host, p.id⟩ = none
    | some pp =>
      (pp.id = p.id ∨ gf.lookup ⟨atomToUser p.host, p.id⟩ = none) ∧
        (gf.lookup ⟨atomToUser p.host, pp.id⟩ = some (pp.dropChild p.id) ∨
          (gf.lookup ⟨atomToUser p.host, pp.id⟩ = none ∧ pp.id ∈ p.children))

/-- The post is the sender's, or of a user whose feed we do not have, or there is nothing of it to delete. -/
def DelFits (B : Bowl) (st : State) (p : Post) : Prop :=
  if B.our = p.host then FeedSpares st.feed.posts p
  else
    atomToUser p.host = .urbit B.src ∨
      ∀ uf, st.following.lookup (atomToUser p.host) = some uf → FeedSpares uf p ∧ MergedSpares st.following2 p

/-- When a fact changes nothing of anybody but its sender. Of a feed, the posts that name other hosts must be in
the merged feed already. -/
def FactFits (B : Bowl) (st : State) : Fact → Prop
  | .feed fr =>
    ∀ fd, fr.data? = some fd → ∀ (k : Upid) p, k.user ≠ .urbit B.src →
      (addNewFeed ∅ fd.fc.feed).lookup k = some p → st.following2.lookup k = some p
  | .post (.add pw) => PutFits B st pw.post
  | .post (.upd pw) => PutFits B st pw.post
  | .post (.del pw) => DelFits B st pw.post
  | .prof _ => True

/-! ### Deletion -/

theorem deleteChildren_eq_sweep (f : Feed) (p : Post) :
    deleteChildren f p = Maps.sweep id (fun _ q => q.id) f (kids p) := by
  unfold deleteChildren Maps.sweep
  congr 1
  funext f c
  unfold deleteChild Maps.sweepOne
  dsimp only [id]
  cases f.lookup c <;> rfl

theorem deleteChildrenG_eq_sweep (gf : Map Upid Post) (p : Post) :
    deleteChildrenG gf p =
      Maps.sweep (fun c => ⟨atomToUser p.host, c⟩) (fun c _ => ⟨atomToUser p.host, c⟩) gf (kids p) := by
  unfold deleteChildrenG Maps.sweep
  congr 1
  funext gf c
  unfold deleteChildG Maps.sweepOne
  cases gf.lookup ⟨atomToUser p.host, c⟩ <;> rfl

theorem deleteWithChildren_eq_self (f : Feed) (p : Post) : deleteWithChildren f p = f ↔ FeedSpares f p := by
  unfold deleteWithChildren updateParentOnDelete FeedSpares
  have hspares : Maps.Spares f (kids p) id (fun _ (q : Post) => q.id) ↔
      ∀ c ∈ p.children, ∀ q, f.lookup c = some q → f.lookup q.id = none := by
    simp [Maps.Spares]
  rw [deleteChildren_eq_sweep]
  cases hpid : p.parent with
  | none =>
    rw [Maps.sweep_erase, hspares]
    rfl
  | some pid =>
    dsimp only [Option.bind_some]
    cases hpp : (f.erase p.id).lookup pid with
    | none =>
      rw [Maps.sweep_erase, hspares]
    | some pp =>
      show Maps.sweep id (fun _ q => q.id) ((f.erase p.id).insert pp.id (pp.dropChild p.id)) (kids p) = f ↔ _
      rw [Maps.sweep_erase_insert fun _ _ => rfl, hspares]
      simp only [mem_kids, id]

theorem deleteFromGlobal_eq_self (gf : Map Upid Post) (p : Post) :
    deleteFromGlobal gf p = gf ↔ MergedSpares gf p := by
  unfold deleteFromGlobal updateParentOnDeleteG MergedSpares
  have hkey : ∀ a b : Id, (⟨atomToUser p.host, a⟩ : Upid) = ⟨atomToUser p.host, b⟩ ↔ a = b := by simp
  have hspares : Maps.Spares gf (kids p) (fun c => (⟨atomToUser p.host, c⟩ : Upid))
      (fun c (_ : Post) => (⟨atomToUser p.host, c⟩ : Upid)) ↔
      ∀ c ∈ p.children, gf.lookup ⟨atomToUser p.host, c⟩ = none := by
    unfold Maps.Spares
    simp only [mem_kids]
    refine forall₂_congr fun c _ => ⟨fun h => ?_, fun h _ _ => h⟩
    cases hc : gf.lookup ⟨atomToUser p.host, c⟩ with
    | none => rfl
    | some q => exact hc ▸ h q hc
  rw [deleteChildrenG_eq_sweep]
  cases hpid : p.parent with
  | none =>
    rw [Maps.sweep_erase, hspares]
    rfl
  | some pid =>
    dsimp only [Option.bind_some]
    cases hpp : (gf.erase ⟨atomToUser p.host, p.id⟩).lookup ⟨atomToUser p.host, pid⟩ with
    | none =>
      rw [Maps.sweep_erase, hspares]
    | some pp =>
      show Maps.sweep (fun c => (⟨atomToUser p.host, c⟩ : Upid)) (fun c _ => ⟨atomToUser p.host, c⟩)
        ((gf.erase ⟨atomToUser p.host, p.id⟩).insert ⟨atomToUser p.host, pp.id⟩ (pp.dropChild p.id)) (kids p) = gf ↔ _
      refine (Maps.sweep_erase_insert fun c (h : (⟨atomToUser p.host, c⟩ : Upid) = _) => h).trans ?_
      rw [hspares]
      simp only [mem_kids, hkey]
      refine and_congr_right fun hs => and_congr_right fun _ => or_congr_right (and_congr_right fun _ => ?_)
      constructor
      · rintro ⟨c, hc, rfl | ⟨q, -, rfl⟩⟩ <;> exact hc
      · intro h
        exact ⟨pp.id, h, .inl rfl⟩

/-- What is deleted from the merged feed is the host's. -/
theorem lookup_deleteFromGlobal (gf : Map Upid Post) (p : Post) {k : Upid} (hk : k.user ≠ atomToUser p.host) :
    (deleteFromGlobal gf p).lookup k = gf.lookup k := by
  have hne : ∀ id, k ≠ ⟨atomToUser p.host, id⟩ := fun id h => hk (congrArg Upid.user h)
  have hchildren : ∀ (l : List Id) (m : Map Upid Post),
      (l.foldl (deleteChildG (atomToUser p.host)) m).lookup k = m.lookup k := by
    intro l
    induction l with
    | nil => exact fun _ => rfl
    | cons c l ih =>
      intro m
      rw [List.foldl_cons, ih]
      unfold deleteChildG
      split
      · rfl
      · exact Finmap.lookup_erase_ne (hne c)
  unfold deleteFromGlobal deleteChildrenG
  rw [hchildren]
  unfold updateParentOnDeleteG
  split
  · exact Finmap.lookup_erase_ne (hne _)
  · split
    · exact Finmap.lookup_erase_ne (hne _)
    · rw [Finmap.lookup_insert_of_ne _ (hne _)]
      exact Finmap.lookup_erase_ne (hne _)

/-! ### Isolation -/

/-- A change of one user's feed, and of the merged feed under that user, is none of anybody but the sender
exactly when the user is the sender or there is no change. -/
theorem isolated_file_iff {B : Bowl} {st : State} {u : User} {uf f : Feed} {gf : Map Upid Post}
    (hu : st.following.lookup u = some uf)
    (hgf : ∀ k : Upid, k.user ≠ u → gf.lookup k = st.following2.lookup k) :
    Isolated B st { st with following := st.following.insert u f, following2 := gf } ↔
      u = .urbit B.src ∨ (f = uf ∧ gf = st.following2) := by
  constructor
  · intro h
    by_cases hsrc : u = .urbit B.src
    · exact .inl hsrc
    · refine .inr ⟨?_, Finmap.ext_lookup fun k => ?_⟩
      · have h1 : (st.following.insert u f).lookup u = st.following.lookup u := h.feeds u hsrc
        rw [Finmap.lookup_insert, hu] at h1
        exact Option.some.inj h1
      · by_cases hk : k.user = u
        · exact h.merged k fun hks => hsrc (hk.symm.trans hks)
        · exact hgf k hk
  · rintro (rfl | ⟨rfl, rfl⟩)
    · exact ⟨rfl, fun v hv => Finmap.lookup_insert_of_ne _ hv, fun k hk => hgf k hk, fun _ _ => rfl⟩
    · refine ⟨rfl, fun v _ => ?_, fun _ _ => rfl, fun _ _ => rfl⟩
      show (st.following.insert u f).lookup v = _
      rw [Maps.insert_eq_self.mpr hu]

theorem OwnFeed.put_eq_self {f : OwnFeed} {p : Post} : f.put p = f ↔ f.get p.id = some p := by
  rw [OwnFeed.ext_iff]
  exact Maps.insert_eq_self

/-- A change of our feed is no change exactly when it is none. -/
theorem isolated_own_iff {B : Bowl} {st : State} {f : OwnFeed} : Isolated B st { st with feed := f } ↔ f = st.feed :=
  ⟨fun h => h.feed, fun h => ⟨h, fun _ _ => rfl, fun _ _ => rfl, fun _ _ => rfl⟩⟩

theorem addToFeed_isolated_iff (B : Bowl) (st : State) (p : Post) :
    Isolated B st (addToFeed B st p) ↔ PutFits B st p := by
  unfold addToFeed PutFits
  split
  · rw [isolated_own_iff]
    exact OwnFeed.put_eq_self
  · split
    · rename_i hn
      refine iff_of_true (.refl B st) (.inr fun uf h => ?_)
      rw [hn] at h
      cases h
    · rename_i uf huf
      rw [isolated_file_iff huf fun k hk => Finmap.lookup_insert_of_ne _ fun h => hk (congrArg Upid.user h)]
      refine or_congr_right ?_
      simp only [huf, Option.some.injEq, forall_eq']
      exact and_congr Maps.insert_eq_self Maps.insert_eq_self

theorem delFromFeed_isolated_iff (B : Bowl) (st : State) (p : Post) :
    Isolated B st (delFromFeed B st p) ↔ DelFits B st p := by
  unfold delFromFeed DelFits
  split
  · rw [isolated_own_iff, OwnFeed.ext_iff]
    exact deleteWithChildren_eq_self _ _
  · split
    · rename_i hn
      refine iff_of_true (.refl B st) (.inr fun uf h => ?_)
      rw [hn] at h
      cases h
    · rename_i uf huf
      rw [isolated_file_iff huf fun k hk => lookup_deleteFromGlobal _ _ hk]
      refine or_congr_right ?_
      simp only [huf, Option.some.injEq, forall_eq']
      exact and_congr (deleteWithChildren_eq_self _ _) (deleteFromGlobal_eq_self _ _)

/-- What a feed leaves in the merged feed under a key: the feed's own, or else what was there. -/
theorem lookup_addNewFeed (gf : Map Upid Post) (f : Feed) (k : Upid) :
    (addNewFeed gf f).lookup k = ((addNewFeed ∅ f).lookup k).or (gf.lookup k) :=
  Maps.lookup_putAll (fun e : Id × Post => (⟨atomToUser e.2.host, e.2.id⟩ : Upid)) (fun e => e.2) gf (tap f) k

theorem handleRes_isolated_iff (B : Bowl) (st : State) (fr : FolsRes) :
    Isolated B st (handleRes B st fr).2 ↔ FactFits B st (.feed fr) := by
  unfold handleRes FactFits
  dsimp only
  cases hfd : fr.data? with
  | none => exact iff_of_true (.refl B st) fun fd h => by cases h
  | some fd =>
    simp only [Option.some.injEq, forall_eq']
    constructor
    · intro h k p hk hp
      have h1 : (addNewFeed st.following2 fd.fc.feed).lookup k = st.following2.lookup k := h.merged k hk
      rw [← h1, lookup_addNewFeed, hp]
      rfl
    · intro h
      refine ⟨rfl, fun u hu => Finmap.lookup_insert_of_ne _ hu, fun k hk => ?_,
        fun u hu => Finmap.lookup_insert_of_ne _ hu⟩
      show (addNewFeed st.following2 fd.fc.feed).lookup k = _
      rw [lookup_addNewFeed]
      cases hp : (addNewFeed ∅ fd.fc.feed).lookup k with
      | none => rfl
      | some p => rw [h k p hk hp]; rfl

/-- **Follower isolation.** A fact changes nothing of anybody but its sender exactly when it fits. -/
theorem handleFact_isolated_iff (B : Bowl) (st : State) (fact : Fact) :
    Isolated B st (handleFact B st fact).2 ↔ FactFits B st fact := by
  cases fact with
  | feed fr => exact handleRes_isolated_iff B st fr
  | post pf =>
    cases pf with
    | add pw => exact addToFeed_isolated_iff B st pw.post
    | upd pw => exact addToFeed_isolated_iff B st pw.post
    | del pw => exact delFromFeed_isolated_iff B st pw.post
  | prof prof =>
    refine iff_of_true ?_ trivial
    show Isolated B st (handleProfFact B st prof)
    unfold handleProfFact
    split
    · exact ⟨rfl, fun _ _ => rfl, fun _ _ => rfl, fun u hu => Finmap.lookup_erase_ne hu⟩
    · exact ⟨rfl, fun _ _ => rfl, fun _ _ => rfl, fun u hu => Finmap.lookup_insert_of_ne _ hu⟩

/-- A state in which ship 1 is followed. -/
def followsOne : State := { defaultState .plain 1 with following := Finmap.singleton (.urbit 1) ∅ }

/-- A ship that we follow tells us of a post of ours, and it is in our feed. -/
theorem fact_writes_own_feed :
    ¬ Isolated (.plain 1) followsOne
      (handleFact (.plain 1) followsOne
        (.post (.add ⟨buildPost 5 0 ⟨0, 0, none, none, []⟩, 0, none, none, []⟩))).2 := by
  intro h
  have hfit := (addToFeed_isolated_iff (.plain 1) followsOne (buildPost 5 0 ⟨0, 0, none, none, []⟩)).mp h
  have hsome : OwnFeed.empty.get 5 = some (buildPost 5 0 ⟨0, 0, none, none, []⟩) := hfit
  have hnone : OwnFeed.empty.get 5 = none := Finmap.lookup_empty 5
  rw [hnone] at hsome
  cases hsome

end Nostrill
end Ursockets
