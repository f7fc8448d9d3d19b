/-
# Engagement and our feed

Another ship's engagement should add only posts of that ship, under ids not taken,
change only the reactions, quotes and shares of that ship, and delete only replies
of that ship and what is below them. It does but for two cases: a reply is filed
under the id it comes with, whoever its author and whatever is there; and a reply
takes with it, when it is deleted, all that its ship had listed as its children.

Key definitions: `Post.Same`, `Engagement.OnlyBy`, `Below`, `EngSafe`, `EngFits`.
Key theorems: `handleEng_safe_iff`.
-/
import Ursockets.NostrillTrill

namespace Ursockets
namespace Nostrill

/-- Two versions of a post, which may differ in children and engagement. -/
structure Post.Same (p q : Post) : Prop where
  id : p.id = q.id
  host : p.host = q.host
  author : p.author = q.author
  thread : p.thread = q.thread
  parent : p.parent = q.parent
  contents : p.contents = q.contents

theorem Post.Same.refl (p : Post) : p.Same p := ⟨rfl, rfl, rfl, rfl, rfl, rfl⟩

/-- Two engagements differ at most in what is attributed to the ship. -/
structure Engagement.OnlyBy (s : Ship) (g h : Engagement) : Prop where
  reacts : ∀ t ≠ s, g.reacts.lookup t = h.reacts.lookup t
  quoted : ∀ q : SignedPid, q.ship ≠ s → (q ∈ g.quoted ↔ q ∈ h.quoted)
  shared : ∀ q : SignedPid, q.ship ≠ s → (q ∈ g.shared ↔ q ∈ h.shared)

theorem Engagement.OnlyBy.refl (s : Ship) (g : Engagement) : Engagement.OnlyBy s g g :=
  ⟨fun _ _ => rfl, fun _ _ => .rfl, fun _ _ => .rfl⟩

/-- The engagement with the post under an id: none, if there is no post. -/
def OwnFeed.engagement (f : OwnFeed) (id : Id) : Engagement := ((f.get id).map Post.engagement).getD .bunt

theorem OwnFeed.engagement_of_get {f : OwnFeed} {id : Id} {p : Post} (h : f.get id = some p) :
    f.engagement id = p.engagement := by
  simp [engagement, h]

/-- `a` is the parent of the post under `b`. -/
def OwnFeed.IsParent (f : OwnFeed) (a b : Id) : Prop := ∃ p, f.get b = some p ∧ p.parent = some a

/-- The post under `b` is a descendant of the post under `a`: its parents lead there. -/
def Below (f : OwnFeed) (a b : Id) : Prop := Relation.TransGen f.IsParent a b

/-- The engagement lets its ship delete what is under an id: it is a reply by the ship, or below one. -/
def MayDelete (B : Bowl) (f : OwnFeed) (e : Eng) (id : Id) : Prop :=
  ∃ src c r, e = .delReply src c ∧ f.get c = some r ∧ r.author = B.src ∧ r.parent.isSome ∧ (id = c ∨ Below f c id)

/-- What an engagement may do to a feed. -/
structure EngSafe (B : Bowl) (e : Eng) (f f' : OwnFeed) : Prop where
  kept : ∀ id p, f.get id = some p → (∃ p', f'.get id = some p' ∧ p.Same p') ∨ (f'.get id = none ∧ MayDelete B f e id)
  added : ∀ id p, f'.get id = some p → f.get id = none → p.host = B.our ∧ p.author = B.src
  engaged : ∀ id p, f'.get id = some p → (f.engagement id).OnlyBy B.src p.engagement

/-- The reply is the ship's own, under an id not taken; or it is what is there already. -/
def ReplyFits (B : Bowl) (f : OwnFeed) (child : Post) : Prop :=
  (∀ old, f.get child.id = some old → old.Same child) ∧
    (f.get child.id = none → child.author = B.src) ∧
      (f.engagement child.id).OnlyBy B.src child.engagement

/-- When an engagement does no more than it may. A reply that is hosted by us, to posts that we have,
must fit; of a reply of the ship that is deleted, all that is reached over the children must be below it. -/
def EngFits (S : Sys) (B : Bowl) (f : OwnFeed) : Eng → Prop
  | .reply parent child =>
    (f.get parent).isSome → child.host = B.our → (child.parent.bind f.get).isSome → ReplyFits B f child
  | .delReply _ c =>
    ∀ p, f.get c = some p → p.author = B.src → (p.parent.bind f.get).isSome → getRef S p ≠ none →
      ∀ id, f.Reach c id → (f.get id).isSome → id = c ∨ Below f c id
  | _ => True

theorem EngSafe.refl (B : Bowl) (e : Eng) (f : OwnFeed) : EngSafe B e f f where
  kept _ p h := .inl ⟨p, h, .refl p⟩
  added id p h h' := by
    rw [h] at h'
    cases h'
  engaged id p h := by
    rw [OwnFeed.engagement_of_get h]
    exact .refl _ _

/-! ### Engagement with a post -/

theorem addToFeed_feed (B : Bowl) (st : State) (p : Post) :
    (addToFeed B st p).feed = if B.our = p.host then st.feed.put p else st.feed := by
  unfold addToFeed
  split
  · rfl
  · split <;> rfl

/-- A post filed again with engagement changed in what is the ship's own. -/
theorem EngSafe.put_engage {B : Bowl} {f : OwnFeed} {id : Id} {p : Post} {g : Engagement → Engagement} (e : Eng)
    (h : f.get id = some p) (hg : p.engagement.OnlyBy B.src (g p.engagement)) :
    EngSafe B e f (f.put (p.engage g)) := by
  have hid : p.id = id := f.id_of_get h
  have hget : ∀ x, (f.put (p.engage g)).get x = if x = id then some (p.engage g) else f.get x := by
    intro x
    rw [OwnFeed.get_put]
    exact hid ▸ rfl
  constructor
  · intro x q hq
    refine .inl ?_
    by_cases hx : x = id
    · subst hx
      obtain rfl := Option.some.inj (h.symm.trans hq)
      exact ⟨p.engage g, by rw [hget, if_pos rfl], rfl, rfl, rfl, rfl, rfl, rfl⟩
    · exact ⟨q, by rw [hget, if_neg hx, hq], .refl q⟩
  · intro x q hq hn
    rw [hget] at hq
    split at hq
    · rename_i hx
      rw [hx, h] at hn
      cases hn
    · rw [hq] at hn
      cases hn
  · intro x q hq
    rw [hget] at hq
    split at hq
    · rename_i hx
      obtain rfl := Option.some.inj hq
      rw [hx, OwnFeed.engagement_of_get h]
      exact hg
    · rw [OwnFeed.engagement_of_get hq]
      exact .refl _ _

/-- Engagement with one post changes nothing but what is the ship's. -/
theorem engPost_safe (B : Bowl) (st : State) (e : Eng) (id : Id) {g : Engagement → Engagement}
    (hg : ∀ h : Engagement, h.OnlyBy B.src (g h)) : EngSafe B e st.feed (engPost B st e id g).2.feed := by
  unfold engPost
  split
  · exact .refl B e st.feed
  · rename_i p hp
    show EngSafe B e st.feed (addToFeed B st (p.engage g)).feed
    rw [addToFeed_feed]
    split
    · exact .put_engage e hp (hg _)
    · exact .refl B e st.feed

theorem Engagement.onlyBy_quote (g : Engagement) (B : Bowl) (id : Id) :
    g.OnlyBy B.src (g.quote (signedPid B id)) := by
  refine ⟨fun _ _ => rfl, fun q hq => ?_, fun _ _ => .rfl⟩
  have hne : q ≠ signedPid B id := fun h => hq (congrArg SignedPid.ship h)
  simp [Engagement.quote, hne]

theorem Engagement.onlyBy_unquote (g : Engagement) (B : Bowl) (id : Id) :
    g.OnlyBy B.src (g.unquote (signedPid B id)) := by
  refine ⟨fun _ _ => rfl, fun q hq => ?_, fun _ _ => .rfl⟩
  have hne : q ≠ signedPid B id := fun h => hq (congrArg SignedPid.ship h)
  simp [Engagement.unquote, hne]

theorem Engagement.onlyBy_share (g : Engagement) (B : Bowl) (id : Id) :
    g.OnlyBy B.src (g.share (signedPid B id)) := by
  refine ⟨fun _ _ => rfl, fun _ _ => .rfl, fun q hq => ?_⟩
  have hne : q ≠ signedPid B id := fun h => hq (congrArg SignedPid.ship h)
  unfold Engagement.share
  dsimp only
  split <;> simp [hne]

theorem Engagement.onlyBy_react (g : Engagement) (B : Bowl) (reaction : String) (sign : Signature) :
    g.OnlyBy B.src (g.react B.src reaction sign) :=
  ⟨fun _ ht => (Finmap.lookup_insert_of_ne _ ht).symm, fun _ _ => .rfl, fun _ _ => .rfl⟩

/-! ### Replies -/

/-- What `handle-eng` of `%reply` leaves in our feed. -/
theorem engReply_feed {B : Bowl} {st st' : State} {parent : Id} {child : Post} {cs : List Card}
    (h : engReply B st parent child = some (cs, st')) :
    (st'.feed = st.feed ∧ ¬ ((st.feed.get parent).isSome ∧ child.host = B.our ∧
      (child.parent.bind st.feed.get).isSome)) ∨
      ((st.feed.get parent).isSome ∧ child.host = B.our ∧
        ∃ pid pp, child.parent = some pid ∧ st.feed.get pid = some pp ∧
          st'.feed = (st.feed.put (pp.addChild child.id)).put child) := by
  unfold engReply at h
  split at h
  · rename_i hp
    obtain ⟨-, rfl⟩ := Prod.mk.inj (Option.some.inj h)
    exact .inl ⟨rfl, by simp [hp]⟩
  · rename_i p hp
    obtain ⟨st1, hadd, he⟩ := Option.map_eq_some_iff.mp h
    have hst : st' = st1 := by
      split at he
      · exact (Prod.mk.inj he).2.symm
      · exact (Prod.mk.inj he).2.symm
    subst hst
    unfold addReply at hadd
    split at hadd
    · cases hadd
    · rename_i pid hpid
      split at hadd
      · rename_i hour
        split at hadd
        · cases hadd
        · rename_i pp hpp
          refine .inr ⟨by rw [hp]; rfl, hour.symm, pid, pp, hpid, hpp, ?_⟩
          rw [← Option.some.inj hadd]
      · rename_i hour
        refine .inl ⟨?_, fun hc => hour hc.2.1.symm⟩
        split at hadd
        · rw [← Option.some.inj hadd]
        · split at hadd
          · cases hadd
          · rw [← Option.some.inj hadd]

/-- A reply hosted by us, to posts that we have, is filed. -/
theorem engReply_runs {B : Bowl} {st : State} {parent : Id} {child : Post} (hp : (st.feed.get parent).isSome)
    (hhost : child.host = B.our) (hpar : (child.parent.bind st.feed.get).isSome) :
    ∃ cs st', engReply B st parent child = some (cs, st') := by
  obtain ⟨p, hp⟩ := Option.isSome_iff_exists.mp hp
  obtain ⟨pp, hpar⟩ := Option.isSome_iff_exists.mp hpar
  obtain ⟨pid, hpid, hpp⟩ := Option.bind_eq_some_iff.mp hpar
  have hadd : addReply B st child = some { st with feed := (st.feed.put (pp.addChild child.id)).put child } := by
    unfold addReply
    rw [hpid]
    dsimp only
    rw [if_pos hhost.symm, hpp]
  unfold engReply
  rw [hp]
  dsimp only
  rw [hadd, Option.map_some]
  exact ⟨_, _, rfl⟩

/-- A reply filed under its parent does no more than it may exactly when it fits. -/
theorem EngSafe.reply_iff {B : Bowl} {f : OwnFeed} {parent pid : Id} {child pp : Post} (hhost : child.host = B.our)
    (hpp : f.get pid = some pp) :
    EngSafe B (.reply parent child) f ((f.put (pp.addChild child.id)).put child) ↔ ReplyFits B f child := by
  have hppid : pp.id = pid := f.id_of_get hpp
  -- the feed is as before but for the parent's children and the reply
  have hself : ((f.put (pp.addChild child.id)).put child).get child.id = some child := OwnFeed.get_put_self _ _
  have hother : ∀ x, x ≠ child.id →
      ((f.put (pp.addChild child.id)).put child).get x = if x = pid then some (pp.addChild child.id) else f.get x := by
    intro x hx
    rw [OwnFeed.get_put_ne hx, OwnFeed.get_put]
    exact hppid ▸ rfl
  constructor
  · intro h
    refine ⟨fun old hold => ?_, fun hn => (h.added _ _ hself hn).2, h.engaged _ _ hself⟩
    rcases h.kept _ _ hold with ⟨p', hp', hsame⟩ | ⟨hn, -⟩
    · rw [hself] at hp'
      exact Option.some.inj hp' ▸ hsame
    · rw [hself] at hn
      cases hn
  · rintro ⟨hsame, hauthor, heng⟩
    constructor
    · intro x p hp
      refine .inl ?_
      by_cases hx : x = child.id
      · subst hx
        exact ⟨child, hself, hsame p hp⟩
      · rw [hother x hx]
        split
        · rename_i hxp
          obtain rfl := Option.some.inj (hpp.symm.trans (hxp ▸ hp))
          exact ⟨_, rfl, rfl, rfl, rfl, rfl, rfl, rfl⟩
        · exact ⟨p, hp, .refl p⟩
    · intro x p hp hn
      by_cases hx : x = child.id
      · subst hx
        obtain rfl := Option.some.inj (hself.symm.trans hp)
        exact ⟨hhost, hauthor hn⟩
      · rw [hother x hx] at hp
        split at hp
        · rename_i hxp
          rw [hxp, hpp] at hn
          cases hn
        · rw [hp] at hn
          cases hn
    · intro x p hp
      by_cases hx : x = child.id
      · subst hx
        obtain rfl := Option.some.inj (hself.symm.trans hp)
        exact heng
      · rw [hother x hx] at hp
        split at hp
        · rename_i hxp
          obtain rfl := Option.some.inj hp
          rw [hxp, OwnFeed.engagement_of_get hpp]
          exact .refl _ _
        · rw [OwnFeed.engagement_of_get hp]
          exact .refl _ _

/-! ### Deleted replies -/

/-- What deleting a post of ours leaves: all that is not reached from it, and its parent may have one child less. -/
theorem handleDelOurs_cases {S : Sys} {B : Bowl} {st st' : State} {id : Id} {p : Post} {cs : List Card}
    (h : handleDelOurs S B st id = some (cs, st')) (hp : st.feed.get id = some p) :
    ∃ f, st' = { st with feed := f } ∧ (f = st.feed.delTree id p ∨
      ∃ pid poast, (st.feed.delTree id p).get pid = some poast ∧
        f = (st.feed.delTree id p).put { poast with children := poast.children.erase p.id }) := by
  unfold handleDelOurs at h
  rw [hp] at h
  obtain ⟨isRef, -, he⟩ := Option.map_eq_some_iff.mp h
  split at he
  · exact ⟨_, (Prod.mk.inj he).2.symm, .inl rfl⟩
  · split at he
    · exact ⟨_, (Prod.mk.inj he).2.symm, .inl rfl⟩
    · split at he
      · exact ⟨_, (Prod.mk.inj he).2.symm, .inl rfl⟩
      · next pid _ _ poast hpoast => exact ⟨_, (Prod.mk.inj he).2.symm, .inr ⟨pid, poast, hpoast, rfl⟩⟩

/-- The posts that are left are as they were but for children. -/
theorem handleDelOurs_feed {S : Sys} {B : Bowl} {st st' : State} {id : Id} {p : Post} {cs : List Card}
    (h : handleDelOurs S B st id = some (cs, st')) (hp : st.feed.get id = some p) :
    (∀ x, st.feed.Reach id x → st'.feed.get x = none) ∧
      (∀ x, ¬ st.feed.Reach id x → st.feed.get x = none → st'.feed.get x = none) ∧
        ∀ x q, ¬ st.feed.Reach id x → st.feed.get x = some q →
          ∃ q', st'.feed.get x = some q' ∧ q.Same q' ∧ q'.engagement = q.engagement := by
  have hget := OwnFeed.get_delTree hp
  obtain ⟨f, rfl, rfl | ⟨pid, poast, hpoast, rfl⟩⟩ := handleDelOurs_cases h hp
  · exact ⟨fun x hr => (hget x).1 hr, fun x hr hn => by rw [(hget x).2 hr, hn],
      fun x q hr hq => ⟨q, by rw [(hget x).2 hr, hq], .refl q, rfl⟩⟩
  · -- the parent is put back with one child less
    have hid := OwnFeed.id_of_get hpoast
    have hput : ∀ x, ((st.feed.delTree id p).put { poast with children := poast.children.erase p.id }).get x =
        if x = pid then some { poast with children := poast.children.erase p.id }
        else (st.feed.delTree id p).get x := by
      intro x
      rw [OwnFeed.get_put]
      exact hid ▸ rfl
    have hpid : ¬ st.feed.Reach id pid := by
      intro hr
      rw [(hget pid).1 hr] at hpoast
      cases hpoast
    dsimp only
    refine ⟨fun x hr => ?_, fun x hr hn => ?_, fun x q hr hq => ?_⟩
    · rw [hput, if_neg fun hx : x = pid => hpid (hx ▸ hr)]
      exact (hget x).1 hr
    · rw [hput]
      split
      · rename_i hx
        subst hx
        rw [(hget x).2 hr, hn] at hpoast
        cases hpoast
      · rw [(hget x).2 hr, hn]
    · rw [hput]
      split
      · rename_i hx
        subst hx
        rw [(hget x).2 hr] at hpoast
        obtain rfl := Option.some.inj (hpoast.symm.trans hq)
        exact ⟨_, rfl, ⟨rfl, rfl, rfl, rfl, rfl, rfl⟩, rfl⟩
      · exact ⟨q, by rw [(hget x).2 hr, hq], .refl q, rfl⟩

theorem handleDelOurs_runs {S : Sys} {B : Bowl} {st : State} {id : Id} {p : Post} {isRef : Option (Ship × Id)}
    (hp : st.feed.get id = some p) (hr : getRef S p = some isRef) :
      ∃ cs st', handleDelOurs S B st id = some (cs, st') := by
  unfold handleDelOurs
  rw [hp]
  dsimp only
  rw [hr, Option.map_some]
  exact ⟨_, _, rfl⟩

theorem handleDelOurs_eq_none {S : Sys} {B : Bowl} {st : State} {id : Id} {p : Post} (hp : st.feed.get id = some p)
    (hr : getRef S p = none) : handleDelOurs S B st id = none := by
  unfold handleDelOurs
  rw [hp]
  dsimp only
  rw [hr, Option.map_none]

/-- Deleting a reply of the ship does no more than it may exactly when all that goes with it is below it. -/
theorem EngSafe.del_iff {S : Sys} {B : Bowl} {st st' : State} {src : Upid} {c : Id} {r : Post} {cs : List Card}
    (h : handleDelOurs S B st c = some (cs, st')) (hr : st.feed.get c = some r) (hauthor : r.author = B.src)
    (hparent : r.parent.isSome) :
    EngSafe B (.delReply src c) st.feed st'.feed ↔
      ∀ id, st.feed.Reach c id → (st.feed.get id).isSome → id = c ∨ Below st.feed c id := by
  obtain ⟨hgone, habsent, hkept⟩ := handleDelOurs_feed h hr
  constructor
  · intro hs id hreach hid
    obtain ⟨p, hp⟩ := Option.isSome_iff_exists.mp hid
    rcases hs.kept id p hp with ⟨p', hp', -⟩ | ⟨-, src', c', r', he, -, -, -, hb⟩
    · rw [hgone id hreach] at hp'
      cases hp'
    · obtain ⟨-, rfl⟩ := Eng.delReply.inj he
      exact hb
  · intro hb
    constructor
    · intro id p hp
      by_cases hreach : st.feed.Reach c id
      · exact .inr ⟨hgone id hreach, src, c, r, rfl, hr, hauthor, hparent, hb id hreach (by rw [hp]; rfl)⟩
      · obtain ⟨p', hp', hsame, -⟩ := hkept id p hreach hp
        exact .inl ⟨p', hp', hsame⟩
    · intro id p hp hn
      by_cases hreach : st.feed.Reach c id
      · rw [hgone id hreach] at hp
        cases hp
      · rw [habsent id hreach hn] at hp
        cases hp
    · intro id p hp
      by_cases hreach : st.feed.Reach c id
      · rw [hgone id hreach] at hp
        cases hp
      · cases hq : st.feed.get id with
        | none =>
          rw [habsent id hreach hq] at hp
          cases hp
        | some q =>
          obtain ⟨p', hp', -, heng⟩ := hkept id q hreach hq
          obtain rfl := Option.some.inj (hp'.symm.trans hp)
          rw [OwnFeed.engagement_of_get hq, ← heng]
          exact .refl _ _

/-- What is deleted for a ship is a reply of that ship to a post that we have. -/
theorem engDelReply_eq {S : Sys} {B : Bowl} {st : State} {c : Id} :
    engDelReply S B st c =
      if ∃ r, st.feed.get c = some r ∧ r.author = B.src ∧ (r.parent.bind st.feed.get).isSome then handleDelOurs S B st c
      else some ([], st) := by
  unfold engDelReply
  split
  · rename_i hn
    rw [if_neg]
    rintro ⟨r, hr, -⟩
    rw [hn] at hr
    cases hr
  · rename_i p hp
    split
    · rename_i hne
      rw [if_neg]
      rintro ⟨r, hr, ha, -⟩
      obtain rfl := Option.some.inj (hp.symm.trans hr)
      exact hne ha.symm
    · rename_i ha
      split
      · rename_i hn
        rw [if_neg]
        rintro ⟨r, hr, -, hs⟩
        obtain rfl := Option.some.inj (hp.symm.trans hr)
        rw [hn] at hs
        cases hs
      · rename_i q hq
        rw [if_pos ⟨p, hp, (not_not.mp ha).symm, by rw [hq]; rfl⟩]
        show (if B.our = B.our then handleDelOurs S B st c else _) = _
        rw [if_pos rfl]

/-- **Engagement and our feed.** An engagement does no more than it may exactly when it fits. -/
theorem handleEng_safe_iff (S : Sys) (B : Bowl) (st : State) (e : Eng) :
    (∀ cs st', handleEng S B st e = some (cs, st') → EngSafe B e st.feed st'.feed) ↔ EngFits S B st.feed e := by
  have hpost : ∀ (id : Id) {g : Engagement → Engagement}, (∀ h : Engagement, h.OnlyBy B.src (g h)) →
      ∀ cs st', some (engPost B st e id g) = some (cs, st') → EngSafe B e st.feed st'.feed := by
    intro id g hg cs st' h
    have := engPost_safe B st e id hg
    rwa [Option.some.inj h] at this
  cases e with
  | mention post =>
    refine iff_of_true (fun cs st' h => ?_) trivial
    obtain ⟨-, rfl⟩ := Prod.mk.inj (Option.some.inj h)
    exact .refl _ _ _
  | quote src post => exact iff_of_true (hpost src fun h => h.onlyBy_quote B post.id) trivial
  | rp src target => exact iff_of_true (hpost src.id fun h => h.onlyBy_share B target) trivial
  | reaction pid reaction => exact iff_of_true (hpost pid.id fun h => h.onlyBy_react B reaction _) trivial
  | delQuote src quote => exact iff_of_true (hpost src.id fun h => h.onlyBy_unquote B quote) trivial
  | reply parent child =>
    show (∀ cs st', engReply B st parent child = some (cs, st') → _) ↔ _
    constructor
    · intro h hp hhost hpar
      obtain ⟨cs, st', hrun⟩ := engReply_runs hp hhost hpar
      have hs := h cs st' hrun
      rcases engReply_feed hrun with ⟨-, hn⟩ | ⟨-, -, pid, pp, -, hpp, hfeed⟩
      · exact absurd ⟨hp, hhost, hpar⟩ hn
      · rw [hfeed] at hs
        exact (EngSafe.reply_iff hhost hpp).mp hs
    · intro hfit cs st' hrun
      rcases engReply_feed hrun with ⟨hfeed, -⟩ | ⟨hp, hhost, pid, pp, hpid, hpp, hfeed⟩
      · rw [hfeed]
        exact .refl _ _ _
      · rw [hfeed]
        refine (EngSafe.reply_iff hhost hpp).mpr (hfit hp hhost ?_)
        rw [hpid, Option.bind_some, hpp]
        rfl
  | delReply src c =>
    show (∀ cs st', engDelReply S B st c = some (cs, st') → _) ↔ _
    rw [engDelReply_eq]
    split
    · rename_i hdel
      obtain ⟨r, hr, hauthor, hpp⟩ := hdel
      have hparent : r.parent.isSome := by
        cases hq : r.parent with
        | none =>
          rw [hq] at hpp
          cases hpp
        | some _ => rfl
      constructor
      · intro h p hp _ _ hread
        obtain rfl := Option.some.inj (hr.symm.trans hp)
        obtain ⟨isRef, hisRef⟩ := Option.ne_none_iff_exists'.mp hread
        obtain ⟨cs, st', hrun⟩ := handleDelOurs_runs (B := B) hr hisRef
        exact (EngSafe.del_iff hrun hr hauthor hparent).mp (h cs st' hrun)
      · intro hfit cs st' hrun
        refine (EngSafe.del_iff hrun hr hauthor hparent).mpr (hfit r hr hauthor hpp fun hread => ?_)
        rw [handleDelOurs_eq_none hr hread] at hrun
        cases hrun
    · rename_i hno
      refine iff_of_true (fun cs st' h => ?_) fun p hp ha hs _ => absurd ⟨p, hp, ha, hs⟩ hno
      obtain ⟨-, rfl⟩ := Prod.mk.inj (Option.some.inj h)
      exact .refl _ _ _

/-- A feed of one post of ours, under 5. -/
def onePost : OwnFeed := .put .empty (buildPost 5 0 ⟨0, 0, none, none, []⟩)

theorem onePost_get : onePost.get 5 = some (buildPost 5 0 ⟨0, 0, none, none, []⟩) := OwnFeed.get_put_self _ _

/-- A ship replies to our post under the id of that post, and its reply is there instead. -/
theorem reply_takes_post :
    ¬ ∀ cs st', handleEng .plain (.plain 1) { defaultState .plain 1 with feed := onePost }
        (.reply 5 (buildPost 5 0 ⟨0, 1, none, some 5, []⟩)) = some (cs, st') →
      EngSafe (.plain 1) (.reply 5 (buildPost 5 0 ⟨0, 1, none, some 5, []⟩)) onePost st'.feed := by
  intro h
  have hsome : (onePost.get 5).isSome := by
    rw [onePost_get]
    rfl
  obtain ⟨cs, st', hrun⟩ : ∃ cs st', engReply (.plain 1) { defaultState .plain 1 with feed := onePost } 5
      (buildPost 5 0 ⟨0, 1, none, some 5, []⟩) = some (cs, st') := engReply_runs hsome rfl hsome
  have hs := h cs st' hrun
  rcases engReply_feed hrun with ⟨-, hn⟩ | ⟨-, -, pid, pp, -, hpp, hfeed⟩
  · exact hn ⟨hsome, rfl, hsome⟩
  · rw [hfeed] at hs
    have hfits := (EngSafe.reply_iff rfl hpp).mp hs
    exact absurd (hfits.1 _ onePost_get).author (by decide)

end Nostrill
end Ursockets
