/-
# Who gets an answer

A request is a subscription, and its answer a fact on the path that the asker
chose, with a kick of that path after it unless the asker is let in to follow. So
it is the asker's alone exactly when no other ship is subscribed on that path,
which for `/follow` is the path of all followers. A ship that the gate denies gets
no posts in any case.

Key definitions: `Card.Reaches`, `keeps`, `Admitted`, `Private`.
Key theorems: `onWatch_private_iff`.
-/
import Ursockets.NostrillAgent

namespace Ursockets
namespace Nostrill

/-! ### What gall does with the cards -/

/-- A fact, or a kick, gets to a subscriber: to all of its path. -/
def Card.Reaches (S : Sys) (c : Card) (s : Subscriber) : Prop :=
  match c with
  | .ui _ => s.path = ["ui"]
  | .uiState => s.path = ["ui"]
  | .followers _ => s.path = ["follow"]
  | .answer path _ => s.path = path
  | .kick path => s.path = path
  | .wsClient wid _ => s.path = ["websocket-client", S.scowUd wid]
  | .wsServer wid _ => s.path = ["websocket-server", S.scowUd wid]
  | .wsClients paths _ => s.path ∈ paths
  | _ => False

def Card.isKickOf (path : List String) : Card → Bool
  | .kick p => p = path
  | _ => false

/-- The subscriptions that the cards leave. -/
def keeps (cs : List Card) (sup : List Subscriber) : List Subscriber :=
  sup.filter fun s => !cs.any (Card.isKickOf s.path)

/-! ### Requests -/

/-- The request that a subscription on a path is. -/
def reqOf (S : Sys) : List String → Option Req
  | "follow" :: rest => some ⟨reqMsg rest, none⟩
  | "beg" :: "feed" :: rest => some ⟨reqMsg rest, some .feed⟩
  | "beg" :: "thread" :: ids :: rest => (S.slawUw ids).map fun id => ⟨reqMsg rest, some (.thread id)⟩
  | _ => none

/-- The gate lets the ship in. -/
def Admitted (S : Sys) (B : Bowl) (st : State) (req : Req) : Prop :=
  match req.p with
  | some (.thread id) =>
    ∃ ted, st.feed.get id = some ted ∧ ted.perms.read.manual = false ∧ canAccess S B B.src ted.perms.read req.msg
  | _ => st.feedPerms.manual = false ∧ canAccess S B B.src st.feedPerms req.msg

/-- The request is for a thread, is let in, and the walk of the thread does not end: the event crashes. -/
def Endless (S : Sys) (B : Bowl) (st : State) (req : Req) : Prop :=
  match req.p with
  | some (.thread id) =>
    ∃ ted, st.feed.get id = some ted ∧ ted.perms.read.manual = false ∧ canAccess S B B.src ted.perms.read req.msg ∧
      fullThread st.feed ted = none
  | _ => False

/-- An answer with posts in it. -/
def Res.hasPosts : Res → Bool
  | .feed fr => fr.p.join.isSome
  | .thread _ d => d.p.join.isSome

/-- The answer is the asker's alone, and has no posts for a ship that is not let in. -/
structure Private (S : Sys) (B : Bowl) (st : State) (req : Req) (cs : List Card) : Prop where
  only : ∀ c ∈ cs, ∀ s ∈ B.sup, c.Reaches S s → s.ship = B.src
  kept : ∀ s ∈ B.sup, s.ship ≠ B.src → s ∈ keeps cs B.sup
  denied : ¬ Admitted S B st req → ∀ path res, .answer path res ∈ cs → res.hasPosts = false

/-! ### Answers -/

/-- The cards are notices to us, an answer on a path, and perhaps its kick; the answer has posts only if `ok`. -/
structure Answers (pat : List String) (ok : Prop) (cs : List Card) : Prop where
  sent : ∃ res, .answer pat res ∈ cs
  shape : ∀ c ∈ cs, (∃ n, c = .hark n) ∨ c = .kick pat ∨ ∃ res, c = .answer pat res ∧ (res.hasPosts → ok)

theorem Answers.res {pat : List String} {ok : Prop} {res : Res} (h : res.hasPosts → ok) :
    Answers pat ok (sendRes pat res) := by
  refine ⟨⟨res, List.mem_cons_self⟩, fun c hc => ?_⟩
  rcases List.mem_cons.mp hc with rfl | hc
  · exact .inr (.inr ⟨res, rfl, h⟩)
  · exact .inr (.inl (List.mem_singleton.mp hc))

theorem Answers.hark {pat : List String} {ok : Prop} {cs : List Card} (h : Answers pat ok cs) (n : Notif) :
    Answers pat ok (.hark n :: cs) := by
  obtain ⟨res, hres⟩ := h.sent
  refine ⟨⟨res, List.mem_cons_of_mem _ hres⟩, fun c hc => ?_⟩
  rcases List.mem_cons.mp hc with rfl | hc
  · exact .inl ⟨n, rfl⟩
  · exact h.shape c hc

theorem handleFeedReq_answers (S : Sys) (B : Bowl) (st : State) (req : Req) (pat : List String) (follow : Bool) :
    Answers pat (st.feedPerms.manual = false ∧ canAccess S B B.src st.feedPerms req.msg)
      (handleFeedReq S B st req pat follow).1 := by
  unfold handleFeedReq
  split
  · exact (Answers.res (by intro h; cases h)).hark _
  · rename_i hm
    refine Answers.hark ?_ _
    split
    · rename_i hcan
      split
      · refine ⟨⟨_, List.mem_cons_self⟩, fun c hc => .inr (.inr ⟨_, List.mem_singleton.mp hc, fun _ => ?_⟩)⟩
        exact ⟨by simpa using hm, hcan⟩
      · exact Answers.res fun _ => ⟨by simpa using hm, hcan⟩
    · exact Answers.res (by intro h; cases h)

/-- A request that does not make the walk of a thread run forever is answered on its path. -/
theorem handleReq_answers {S : Sys} {B : Bowl} {st : State} {req : Req} {pat : List String} :
    (∀ cs st', handleReq S B st req pat = some (cs, st') → Answers pat (Admitted S B st req) cs) ∧
      (handleReq S B st req pat = none → Endless S B st req) := by
  unfold handleReq Admitted Endless
  cases hp : req.p with
  | none =>
    refine ⟨fun cs st' h => ?_, fun h => by cases h⟩
    have := handleFeedReq_answers S B st req pat true
    rwa [Option.some.inj h] at this
  | some b =>
    cases b with
    | feed =>
      refine ⟨fun cs st' h => ?_, fun h => by cases h⟩
      have := handleFeedReq_answers S B st req pat false
      rwa [Option.some.inj h] at this
    | thread id =>
      dsimp only
      unfold handleThreadReq
      cases hted : st.feed.get id with
      | none =>
        refine ⟨fun cs st' h => ?_, fun h => by cases h⟩
        rw [← (Prod.mk.inj (Option.some.inj h)).1]
        exact Answers.res (by intro h; cases h)
      | some ted =>
        dsimp only
        split
        · refine ⟨fun cs st' h => ?_, fun h => by cases h⟩
          rw [← (Prod.mk.inj (Option.some.inj h)).1]
          exact (Answers.res (by intro h; cases h)).hark _
        · rename_i hm
          split
          · rename_i hcan
            refine ⟨fun cs st' h => ?_, fun h => ?_⟩
            · obtain ⟨fn, -, he⟩ := Option.map_eq_some_iff.mp h
              rw [← (Prod.mk.inj he).1]
              exact (Answers.res fun _ => ⟨ted, rfl, by simpa using hm, hcan⟩).hark _
            · exact ⟨ted, rfl, by simpa using hm, hcan, Option.map_eq_none_iff.mp h⟩
          · refine ⟨fun cs st' h => ?_, fun h => by cases h⟩
            rw [← (Prod.mk.inj (Option.some.inj h)).1]
            exact (Answers.res (by intro h; cases h)).hark _

theorem handleReq_endless {S : Sys} {B : Bowl} {st : State} {req : Req} (pat : List String)
    (h : Endless S B st req) : handleReq S B st req pat = none := by
  unfold Endless at h
  split at h
  · rename_i id hp
    obtain ⟨ted, hted, hm, hcan, hfull⟩ := h
    unfold handleReq
    rw [hp]
    dsimp only
    unfold handleThreadReq
    rw [hted]
    dsimp only
    rw [hm, hcan]
    have hrule : fullThread (st.rule B req ted.perms.read true).feed ted = none := hfull
    simp only [if_true, Bool.false_eq_true, if_false, hrule, Option.map_none]
  · cases h

theorem onWatch_req {S : Sys} {B : Bowl} {st : State} {pole : List String} {req : Req} (h : reqOf S pole = some req) :
    onWatch S B st pole = handleReq S B st req pole := by
  unfold reqOf at h
  split at h
  · rw [← Option.some.inj h]
    rfl
  · rw [← Option.some.inj h]
    rfl
  · obtain ⟨id, hid, he⟩ := Option.map_eq_some_iff.mp h
    rw [← he]
    simp only [onWatch, hid]
  · cases h

/-- An answer is private exactly when no other ship is on its path. -/
theorem Answers.private_iff {S : Sys} {B : Bowl} {st : State} {req : Req} {pole : List String} {cs : List Card}
    (h : Answers pole (Admitted S B st req) cs) :
    Private S B st req cs ↔ ∀ s ∈ B.sup, s.path = pole → s.ship = B.src := by
  constructor
  · intro hp s hs hpath
    obtain ⟨res, hres⟩ := h.sent
    exact hp.only _ hres s hs hpath
  · intro halone
    have honly : ∀ c ∈ cs, ∀ s ∈ B.sup, c.Reaches S s → s.ship = B.src := by
      intro c hc s hs hr
      rcases h.shape c hc with ⟨n, rfl⟩ | rfl | ⟨res, rfl, -⟩
      · cases hr
      · exact halone s hs hr
      · exact halone s hs hr
    refine ⟨honly, fun s hs hne => ?_, fun hno path res hres => ?_⟩
    · refine List.mem_filter.mpr ⟨hs, ?_⟩
      rw [Bool.not_eq_true', List.any_eq_false]
      intro c hc hk
      -- a kick of the path would reach the subscriber
      rcases h.shape c hc with ⟨n, rfl⟩ | rfl | ⟨res, rfl, -⟩
      · cases hk
      · exact hne (honly _ hc s hs (of_decide_eq_true hk).symm)
      · cases hk
    · rcases h.shape _ hres with ⟨n, hn⟩ | hk | ⟨res', he, hok⟩
      · cases hn
      · cases hk
      · obtain ⟨-, rfl⟩ := Card.answer.inj he
        exact Bool.eq_false_iff.mpr fun hposts => hno (hok hposts)

/-- **Answers reach only the asker**, exactly when no other ship is subscribed on the path of the request, or the
event crashes. -/
theorem onWatch_private_iff (S : Sys) (B : Bowl) (st : State) {pole : List String} {req : Req}
    (h : reqOf S pole = some req) :
    (∀ cs st', onWatch S B st pole = some (cs, st') → Private S B st req cs) ↔
      (∀ s ∈ B.sup, s.path = pole → s.ship = B.src) ∨ Endless S B st req := by
  rw [onWatch_req h]
  obtain ⟨hans, hend⟩ := @handleReq_answers S B st req pole
  constructor
  · intro hp
    cases hrun : handleReq S B st req pole with
    | none => exact .inr (hend hrun)
    | some r => exact .inl ((hans r.1 r.2 hrun).private_iff.mp (hp r.1 r.2 hrun))
  · rintro (halone | hendless) cs st' hrun
    · exact (hans cs st' hrun).private_iff.mpr halone
    · rw [handleReq_endless pole hendless] at hrun
      cases hrun

/-- Ships 1 and 2 are both subscribed on `/follow`, as followers are. -/
def twoFollowers : Bowl := { Bowl.plain 1 with sup := [⟨1, ["follow"]⟩, ⟨2, ["follow"]⟩] }

/-- The ship that asks, as the only follower. -/
def oneFollower : Bowl := { Bowl.plain 1 with sup := [⟨1, ["follow"]⟩] }

/-- With one follower only, the answer is private. -/
theorem onWatch_private_one :
    Private .plain oneFollower (defaultState .plain 1) ⟨"", none⟩
      (handleFeedReq .plain oneFollower (defaultState .plain 1) ⟨"", none⟩ ["follow"] true).1 :=
  (onWatch_private_iff .plain oneFollower (defaultState .plain 1) rfl).mpr
    (.inl fun _ hs _ => congrArg Subscriber.ship (List.mem_singleton.mp hs)) _ _ (show onWatch .plain oneFollower _
      ["follow"] =
      some (handleFeedReq .plain oneFollower (defaultState .plain 1) ⟨"", none⟩ ["follow"] true) from rfl)

/-- The answer to ship 1 goes to ship 2 as well. -/
theorem answer_leaks :
    ¬ ∀ cs st', onWatch .plain twoFollowers (defaultState .plain 1) ["follow"] = some (cs, st') →
      Private .plain twoFollowers (defaultState .plain 1) ⟨"", none⟩ cs := by
  intro h
  have hans := handleFeedReq_answers .plain twoFollowers (defaultState .plain 1) ⟨"", none⟩ ["follow"] true
  have hp := h _ _ (show _ = some (handleFeedReq .plain twoFollowers (defaultState .plain 1) ⟨"", none⟩ ["follow"] true)
    from rfl)
  have h2 : (2 : Ship) = 1 := (Answers.private_iff hans).mp hp ⟨2, ["follow"]⟩ (by decide) rfl
  exact absurd h2 (by decide)

end Nostrill
end Ursockets
