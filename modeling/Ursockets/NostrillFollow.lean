/-
# Following, and being asked

The agent follows a user of nostr by a subscription on its first relay, and a ship
by a subscription to that ship's agent, which answers with its feed. A ship that
asks us is let in by the gate of our feed, or of the thread it asks for, or has its
request put off; the answer goes out on the path it subscribed to.

Key definitions: `handleAdd`, `handleDel`, `handleRes`, `handleKickNack`,
`canAccess`, `Lock.grants`, `LockFits`, `handleReq`.
Key theorems: `checkLock_grants_iff`.
-/
import Ursockets.NostrillTrill

namespace Ursockets
namespace Nostrill

/-! ### Following -/

/-- Our entry of the follow graph. -/
def State.followed (B : Bowl) (st : State) : Finset User := (st.followGraph.lookup (.urbit B.our)).getD ∅

/-- A user put into our entry of the follow graph. -/
def State.follow (B : Bowl) (st : State) (user : User) : State :=
  { st with followGraph := st.followGraph.insert (.urbit B.our) (insert user (st.followed B)) }

/-- `handle-add` -/
def handleAdd (S : Sys) (B : Bowl) (st : State) (user : User) : Outcome :=
  match user with
  | .urbit p => some ([.watch p], st)
  | .nostr p =>
    match getRelay S st with
    | none => some ([], st)
    | some (wid, relay) =>
      let st := State.follow B { st with following := st.following.insert user ∅ } user
      let d := getUserFeed B wid relay p
      some (.ui (.newNostr p (st.profiles.lookup user) [relay.url]) :: d.1, st.putRelay wid d.2)

/-- `handle-del`. The relay from which the subscription was taken is not written back. -/
def handleDel (S : Sys) (B : Bowl) (st : State) (user : User) : Outcome :=
  let st := { st with following := st.following.erase user }
  match st.followGraph.lookup (.urbit B.our) with
  | none => some ([], st)
  | some graph =>
    let st := { st with followGraph := st.followGraph.insert (.urbit B.our) (graph.erase user) }
    match user with
    | .urbit p => some ([.ui (.quit user), .leave p], st)
    | .nostr p =>
      match getRelay S st with
      | none => some ([], st)
      | some (wid, relay) => some (.ui (.quit user) :: (unfollowUser S wid relay p).1, st)

section

variable {S : Sys} {B : Bowl} {st : State} {user : User} {graph : Finset User}

/-- A user taken out of the feeds we follow and of our entry of the follow graph. -/
def State.unfollow (B : Bowl) (st : State) (user : User) (graph : Finset User) : State :=
  { st with
    following := st.following.erase user
    followGraph := st.followGraph.insert (.urbit B.our) (graph.erase user) }

/-- What the end of a follow is told with: the subscription to a ship is left, one to a user of nostr closed. -/
def quitCards (S : Sys) (st : State) (user : User) : List Card :=
  match user with
  | .urbit p => [.ui (.quit user), .leave p]
  | .nostr p =>
    match getRelay S st with
    | none => []
    | some (wid, relay) => .ui (.quit user) :: (unfollowUser S wid relay p).1

/-- Without an entry of ours in the follow graph only the feed goes. -/
theorem handleDel_none (hg : st.followGraph.lookup (.urbit B.our) = none) :
    handleDel S B st user = some ([], { st with following := st.following.erase user }) := by
  simp only [handleDel, hg]

theorem handleDel_some (hg : st.followGraph.lookup (.urbit B.our) = some graph) :
    handleDel S B st user = some (quitCards S st user, st.unfollow B user graph) := by
  simp only [handleDel, hg, quitCards]
  cases user with
  | urbit p => rfl
  | nostr p =>
    have hrel : getRelay S (st.unfollow B (.nostr p) graph) = getRelay S st := rfl
    rw [State.unfollow] at hrel
    simp only [hrel]
    cases getRelay S st <;> rfl

end

/-- The feed of an answer, if there is one. -/
def FolsRes.data? (fr : FolsRes) : Option FeedData := fr.p.join

/-- `handle-res` -/
def handleRes (B : Bowl) (st : State) (fr : FolsRes) : List Card × State :=
  let user := User.urbit B.src
  let enfr : Enbowl FolsRes := ⟨user, B.now, fr⟩
  ([.hark (.folRes enfr), .ui (.newUrbit enfr)],
    match fr.data? with
    | none => st
    | some fd =>
      State.follow B
        { st with
          following := st.following.insert user fd.fc.feed
          following2 := addNewFeed st.following2 fd.fc.feed
          profiles := st.profiles.insert user fd.profile } user)

/-- A fact on the subscription to a ship: the `%fact` of `on-agent`. -/
def handleFact (B : Bowl) (st : State) : Fact → List Card × State
  | .feed fr => handleRes B st fr
  | .post pf => handlePostFact B st pf
  | .prof prof => ([], handleProfFact B st prof)

/-! ### Gates -/

/-- `check-lock`: a password or a function decides alone; of the three lists, that of the ships and that of
the sponsors are each looked up in the other's place, and the lock of the ships is that of all. -/
def checkLock (S : Sys) (B : Bowl) (ship : Ship) (lock : Lock) (msg : String) : Bool :=
  match lock.pass, lock.custom with
  | some h, _ => h = S.shas msg
  | none, some fn => fn ship
  | none, none =>
    let fu := S.sein ship B.now
    let ye := S.sein fu B.now
    let ze := S.sein ye B.now
    let can := fun has : Bool => if lock.ship.locked then has else !has
    can (fu ∈ lock.luk.caveats ∨ ye ∈ lock.luk.caveats ∨ ze ∈ lock.luk.caveats) && can (ship ∈ lock.ship.caveats) &&
      can (S.clan ship ∈ lock.rank.caveats)

/-- `can-access` -/
def canAccess (S : Sys) (B : Bowl) (ship : Ship) (gate : Gate) (msg : String) : Bool := checkLock S B ship gate.lock msg

/-- One of a ship's sponsors is in a set: its own, that one's, or the one's above. -/
def hasSponsor (S : Sys) (B : Bowl) (ship : Ship) (caveats : Finset Ship) : Bool :=
  S.sein ship B.now ∈ caveats ∨ S.sein (S.sein ship B.now) B.now ∈ caveats ∨
    S.sein (S.sein (S.sein ship B.now) B.now) B.now ∈ caveats

/-- What a list says of one that is, or is not, in its caveats. -/
def Sublock.admits {α : Type} (l : Sublock α) (has : Bool) : Prop := if l.locked then has = true else has = false

theorem Sublock.admits_iff {α : Type} {l : Sublock α} {has : Bool} : l.admits has ↔ has = l.locked := by
  unfold admits
  cases l.locked <;> rfl

/-- **What a lock is for**: a password, or else a function, decides alone; else each of the three lists does, by its
own caveats and its own lock. -/
def Lock.grants (S : Sys) (B : Bowl) (ship : Ship) (lock : Lock) (msg : String) : Prop :=
  match lock.pass, lock.custom with
  | some h, _ => h = S.shas msg
  | none, some fn => fn ship = true
  | none, none =>
    lock.rank.admits (S.clan ship ∈ lock.rank.caveats) ∧ lock.luk.admits (hasSponsor S B ship lock.luk.caveats) ∧
      lock.ship.admits (ship ∈ lock.ship.caveats)

/-- When the lock of the ships may stand for those of the sponsors and the ranks: where the list of the ships refuses
the ship anyhow, where both are locked as it is, or where the other lists refuse under their own locks and under its. -/
def LockFits (S : Sys) (B : Bowl) (ship : Ship) (lock : Lock) : Prop :=
  lock.pass.isSome ∨ lock.custom.isSome ∨ ¬ lock.ship.admits (ship ∈ lock.ship.caveats) ∨
    if lock.luk.locked = lock.ship.locked then
      lock.rank.locked = lock.ship.locked ∨ hasSponsor S B ship lock.luk.caveats ≠ lock.ship.locked
    else if lock.rank.locked = lock.ship.locked then decide (S.clan ship ∈ lock.rank.caveats) ≠ lock.ship.locked
    else hasSponsor S B ship lock.luk.caveats ≠ decide (S.clan ship ∈ lock.rank.caveats)

theorem checkLock_lists {S : Sys} {B : Bowl} {ship : Ship} {lock : Lock} {msg : String} (hp : lock.pass = none)
    (hc : lock.custom = none) : checkLock S B ship lock msg = true ↔
      hasSponsor S B ship lock.luk.caveats = lock.ship.locked ∧ decide (ship ∈ lock.ship.caveats) = lock.ship.locked ∧
        decide (S.clan ship ∈ lock.rank.caveats) = lock.ship.locked := by
  have hcan : ∀ has : Bool, (if lock.ship.locked then has else !has) = true ↔ has = lock.ship.locked := by
    intro has
    cases lock.ship.locked <;> cases has <;> decide
  unfold checkLock
  rw [hp, hc]
  dsimp only
  rw [Bool.and_eq_true, Bool.and_eq_true, hcan, hcan, hcan, and_assoc]
  rfl

/-- **A lock grants what it is for just when the lock of the ships may stand for the others.** -/
theorem checkLock_grants_iff (S : Sys) (B : Bowl) (ship : Ship) (lock : Lock) (msg : String) :
    (checkLock S B ship lock msg = true ↔ lock.grants S B ship msg) ↔ LockFits S B ship lock := by
  cases hp : lock.pass with
  | some h =>
    refine iff_of_true ?_ (.inl (by rw [hp]; rfl))
    unfold checkLock Lock.grants
    rw [hp]
    exact decide_eq_true_iff
  | none =>
    cases hc : lock.custom with
    | some fn =>
      refine iff_of_true ?_ (.inr (.inl (by rw [hc]; rfl)))
      unfold checkLock Lock.grants
      rw [hp, hc]
    | none =>
      rw [checkLock_lists hp hc]
      unfold Lock.grants LockFits
      rw [hp, hc]
      simp only [Sublock.admits_iff, Option.isSome_none, Bool.false_eq_true, false_or]
      -- what is left is of the three locks, and of what is in the three lists
      generalize hasSponsor S B ship lock.luk.caveats = inLuk
      generalize decide (ship ∈ lock.ship.caveats) = inShip
      generalize decide (S.clan ship ∈ lock.rank.caveats) = inRank
      generalize lock.luk.locked = luk
      generalize lock.ship.locked = ships
      generalize lock.rank.locked = rank
      revert inLuk inShip inRank luk ships rank
      decide

/-- A lock of the ranks alone that names galaxies, and lets them in. -/
def galaxiesOnly : Lock := { Lock.bunt with rank := ⟨{.czar}, true, true⟩ }

/-- A galaxy that the list of the ranks names is kept out, as the list of the ships is not locked. -/
theorem galaxy_kept_out : ¬ (checkLock .plain (.plain 1) 1 galaxiesOnly "" = true ↔
    galaxiesOnly.grants .plain (.plain 1) 1 "") := by
  intro h
  have hrank : decide (Rank.czar ∈ galaxiesOnly.rank.caveats) = true := by decide
  have hgrants : galaxiesOnly.grants .plain (.plain 1) 1 "" :=
    ⟨Sublock.admits_iff.mpr hrank, Sublock.admits_iff.mpr rfl, Sublock.admits_iff.mpr rfl⟩
  exact nomatch hrank.symm.trans ((checkLock_lists rfl rfl).mp (h.mpr hgrants)).2.2

/-! ### Profiles -/

/-- `get-followers` -/
def getFollowers (B : Bowl) : Finset User :=
  ((B.sup.filter fun s => s.path = ["follow"] ∧ s.ship ≠ B.our).map fun s => User.urbit s.ship).toFinset

/-- `default-profile` -/
def defaultProfile (S : Sys) (B : Bowl) (st : State) : UserProfile :=
  ⟨st.keys.pub, st.following.keys, st.following.keys.card, getFollowers B, (getFollowers B).card,
    ⟨S.scowP B.our, "", "", ∅⟩, some ⟨B.our, B.our, S.nyms (.urbit B.our)⟩, S.nyms (.nostr st.keys.pub)⟩

/-! ### Answers -/

/-- The request, with who asks and when. -/
def enreq (B : Bowl) (req : Req) : Enbowl Req := ⟨.urbit B.src, B.now, req⟩

/-- `send-feed`: the subscription goes on. -/
def sendFeed (pat : List String) (fr : FolsRes) : List Card := [.answer pat (.feed fr)]

/-- `send-res`: the subscription ends. -/
def sendRes (pat : List String) (res : Res) : List Card := [.answer pat res, .kick pat]

/-- `defer-ruling` -/
def deferRuling (B : Bowl) (st : State) (req : Req) (pat : List String) (res : Res) : List Card × State :=
  (.hark (.req (enreq B req) none) :: sendRes pat res, { st with requests := st.requests.insert B.now req })

/-- The decision of a gate that is not manual. -/
def decision (B : Bowl) (can : Bool) :
    Decision := if can then ⟨B.now, true, false, "どうぞ"⟩ else ⟨B.now, false, false, "not allowed"⟩

/-- The state with a decision put into it. -/
def State.rule (B : Bowl) (st : State) (req : Req) (gate : Gate) (can : Bool) : State :=
  { st with responses := st.responses.insert B.now ⟨enreq B req, gate, decision B can⟩ }

/-- `give-feed`: the latest page and our profile. -/
def feedData (S : Sys) (B : Bowl) (st : State) : FeedData :=
  ⟨latestPage st.feedPerms.backlog st.feed.posts, (st.profiles.lookup (.urbit B.our)).getD (defaultProfile S B st)⟩

/-- `handle-feed-req`, by one who follows or by one who begs. -/
def handleFeedReq (S : Sys) (B : Bowl) (st : State) (req : Req) (pat : List String) (follow : Bool) :
    List Card × State :=
  if st.feedPerms.manual then deferRuling B st req pat (.feed ⟨"thinking", none⟩)
  else
    let can := canAccess S B B.src st.feedPerms req.msg
    let dec := decision B can
    let st := st.rule B req st.feedPerms can
    (.hark (.req (enreq B req) (some dec)) ::
      (if can then
        if follow then sendFeed pat ⟨dec.msg, some (some (feedData S B st))⟩
        else sendRes pat (.feed ⟨dec.msg, some (some (feedData S B st))⟩)
      else sendRes pat (.feed ⟨dec.msg, some none⟩)), st)

/-- `node-to-full` of a post of our feed: a walk that goes deeper than the feed has posts does not end. -/
def fullThread (f : OwnFeed) (p : Post) : Option FullNode := nodeToFull f.posts (f.posts.keys.card + 1) p

/-- `handle-thread-req` -/
def handleThreadReq (S : Sys) (B : Bowl) (st : State) (req : Req) (pat : List String) (id : Id) : Outcome :=
  match st.feed.get id with
  | none => some (sendRes pat (.thread id ⟨"no such thread", some none⟩), st)
  | some ted =>
    if ted.perms.read.manual then some (deferRuling B st req pat (.thread id ⟨"thinking", none⟩))
    else
      let can := canAccess S B B.src ted.perms.read req.msg
      let dec := decision B can
      let st := st.rule B req ted.perms.read can
      let hark := Card.hark (.req (enreq B req) (some dec))
      if can then
        (fullThread st.feed ted).map fun fn => (hark :: sendRes pat (.thread id ⟨dec.msg, some (some ⟨fn, []⟩)⟩), st)
      else some (hark :: sendRes pat (.thread id ⟨dec.msg, some none⟩), st)

/-- `handle-req` -/
def handleReq (S : Sys) (B : Bowl) (st : State) (req : Req) (pat : List String) : Outcome :=
  match req.p with
  | none => some (handleFeedReq S B st req pat true)
  | some .feed => some (handleFeedReq S B st req pat false)
  | some (.thread id) => handleThreadReq S B st req pat id

end Nostrill
end Ursockets
