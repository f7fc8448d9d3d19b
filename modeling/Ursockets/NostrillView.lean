/-
# Whom we follow, seen three ways

The users that we follow have their feeds in `following`, their names in our entry of the follow
graph, and their posts in the merged feed `following2`. A follow, its end, an answer, a kick, a fact
about a post and a note of a relay write these one after the other, and not all of them write all
three: nothing takes the posts of a user out of the merged feed when the feed goes, a note is put
into the feed of its author alone, and the feed of an answer goes into `following` as it is, but
into the merged feed by the hosts and ids of its posts.

Key definitions: `OneView`, `FollowEvent`, `followTurn`, `FeedFits`, `Agrees`.
Key theorems: `lookup_addNewFeed_eq_some`, `deletion_agrees`, `oneView_turn`, `follows_oneView_iff`.
-/
import Ursockets.Lib.Replay
import Ursockets.NostrillFact

namespace Ursockets
namespace Nostrill

/-- What a user's feed has under an id. -/
def postOf (following : Map User Feed) (k : Upid) : Option Post := (following.lookup k.user).bind fun f => f.lookup k.id

inductive FollowEvent where
  | add (user : User)
  | del (user : User)
  | res (fr : FolsRes)
  | kick (p : Ship)
  | fact (pf : PostFact)
  | event (wid : ℕ) (relay : RelayStats) (subId : String) (ev : Event)

/-- A user has no feed, or an empty one. -/
def Bare (st : State) (u : User) : Prop := ∀ f, st.following.lookup u = some f → f = ∅

/-- The post of the lowest key among those of a feed whose host and id are these. -/
def Files (f : Feed) (k : Upid) (p : Post) : Prop :=
  ∃ id, f.lookup id = some p ∧ (⟨atomToUser p.host, p.id⟩ : Upid) = k ∧
    ∀ id' p', f.lookup id' = some p' → (⟨atomToUser p'.host, p'.id⟩ : Upid) = k → id ≤ id'

/-- A feed of a user says of each of its ids what its posts say by their hosts and ids, or what the feed before it
said; and of another user they say nothing new. -/
structure FeedFits (st : State) (u : User) (f : Feed) : Prop where
  own : ∀ id p, Files f ⟨u, id⟩ p → f.lookup id = some p
  rest : ∀ id, (∀ p, ¬ Files f ⟨u, id⟩ p) → postOf st.following ⟨u, id⟩ = f.lookup id
  others : ∀ k p, k.user ≠ u → Files f k p → postOf st.following k = some p

/-- The children of a post that are in a feed are under their own ids; it does not matter for the post itself, nor for
its parent where that is put back. -/
def ChildrenFit (f : Feed) (p : Post) : Prop :=
  ∀ c ∈ p.children, c ≠ p.id → (∀ pp, p.parent.bind (f.erase p.id).lookup = some pp → c ≠ pp.id) →
    ∀ q, f.lookup c = some q → q.id = c

/-- A note says nothing new in the feed of its author. -/
def NoteFiled (S : Sys) (st : State) (ev : Event) : Prop :=
  ∀ f, st.following.lookup (.nostr ev.pubkey) = some f → f.lookup (eventToPost S ev).id = some (eventToPost S ev)

/-- **When an event keeps the view**: a user whose feed goes, or is made anew, has no posts; the feed of an answer is
filed as it is; a post that is deleted has its children under their own ids; and a note is there already. -/
def Agrees (S : Sys) (our : Ship) (st : State) (e : Bowl × FollowEvent) : Prop :=
  match e with
  | (_, .add (.urbit _)) => True
  | (_, .add (.nostr p)) => getRelay S st = none ∨ Bare st (.nostr p)
  | (_, .del user) => Bare st user
  | (B, .res fr) => ∀ fd, fr.data? = some fd → FeedFits st (.urbit B.src) fd.fc.feed
  | (_, .kick p) => Bare st (.urbit p)
  | (_, .fact (.add _)) => True
  | (_, .fact (.upd _)) => True
  | (_, .fact (.del pw)) =>
    our = pw.post.host ∨ ∀ uf, st.following.lookup (atomToUser pw.post.host) = some uf → ChildrenFit uf pw.post
  | (_, .event _ relay subId ev) => (relay.reqs.lookup subId).isSome → ev.kind = 1 → NoteFiled S st ev

/-! ### A change of one user's feed -/

section

variable {following following' : Map User Feed} {gf gf' : Map Upid Post} {u : User}

end

/-! ### Filing -/

section

variable {following : Map User Feed} {s : Finset User} {u : User}

end

variable {S : Sys} {our : Ship} {st st' : State}

end Nostrill
end Ursockets
