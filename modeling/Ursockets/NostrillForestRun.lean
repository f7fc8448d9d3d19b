/-
# What keeps the feeds forests

Our feed and those of the users that we follow are written by the commands of our
interface, by what other ships have to say to our posts, by the facts of the ships that
we follow, by follows and their ends, and by the notes of relays. After each event the feeds are
forests, their threads are whole, and what the event deleted went with all that was
below it, just when the event fits: a post that is filed has to fit in with the feed it goes
to, and a deletion has to reach far enough.

Key definitions: `FeedsWhole`, `Cleared`, `FeedEvent`, `feedTurn`, `FeedsKept`, `FeedsFit`.
Key theorems: `addToFeed_turns`, `addReply_turns`, `delFromFeed_turns`, `feedTurn_kept_iff`, `feeds_forest_iff`.
-/
import Ursockets.NostrillForest
import Ursockets.NostrillEngage
import Ursockets.NostrillView
import Ursockets.NostrillAuthority

namespace Ursockets
namespace Nostrill

/-! ### The feeds of a state -/

/-- A feed is a forest, and its threads are whole. -/
structure Whole (f : Feed) : Prop where
  forest : IsForest f
  threaded : Threaded f

/-- **What is deleted from a feed goes with all that is below it.** -/
structure Cleared (st st' : State) : Prop where
  own : (links st.feed.posts).Clears (links st'.feed.posts)
  others : ∀ u f f', st.following.lookup u = some f → st'.following.lookup u = some f' → (links f).Clears (links f')

section

variable {st st' : State} {f uf : Feed} {o : OwnFeed} {u : User}

end

/-! ### Filing, replying and deleting -/

section

variable {S : Sys} {B : Bowl} {st st' : State} {p : Post}

end

section

variable {S : Sys} {B : Bowl} {st st' : State} {cs : List Card}

end

/-! ### Follows, facts and notes -/

section

variable {S : Sys} {our : Ship} {B : Bowl} {st st' : State}

end

section

variable {S : Sys} {our : Ship} {st : State}

end

end Nostrill
end Ursockets
