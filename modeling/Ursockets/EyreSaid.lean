/-
# What a channel says to its client

The client of a channel listens by a request whose response goes on. What moves say to it is the data of such
responses (`said`). A GET that is served is said the queue as it was before the acknowledgement that it brings along.
An event of an agent that is recorded takes the next id of the channel, goes to the end of the queue, and is said to
the request that listens, if there is one. Every other arm says nothing but heartbeats, and adds nothing to a queue.

Key definitions: `said`, `Pruned`, `Within`, `Served`, `Opened`, `Recorded`.
Key theorems: `closeSession_tells`, `onGetRequest_tells`, `eventReplay_spec`, `onPutRequest_tells`, `emitEvent_tells`.
-/
import Ursockets.EyreCount

namespace Ursockets
namespace Eyre

/-! ### What moves say -/

/-- What a move says to a duct whose response goes on. -/
def Move.said (m : Move) : Option (Duct × Octs) :=
  match m.card with
  | .response (.start _ (some data) false) => some (m.duct, data)
  | .response (.continue (some data) false) => some (m.duct, data)
  | _ => none

/-- What moves say to ducts whose responses go on. -/
def said (moves : List Move) : List (Duct × Octs) := moves.filterMap Move.said

@[simp] theorem said_nil : said [] = [] := rfl

@[simp] theorem said_wait (d : Duct) (w : Wire) (t : Da) : Move.said ⟨d, .wait w t⟩ = none := rfl

@[simp] theorem said_rest (d : Duct) (w : Wire) (t : Da) : Move.said ⟨d, .rest w t⟩ = none := rfl

@[simp] theorem said_deal (d : Duct) (w : Wire) (ship ship' : Ship) (app : String) (t : AgentTask) :
    Move.said ⟨d, .deal w ship ship' app t⟩ = none := rfl

@[simp] theorem said_warp (d : Duct) (w : Wire) (desk mark : String) : Move.said ⟨d, .warp w desk mark⟩ = none := rfl

@[simp] theorem said_cancel (d : Duct) : Move.said ⟨d, .response .cancel⟩ = none := rfl

@[simp] theorem said_static (d : Duct) (h : ResponseHeader) (data : Option Octs) :
    Move.said ⟨d, .response (.start h data true)⟩ = none := by
  cases data <;> rfl

@[simp] theorem said_start (d : Duct) (h : ResponseHeader) (data : Octs) :
    Move.said ⟨d, .response (.start h (some data) false)⟩ = some (d, data) := rfl

@[simp] theorem said_continue (d : Duct) (data : Octs) :
    Move.said ⟨d, .response (.continue (some data) false)⟩ = some (d, data) := rfl

variable {text : Text} {roof : Roof} {our source : Ship} {now : Da} {duct : Duct} {s s' s'' : ServerState}
  {moves : List Move} {cid : String} {identity : Identity} {request : Request} {site : ChannelUrl}

@[simp] theorem said_dealAs (d : Duct) (w : Wire) (i : Identity) (ship : Ship) (app : String) (t : AgentTask) :
    (dealAs our d w i ship app t).said = none := rfl

/-- Of a channel's queue the start has been taken, or nothing. -/
structure Pruned (c c' : Channel) : Prop where
  nextId : c'.nextId = c.nextId
  events : c'.events <:+ c.events

theorem Pruned.refl (c : Channel) : Pruned c c := ⟨rfl, List.suffix_rfl⟩

theorem Pruned.trans {c c' c'' : Channel} (h : Pruned c c') (h' : Pruned c' c'') : Pruned c c'' :=
  ⟨h'.nextId.trans h.nextId, h'.events.trans h.events⟩

/-- The channels are ones that were there before, and nothing has been added to their queues. -/
def Within (s s' : ServerState) : Prop :=
  ∀ cid c', s'.session.lookup cid = some c' → ∃ c, s.session.lookup cid = some c ∧ Pruned c c'

theorem Within.trans (h : Within s s') (h' : Within s' s'') : Within s s'' := by
  intro cid c'' hc''
  obtain ⟨c', hc', hp'⟩ := h' cid c'' hc''
  obtain ⟨c, hc, hp⟩ := h cid c' hc'
  exact ⟨c, hc, hp.trans hp'⟩

theorem Within.insert {c c' : Channel} (hc : s.session.lookup cid = some c) (hp : Pruned c c')
    (hs : s'.session = s.session.insert cid c') : Within s s' := by
  intro x d hd
  rw [hs] at hd
  by_cases hx : x = cid
  · subst hx
    rw [AList.lookup_insert] at hd
    obtain rfl := Option.some.inj hd
    exact ⟨c, hc, hp⟩
  · rw [AList.lookup_insert_ne hx] at hd
    exact ⟨d, hd, .refl d⟩

theorem Within.erase (hs : s'.session = s.session.erase cid) : Within s s' := by
  intro x d hd
  rw [hs] at hd
  by_cases hx : x = cid
  · subst hx
    exact absurd ((AList.lookup_erase _ _).symm.trans hd) (Option.some_ne_none d).symm
  · exact ⟨d, (AList.lookup_erase_ne hx).symm.trans hd, .refl d⟩

theorem Within.jab {f : Channel → Channel} {session : Map String Channel}
    (h : jab s.session cid f = some session) (hf : ∀ c, Pruned c (f c)) (hs : s'.session = session) : Within s s' := by
  obtain ⟨c, hc, rfl⟩ := Option.map_eq_some_iff.mp h
  exact .insert hc (hf c) hs

/-! ### Arms that say nothing -/

/-- A GET that is served: it is of the channel's owner, and in its mode. -/
structure Served (cid : String) (identity : Identity) (request : Request) (s : ServerState) (c : Channel) : Prop where
  lookup : s.session.lookup cid = some c
  owner : identity = c.identity
  mode : findChannelMode "GET" request.headerList = c.mode

/-- The event id that a request brings along. -/
def lastEventId (roof : Roof) (request : Request) : Option ℕ :=
  (getHeader "last-event-id" request.headerList).bind roof.dum

/-- The channels are ones that were there before, with nothing added to their queues, or have been opened. -/
def Opened (s s' : ServerState) : Prop :=
  ∀ cid c', s'.session.lookup cid = some c' → (∃ c, s.session.lookup cid = some c ∧ Pruned c c') ∨
    s.session.lookup cid = none ∧ c'.nextId = 0 ∧ c'.events = []

theorem Within.opened (h : Within s s') : Opened s s' := fun cid c' hc' => .inl (h cid c' hc')

theorem Opened.within (h : Opened s s') (h' : Within s' s'') : Opened s s'' := by
  intro cid c'' hc''
  obtain ⟨c', hc', hp⟩ := h' cid c'' hc''
  obtain ⟨c, hc, hp'⟩ | ⟨hnone, hid, hev⟩ := h cid c' hc'
  · exact .inl ⟨c, hc, hp'.trans hp⟩
  · exact .inr ⟨hnone, hp.nextId.trans hid, List.eq_nil_of_suffix_nil (hev ▸ hp.events)⟩

variable {r : ChannelRequest} {l l' : PutLoop}

/-- **Events are recorded on a channel**: each takes the next id and goes to the end of the queue, and they are said to
the request that listens, one after the other, if there is one. -/
structure Recorded (roof : Roof) (duct : Duct) (cid : String) (s s' : ServerState) (moves : List Move) (c c' : Channel)
    (new : List (QueuedEvent × String)) : Prop where
  before : s.session.lookup cid = some c
  after : s'.session.lookup cid = some c'
  events : c'.events = c.events ++ new.map Prod.fst
  ids : new.map (fun p => p.1.id) = List.range' c.nextId new.length
  nextId : c'.nextId = c.nextId + new.length
  texts : ∀ p ∈ new, ∃ cache, channelEventToTape roof duct c.mode p.1.requestId p.1.event = some (some (cache, p.2))
  said : said moves = match c.state with
    | .inl _ => []
    | .inr d => new.map fun p => (d, eventOcts p.1.id p.2)
  others : ∀ k, k ≠ cid → s'.session.lookup k = s.session.lookup k

end Eyre
end Ursockets
