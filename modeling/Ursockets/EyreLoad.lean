/-
# Loading an old state

`+load` of `arvo/eyre.hoon`: the versions of eyre's state, and the steps from each to the next
until it is the present one. Old connections and sessions become those of our own identity, and
so do channels.

The step from 2023.3.16 drops the queue of each channel for kicks of its subscriptions, with ids
from the channel's counter on. The counter that the loop goes on with is not the one that
is kept, so the first kick has an id that is given again. Later steps leave channels as
they are.

Key definitions: `AxleAny`, `kickLoop`, `load20230316`, `load`, `Fresh`, `Upgrades`.
Key theorems: `kickLoop_below_iff`, `load_fresh_iff`.
-/
import Ursockets.EyreBinding
import Ursockets.Eauth

namespace Ursockets
namespace Eyre

/-! ### Old data -/

/-- `outstanding-connection-3`. -/
structure OutstandingConnection3 where
  action : Action
  inboundRequest : InboundRequest
  responseHeader : Option ResponseHeader
  bytesSent : ℕ

/-- `session-3`. -/
structure Session3 where
  expiryTime : Da
  channels : List String

/-- `channel-event-2`: a fact has no desk. -/
inductive ChannelEvent2 where
  | pokeAck (tang : Option String)
  | watchAck (tang : Option String)
  | kick
  | fact (mark noun : String)

/-- `channel-2`. -/
structure Channel2 where
  state : Timer ⊕ Duct
  nextId : ℕ
  lastAck : Da
  events : List (ℕ × ℕ × ChannelEvent2)
  unacked : Map ℕ ℕ
  subscriptions : Map ℕ Subscription
  heartbeat : Option Timer

/-- `channel-3`. -/
structure Channel3 where
  mode : Mode
  state : Timer ⊕ Duct
  nextId : ℕ
  lastAck : Da
  events : List QueuedEvent
  unacked : Map ℕ ℕ
  subscriptions : Map ℕ Subscription
  heartbeat : Option Timer

/-- `authentication-state`. -/
structure AuthenticationState where
  sessions : Map ℕ Session
  visitors : Map ℕ Visitor
  visiting : Map Ship Logbook
  endpoint : Endpoint

/-- What all versions of the server's state have, of what the steps work on: whether http is redirected, whether
there is a certificate, and the port for https. -/
structure Common (Conn Auth Chan : Type) where
  bindings : List Bound
  connections : Map Duct Conn
  auth : Auth
  session : Map String Chan
  ductToKey : Map Duct String
  redirect : Bool
  secure : Bool
  securePort : Option ℕ
  outgoingDuct : Duct

abbrev ServerState0 : Type := Common OutstandingConnection3 (Map ℕ Session3) Channel2

/-- `server-state-1`. -/
structure ServerState1 extends ServerState0 where
  verb : ℕ

/-- `server-state-2`, with the urls of the cache. -/
structure ServerState2 extends ServerState1 where
  cache : List String

/-- `server-state-3`. -/
structure ServerState3 extends Common OutstandingConnection3 (Map ℕ Session3) Channel3 where
  verb : ℕ
  cache : List String

/-- `server-state-4`. -/
structure ServerState4 extends Common OutstandingConnection AuthenticationState Channel where
  verb : ℕ
  cache : List String

/-- `server-state-5`. -/
structure ServerState5 extends ServerState4 where
  checkSessionTimer : Bool

/-- `server-state`, as it is now. -/
structure ServerState6 extends ServerState5 where
  sockets : Map ℕ WebsocketConnection

/-- `axle-any`. -/
inductive AxleAny where
  | v20201018 (s : ServerState0)
  | v20220726 (s : ServerState0)
  | v20230217 (s : ServerState1)
  | v20230316 (s : ServerState2)
  | v20230411 (s : ServerState3)
  | v20230515 (s : ServerState4)
  | v20240820 (s : ServerState4)
  | v20250131 (s : ServerState5)
  | v20251028 (s : ServerState6)

/-! ### The steps -/

/-- `run:by`. -/
def runBy {κ α β : Type} [DecidableEq κ] (f : α → β) (m : Map κ α) : Map κ β where
  entries := m.entries.map fun e => ⟨e.1, f e.2⟩
  nodupKeys := by
    have h : (m.entries.map fun e => (⟨e.1, f e.2⟩ : Sigma fun _ : κ => β)).keys = m.entries.keys := List.map_map
    rw [List.NodupKeys, h]
    exact m.nodupKeys

theorem lookup_runBy {κ α β : Type} [DecidableEq κ] (f : α → β) (m : Map κ α) (k : κ) :
    (runBy f m).lookup k = (m.lookup k).map f := by
  have h : ∀ l : List (Sigma fun _ : κ => α),
      List.dlookup k (l.map fun e => (⟨e.1, f e.2⟩ : Sigma fun _ : κ => β)) = (List.dlookup k l).map f := by
    intro l
    induction l with
    | nil => rfl
    | cons e l ih =>
      obtain ⟨k', x⟩ := e
      rw [List.map_cons]
      by_cases hk : k = k'
      · subst hk
        rw [List.dlookup_cons_eq, List.dlookup_cons_eq]
        rfl
      · rw [List.dlookup_cons_ne _ _ hk, List.dlookup_cons_ne _ _ hk, ih]
  exact h m.entries

/-- A binding of eyre's own, with its action. -/
def insertOwn (duct : Duct) (bindings : List Bound) (b : String × Action) : List Bound :=
  insertBinding ⟨⟨none, ["~", b.1]⟩, duct, b.2⟩ bindings

/-- Adds `/~/name`. -/
def load20201018 (s : ServerState0) : ServerState0 :=
  { s with bindings := insertOwn s.outgoingDuct s.bindings ("name", .name) }

/-- Https redirects, where there is a certificate. -/
def load20220726 (s : ServerState0) : ServerState1 :=
  { s with redirect := s.securePort.isSome && s.secure, verb := 0 }

/-- The cache. -/
def load20230217 (s : ServerState1) : ServerState2 := { s with cache := [] }

/-- The loop over the subscriptions of a channel, with its counter and the new queue. -/
def kickLoop (nextId : ℕ) (events : List QueuedEvent) : List ℕ → List QueuedEvent
  | [] => events
  | i :: l => kickLoop (nextId + 1) (events ++ [⟨nextId, i, .kick⟩]) l

/-- A channel, whose subscriptions are all kicked. -/
def kickChannel (c : Channel2) : Channel3 :=
  { c with mode := .json, events := kickLoop c.nextId [] c.subscriptions.keys, unacked := ∅, subscriptions := ∅ }

/-- Modes of channels, and desks of events. -/
def load20230316 (s : ServerState2) : ServerState3 := { s with session := runBy kickChannel s.session }

/-- An identity for each session and channel, and a session for each request. -/
def load20230411 (now : Da) (s : ServerState3) : ServerState4 := { s with
  connections := runBy (fun o => ⟨o.action, o.inboundRequest, 0, .ours, o.responseHeader, o.bytesSent⟩) s.connections
  auth := ⟨runBy (fun o => ⟨.ours, o.expiryTime, o.channels⟩) s.auth, ∅, ∅, ⟨none, none, now⟩⟩
  session := runBy (fun c =>
    ⟨c.mode, .ours, c.state, c.nextId, c.lastAck, c.events, c.unacked, c.subscriptions, c.heartbeat⟩) s.session
  bindings := [("eauth", .eauth), ("host", .host)].foldl (insertOwn s.outgoingDuct) s.bindings }

/-- Adds `/~/boot`, `/~/sponsor` and `/~/ip`. -/
def load20230515 (s : ServerState4) : ServerState4 :=
  let own := [("ip", .ip), ("sponsor", .sponsor), ("boot", .boot)]
  { s with bindings := own.foldl (insertOwn s.outgoingDuct) s.bindings }

/-- The check of the timer of the sessions. -/
def load20240820 (s : ServerState4) : ServerState5 := { s with checkSessionTimer := true }

/-- The websockets. -/
def load20250131 (s : ServerState5) : ServerState6 := { s with sockets := ∅ }

/-- `+load`. -/
def load (now : Da) : AxleAny → ServerState6
  | .v20201018 s => loadChannels now (load20230217 (load20220726 (load20201018 s)))
  | .v20220726 s => loadChannels now (load20230217 (load20220726 s))
  | .v20230217 s => loadChannels now (load20230217 s)
  | .v20230316 s => loadChannels now s
  | .v20230411 s => load20250131 (load20240820 (load20230515 (load20230411 now s)))
  | .v20230515 s => load20250131 (load20240820 (load20230515 s))
  | .v20240820 s => load20250131 (load20240820 s)
  | .v20250131 s => load20250131 s
  | .v20251028 s => s
where
  /-- The steps from 2023.3.16 on. -/
  loadChannels (now : Da) (s : ServerState2) : ServerState6 :=
    load20250131 (load20240820 (load20230515 (load20230411 now (load20230316 s))))

/-! ### Ids -/

/-- The counter of a channel is past the events of its queue. -/
def Fresh (nextId : ℕ) (events : List QueuedEvent) : Prop := ∀ e ∈ events, e.id < nextId

/-- The counter of each channel is past its queue. -/
def AllFresh (session : Map String Channel) : Prop := ∀ cid c, session.lookup cid = some c → Fresh c.nextId c.events

/-- The old states whose channels have counters past their queues once they are loaded: those with a queue that is
kept had it so, and of the others no channel has a subscription. -/
def Upgrades : AxleAny → Prop
  | .v20201018 s => ∀ cid c, s.session.lookup cid = some c → c.subscriptions.keys = []
  | .v20220726 s => ∀ cid c, s.session.lookup cid = some c → c.subscriptions.keys = []
  | .v20230217 s => ∀ cid c, s.session.lookup cid = some c → c.subscriptions.keys = []
  | .v20230316 s => ∀ cid c, s.session.lookup cid = some c → c.subscriptions.keys = []
  | .v20230411 s => ∀ cid c, s.session.lookup cid = some c → Fresh c.nextId c.events
  | .v20230515 s => AllFresh s.session
  | .v20240820 s => AllFresh s.session
  | .v20250131 s => AllFresh s.session
  | .v20251028 s => AllFresh s.session

theorem mem_kickLoop {e : QueuedEvent} : ∀ (l : List ℕ) (n : ℕ) (events : List QueuedEvent), e ∈ events →
    e ∈ kickLoop n events l
  | [], _, _, h => h
  | _ :: l, _, _, h => mem_kickLoop l _ _ (List.mem_append_left _ h)

/-- The kicks are below the counter they began with only where there are none. -/
theorem kickLoop_below_iff (n : ℕ) (l : List ℕ) : Fresh n (kickLoop n [] l) ↔ l = [] := by
  constructor
  · intro h
    cases l with
    | nil => rfl
    | cons i l =>
      have hfirst := h ⟨n, i, .kick⟩ (mem_kickLoop l _ _ (List.mem_singleton.mpr rfl))
      exact absurd hfirst (Nat.lt_irrefl n)
  · rintro rfl
    exact fun e he => absurd he List.not_mem_nil

/-- What holds of the channels of a map whose values are changed. -/
theorem forall_runBy {α β : Type} (f : α → β) (m : Map String α) (P : β → Prop) :
    (∀ cid c, (runBy f m).lookup cid = some c → P c) ↔ ∀ cid c, m.lookup cid = some c → P (f c) := by
  constructor
  · intro h cid c hc
    exact h cid (f c) (by rw [lookup_runBy, hc]; rfl)
  · intro h cid c hc
    rw [lookup_runBy] at hc
    obtain ⟨c', hc', rfl⟩ := Option.map_eq_some_iff.mp hc
    exact h cid c' hc'

theorem load20230411_fresh_iff (now : Da) (s : ServerState3) : AllFresh (load20230411 now s).session ↔
    ∀ cid c, s.session.lookup cid = some c → Fresh c.nextId c.events :=
  forall_runBy _ s.session fun c : Channel => Fresh c.nextId c.events

/-- The channels after the step from 2023.3.16. -/
theorem load20230316_fresh_iff (now : Da) (s : ServerState2) :
    AllFresh (load20230411 now (load20230316 s)).session ↔
      ∀ cid c, s.session.lookup cid = some c → c.subscriptions.keys = [] := by
  rw [load20230411_fresh_iff]
  refine (forall_runBy kickChannel s.session fun c : Channel3 => Fresh c.nextId c.events).trans ?_
  exact forall_congr' fun _ => forall_congr' fun c => imp_congr_right fun _ => kickLoop_below_iff c.nextId _

/-- **Loading** leaves every channel's counter past its queue just for these states. -/
theorem load_fresh_iff (now : Da) (old : AxleAny) : AllFresh (load now old).session ↔ Upgrades old := by
  cases old with
  | v20201018 s => exact load20230316_fresh_iff now (load20230217 (load20220726 (load20201018 s)))
  | v20220726 s => exact load20230316_fresh_iff now (load20230217 (load20220726 s))
  | v20230217 s => exact load20230316_fresh_iff now (load20230217 s)
  | v20230316 s => exact load20230316_fresh_iff now s
  | v20230411 s => exact load20230411_fresh_iff now s
  | v20230515 s => exact Iff.rfl
  | v20240820 s => exact Iff.rfl
  | v20250131 s => exact Iff.rfl
  | v20251028 s => exact Iff.rfl

/-- A channel with a subscription and no events, whose next event has the id 1. -/
def subscribed : ServerState2 where
  bindings := []
  connections := ∅
  auth := ∅
  session := (∅ : Map String Channel2).insert "c"
    ⟨.inl ⟨9, 7⟩, 1, 0, [], ∅, (∅ : Map ℕ Subscription).insert 0 ⟨0, "app", ["path"], 7⟩, none⟩
  ductToKey := ∅
  redirect := false
  secure := false
  securePort := none
  outgoingDuct := 0
  verb := 0
  cache := []

/-- Once it is loaded, the queue has a kick with the id of the channel's next event. -/
theorem load_reuses : ((load 5 (.v20230316 subscribed)).session.lookup "c").map (fun c =>
    (c.nextId, c.events.map (·.id))) = some (1, [1]) ∧ ¬ AllFresh (load 5 (.v20230316 subscribed)).session := by
  have hrun : ((load 5 (.v20230316 subscribed)).session.lookup "c").map (fun c => (c.nextId, c.events)) =
      some (1, [⟨1, 0, .kick⟩]) := by decide +kernel
  obtain ⟨c, hc, he⟩ := Option.map_eq_some_iff.mp hrun
  obtain ⟨hnext, hevents⟩ := Prod.mk.inj he
  refine ⟨by rw [hc, Option.map_some, hnext, hevents]; rfl, fun h => ?_⟩
  have hlt := h "c" c hc ⟨1, 0, .kick⟩ (by rw [hevents]; exact List.mem_singleton.mpr rfl)
  rw [hnext] at hlt
  exact absurd hlt (Nat.lt_irrefl 1)

end Eyre
end Ursockets
