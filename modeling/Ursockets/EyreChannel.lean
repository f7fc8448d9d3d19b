/-
# Eyre's channels

The channel system of `arvo/eyre.hoon`: a client puts commands on a channel and
listens to it by a request that stays open. Each event for the client gets an id and
is kept until the client acknowledges it, so that it can be sent again when the
client comes back. A channel that nobody listens to has a timer that discards it.

Key definitions: `ChannelRequest`, `onCancelRequest`, `updateTimeoutTimerFor`,
`onGetRequest`, `acknowledgeEvents`, `putStep`, `onPutRequest`, `onGallResponse`,
`emitEvent`, `onChannelHeartbeat`, `discardChannel`, `channelRequest`, `cancelRequest`,
`born`, `trim`, `closeSession`.
-/
import Ursockets.Eyre
import Mathlib.Data.List.Sort

namespace Ursockets
namespace Eyre

/-- `channel-request`. -/
inductive ChannelRequest where
  | ack (eventId : ℕ)
  | poke (requestId : ℕ) (ship : Ship) (app mark noun : String)
  | pokeJson (requestId : ℕ) (ship : Ship) (app mark json : String)
  | subscribe (requestId : ℕ) (ship : Ship) (app : String) (path : Path)
  | unsubscribe (requestId subscriptionId : ℕ)
  | delete
  deriving DecidableEq

/-- `sign:agent:gall`. -/
inductive Sign where
  | pokeAck (tang : Option String)
  | watchAck (tang : Option String)
  | kick
  | fact (mark noun : String)
  deriving DecidableEq

def Sign.isPokeAck : Sign → Bool
  | .pokeAck _ => true
  | _ => false

def ChannelEvent.isFact : ChannelEvent → Bool
  | .fact _ _ _ => true
  | _ => false

/-- What the channels take from the standard library and from scries: the reading of
event ids and of the bodies of PUTs, the error pages, the desk of an agent, the nouns that
are json, the conversions of marks into json, which may crash, and the texts of events. -/
structure Roof where
  dum : String → Option ℕ
  parseChannelRequest : Mode → Octs → Except String (List ChannelRequest)
  errorPage : ℕ → Bool → String → String → Octs
  desk : String → Option String
  softJson : String → Option String
  tube : String → String → Option (String → Option String)
  enJson : ℕ → ChannelEvent → Option String → String
  enJam : ℕ → ChannelEvent → String

variable (text : Text) (roof : Roof) (our : Ship) (now : Da) (duct : Duct)

/-- `channel-timeout`: twelve hours. -/
def channelTimeout : Da := 12 * 3600 * 2 ^ 64

/-- `clog-timeout`: thirty seconds. -/
def clogTimeout : Da := 30 * 2 ^ 64

/-- `clog-threshold`. -/
def clogThreshold : ℕ := 50

/-- `~s20`, between two heartbeats. -/
def heartbeatTime : Da := 20 * 2 ^ 64

/-! ### The queue of events -/

/-- `+prune-events`, with how many events of each request have been acknowledged. -/
def pruneEvents (acked : Map ℕ ℕ) (id : ℕ) : List QueuedEvent → Map ℕ ℕ × List QueuedEvent
  | [] => (acked, [])
  | e :: q =>
    if id < e.id then (acked, e :: q)
    else pruneEvents (acked.insert e.requestId ((acked.lookup e.requestId).getD 0 + 1)) id q

/-- `+subtract-acked-events`. -/
def subtractAckedEvents (acked unacked : Map ℕ ℕ) : Map ℕ ℕ :=
  acked.entries.foldl (fun unacked a =>
    match unacked.lookup a.1 with
    | none => unacked
    | some sus => unacked.insert a.1 (sus - a.2)) unacked

/-- `+find-channel-mode`. -/
def findChannelMode (method : String) (headers : List (String × String)) : Mode :=
  let key := if method = "GET" then "x-channel-format" else "content-type"
  if (getHeader key headers).map String.toLower = some "application/x-urb-jam" then .jam else .json

/-- `jab:by`: the map with the value of a key changed, where there is one. -/
def jab {κ α : Type} [DecidableEq κ] (m : Map κ α) (k : κ) (f : α → α) : Option (Map κ α) :=
  (m.lookup k).map fun a => m.insert k (f a)

/-- `+channel-event-to-json`, and its text. The moves keep the conversion in the cache. -/
def channelEventToJson (requestId : ℕ) (event : ChannelEvent) : Option (Option (List Move × String)) :=
  match event with
  | .fact desk mark noun =>
    if mark = "json" then
      some ((roof.softJson noun).map fun j => ([], roof.enJson requestId (.fact desk mark j) none))
    else
      match roof.tube desk mark with
      | none => some none
      | some convert => (convert noun).map fun j =>
          some ([⟨duct, .warp (.conversionCache mark) desk mark⟩], roof.enJson requestId (.fact desk mark j)
            (some mark))
  | event => some (some ([], roof.enJson requestId event none))

/-- `+channel-event-to-tape`. -/
def channelEventToTape (mode : Mode) (requestId : ℕ) (event : ChannelEvent) : Option (Option (List Move × String)) :=
  match mode with
  | .json => channelEventToJson roof duct requestId event
  | .jam => some (some ([], roof.enJam requestId event))

/-- `+event-tape-to-wall` and `+wall-to-octs`. -/
def eventOcts (eventId : ℕ) (tape : String) : Octs :=
  "id: " ++ toString eventId ++ "\n" ++ "data: " ++ tape ++ "\n" ++ "\n"

/-! ### Timers -/

def setHeartbeatMove (channelId : String) (date : Da) : Move := ⟨duct, .wait (.channelHeartbeat channelId) date⟩

def cancelHeartbeatMove (channelId : String) (t : Timer) : Move := ⟨t.duct, .rest (.channelHeartbeat channelId) t.date⟩

def setTimeoutMove (channelId : String) (date : Da) : Move := ⟨duct, .wait (.channelTimeout channelId) date⟩

def cancelTimeoutMove (channelId : String) (t : Timer) : Move := ⟨t.duct, .rest (.channelTimeout channelId) t.date⟩

/-- The moves that cancel a channel's heartbeat. -/
def heartbeatCancel (channelId : String) (c : Channel) : List Move :=
  (c.heartbeat.map (cancelHeartbeatMove channelId)).toList

/-- `+on-cancel-request`: the channel waits. -/
def onCancelRequest (s : ServerState) : Option (List Move × ServerState) :=
  match s.ductToKey.lookup duct with
  | none => some ([], s)
  | some channelId =>
    match s.session.lookup channelId with
    | none => some ([], s)
    | some c =>
      match c.state with
      | .inl _ => none
      | .inr _ =>
        some (heartbeatCancel channelId c ++ [setTimeoutMove duct channelId (now + channelTimeout)],
          { s with
            session := s.session.insert channelId { c with
              state := .inl ⟨now + channelTimeout, duct⟩, heartbeat := none },
            ductToKey := s.ductToKey.erase duct })

/-- `+update-timeout-timer-for`, on the moves so far. -/
def updateTimeoutTimerFor (mode : Mode) (identity : Identity) (channelId : String) (moves : List Move)
    (s : ServerState) : List Move × ServerState :=
  let date := now + channelTimeout
  match s.session.lookup channelId with
  | none =>
    let c : Channel := ⟨mode, identity, .inl ⟨date, duct⟩, 0, now, [], ∅, ∅, none⟩
    (setTimeoutMove duct channelId date :: moves, { s with session := s.session.insert channelId c })
  | some c =>
    match c.state with
    | .inr _ => (moves, s)
    | .inl t =>
      (cancelTimeoutMove channelId t :: setTimeoutMove duct channelId date :: moves,
        { s with session := s.session.insert channelId { c with state := .inl ⟨date, duct⟩ } })

/-! ### Listening -/

/-- `+acknowledge-events`. -/
def acknowledgeEvents (channelId : String) (lastEventId : ℕ) (s : ServerState) : Option ServerState :=
  (jab s.session channelId fun c =>
    let (acked, events) := pruneEvents ∅ lastEventId c.events
    { c with events := events, unacked := subtractAckedEvents acked c.unacked, lastAck := now }).map
  fun session => { s with session := session }

/-- The events of a queue that go to the client again: each that has a text. -/
def eventReplay (mode : Mode) : List QueuedEvent → Option (List (ℕ × String))
  | [] => some []
  | e :: q => do
    let said ← channelEventToTape roof duct mode e.requestId e.event
    let rest ← eventReplay mode q
    some (said.elim rest fun r => (e.id, r.2) :: rest)

/-- The data that a listener is sent first: the events again, or a heartbeat. -/
def replayOcts (replay : List (ℕ × String)) : Octs :=
  if replay = [] then ":\n" else String.join (replay.map fun e => eventOcts e.1 e.2)

/-- What a GET does to the listener before: a timer is cancelled, or else the listener's
heartbeat and its connection. -/
def cancelListener (channelId : String) (c : Channel) (s : ServerState) : List Move × ServerState :=
  match c.state with
  | .inl t => ([cancelTimeoutMove channelId t], s)
  | .inr d =>
    let r := handleResponse text our now d .cancel { s with ductToKey := s.ductToKey.erase d }
    (heartbeatCancel channelId c ++ r.1, r.2)

/-- `+on-get-request`. The queue that is sent again is that of the channel as it was before the
acknowledgement. -/
def onGetRequest (channelId : String) (sessionId : ℕ) (identity : Identity) (request : Request) (s : ServerState) :
    Option (List Move × ServerState) :=
  match s.session.lookup channelId with
  | none => some (returnStaticDataOnDuct text our now duct 404 "text/html" (roof.errorPage 404 false request.url "") s)
  | some c =>
    if identity ≠ c.identity then
      some (returnStaticDataOnDuct text our now duct 403 "text/html" (roof.errorPage 403 false request.url "") s)
    else if findChannelMode "GET" request.headerList ≠ c.mode then
      some (returnStaticDataOnDuct text our now duct 406 "text/html" (roof.errorPage 406 true request.url
        ("channel already established in " ++ (if c.mode = .json then "json" else "jam") ++ " mode")) s)
    else do
      let cancelled := cancelListener text our now channelId c s
      let s ← ((getHeader "last-event-id" request.headerList).bind roof.dum).elim (some cancelled.2) fun n =>
        acknowledgeEvents now channelId n cancelled.2
      let replay ← eventReplay roof duct c.mode c.events
      let http := handleResponse text our now duct
        (.start ⟨200, [("content-type", "text/event-stream"), ("cache-control", "no-cache"),
          ("connection", "keep-alive")]⟩
          (some (replayOcts replay)) false) s
      let sessions ← jab http.2.sessions sessionId fun ses =>
        { ses with channels := if channelId ∈ ses.channels then ses.channels else channelId :: ses.channels }
      let date := now + heartbeatTime
      let session ← jab http.2.session channelId fun c' =>
        { c' with mode := c.mode, state := .inr duct, heartbeat := some ⟨date, duct⟩ }
      some (setHeartbeatMove duct channelId date :: (http.1 ++ cancelled.1),
        { http.2 with session := session, sessions := sessions, ductToKey := http.2.ductToKey.insert duct channelId })

/-- `+discard-channel`. -/
def discardChannel (channelId : String) (expired : Bool) (s : ServerState) : List Move × ServerState :=
  match s.session.lookup channelId with
  | none => ([], s)
  | some c =>
    let expireCancel := match c.state with
      | .inl t => if expired then [] else [cancelTimeoutMove channelId t]
      | .inr _ => []
    (heartbeatCancel channelId c ++ expireCancel ++ c.subscriptions.entries.map fun e =>
        dealAs our e.2.duc (.channelSubscription channelId e.1 e.2.ship e.2.app (some (c.identity.source our)))
          c.identity e.2.ship e.2.app .leave,
      { s with
        session := s.session.erase channelId,
        ductToKey := match c.state with
          | .inl _ => s.ductToKey
          | .inr d => s.ductToKey.erase d })

/-! ### Commands -/

/-- What the loop over the requests of a PUT carries: the state, the moves to gall, the last
first, the errors by request, and the moves before them. -/
structure PutLoop where
  state : ServerState
  gallMoves : List Move
  errors : Map ℕ String
  moves : List Move

/-- The text of an operation on another ship, which only our own sessions may ask for. -/
def nonLocal : String := "non-local operation"

/-- One request of a PUT. In `%unsubscribe` the ship that is compared with ours is the
name of a type, and never is. -/
def putStep (channelId : String) (source : Ship) (r : ChannelRequest) (l : PutLoop) : Option PutLoop :=
  match r with
  | .ack eventId => (acknowledgeEvents now channelId eventId l.state).map fun s => { l with state := s }
  | .poke requestId ship app mark noun =>
    if source = our ∨ ship = our then
      some { l with gallMoves :=
        ⟨duct, .deal (.channelPoke channelId requestId) source ship app (.pokeAs mark (.noun noun))⟩ :: l.gallMoves }
    else some { l with errors := l.errors.insert requestId nonLocal }
  | .pokeJson requestId ship app mark json =>
    if source = our ∨ ship = our then
      some { l with gallMoves :=
        ⟨duct, .deal (.channelPoke channelId requestId) source ship app (.pokeAs mark (.json json))⟩ :: l.gallMoves }
    else some { l with errors := l.errors.insert requestId nonLocal }
  | .subscribe requestId ship app path =>
    if source = our ∨ ship = our then
      (jab l.state.session channelId fun c =>
        { c with subscriptions := c.subscriptions.insert requestId ⟨ship, app, path, duct⟩ }).map fun session =>
          { l with
            state := { l.state with session := session },
            gallMoves := ⟨duct, .deal (.channelSubscription channelId requestId ship app (some source)) source ship app
              (.watch path)⟩ :: l.gallMoves }
    else some { l with errors := l.errors.insert requestId nonLocal }
  | .unsubscribe requestId subscriptionId =>
    if source = our then
      match l.state.session.lookup channelId with
      | none => some l
      | some c =>
        match c.subscriptions.lookup subscriptionId with
        | none => some l
        | some sub => some { l with
            state := { l.state with session := l.state.session.insert channelId { c with
              subscriptions := c.subscriptions.erase subscriptionId, unacked := c.unacked.erase subscriptionId } },
            gallMoves := ⟨sub.duc, .deal (.channelSubscription channelId subscriptionId sub.ship sub.app
              (some source)) source
              sub.ship sub.app .leave⟩ :: l.gallMoves }
    else some { l with errors := l.errors.insert requestId nonLocal }
  | .delete =>
    let (moves, s) := discardChannel our channelId false l.state
    some { l with state := s, gallMoves := l.gallMoves ++ moves, moves := moves }

/-- The requests of a PUT in turn. -/
def putLoop (channelId : String) (source : Ship) : List ChannelRequest → PutLoop → Option PutLoop
  | [], l => some l
  | r :: rs, l => (putStep our now duct channelId source r l).bind (putLoop channelId source rs)

/-- The lines of the errors of a PUT. -/
def errorOcts (errors : Map ℕ String) : Octs :=
  String.join ((errors.entries.insertionSort (·.1 ≤ ·.1)).map fun e => toString e.1 ++ ": " ++ e.2 ++ "<br/>")

/-- The end of a PUT: all of it has been done, or the state is put back and the errors
are sent. -/
def putDone (before : ServerState) (l : PutLoop) : List Move × ServerState :=
  if l.errors.entries = [] then
    let (httpMoves, s) := handleResponse text our now duct (.start ⟨204, []⟩ none true) l.state
    (l.gallMoves.reverse ++ httpMoves ++ l.moves, s)
  else
    let (httpMoves, s) := returnStaticDataOnDuct text our now duct 400 "text/html" (errorOcts l.errors) before
    (httpMoves ++ l.moves, s)

/-- `+on-put-request`. -/
def onPutRequest (channelId : String) (identity : Identity) (request : Request) (s : ServerState) :
    Option (List Move × ServerState) :=
  if (s.session.lookup channelId).any fun c => identity ≠ c.identity then
    some (returnStaticDataOnDuct text our now duct 403 "text/html" (roof.errorPage 403 false request.url "") s)
  else
    match request.body with
    | none => some (returnStaticDataOnDuct text our now duct 400 "text/html"
        (roof.errorPage 400 true request.url "no put body") s)
    | some body =>
      let mode := findChannelMode "PUT" request.headerList
      match roof.parseChannelRequest mode body with
      | .error e =>
        some (returnStaticDataOnDuct text our now duct 400 "text/html" (roof.errorPage 400 true request.url e) s)
      | .ok requests =>
        let (moves, s) := updateTimeoutTimerFor now duct mode identity channelId [] s
        (putLoop our now duct channelId (identity.source our) requests ⟨s, [], ∅, moves⟩).map
          (putDone text our now duct s)

/-! ### Events -/

/-- `+sign-to-channel-event`. -/
def signToChannelEvent (sign : Sign) (c : Channel) (requestId : ℕ) : Option ChannelEvent :=
  match sign with
  | .pokeAck tang => some (.pokeAck tang)
  | .watchAck tang => some (.watchAck tang)
  | .kick => some .kick
  | .fact mark noun => do
    let sub ← c.subscriptions.lookup requestId
    let desk ← roof.desk sub.app
    some (.fact desk mark noun)

/-- The move that sends an event to the duct that listens. -/
def sendEvent (c : Channel) (eventId : ℕ) (tape : String) : List Move :=
  match c.state with
  | .inl _ => []
  | .inr d => [⟨d, .response (.continue (some (eventOcts eventId tape)) false)⟩]

/-- The facts of a request that a channel counts as not acknowledged. -/
def Channel.unackedOf (c : Channel) (requestId : ℕ) : ℕ := (c.unacked.lookup requestId).getD 0

/-- Whether one more fact finds the channel clogged. -/
def Channel.clogged (c : Channel) (requestId : ℕ) : Bool :=
  decide (clogThreshold ≤ c.unackedOf requestId) && decide (c.lastAck + clogTimeout < now)

/-- The part of `+emit-event` that records an event with a text and counts it if it is a fact. -/
def Channel.record (c : Channel) (requestId : ℕ) (event : ChannelEvent) : Channel :=
  { c with
    events := c.events ++ [⟨c.nextId, requestId, event⟩],
    nextId := c.nextId + 1,
    unacked := if event.isFact then c.unacked.insert requestId (c.unackedOf requestId + 1) else c.unacked }

/-- The part of `+emit-event` that ends a subscription, with the event that says so. -/
def Channel.quit (c : Channel) (requestId : ℕ) : Channel :=
  { c with
    subscriptions := c.subscriptions.erase requestId,
    unacked := c.unacked.erase requestId,
    events := c.events ++ [⟨c.nextId, requestId, .kick⟩],
    nextId := c.nextId + 1 }

/-- The leave of a subscription of a channel. -/
def leaveMove (channelId : String) (requestId : ℕ) (c : Channel) (sub : Subscription) : Move :=
  dealAs our duct (.channelSubscription channelId requestId sub.ship sub.app (some (c.identity.source our)))
    c.identity sub.ship sub.app .leave

/-- The part of `+emit-event` that kills a gall subscription, with the moves so far. -/
def kickSubscription (channelId : String) (requestId : ℕ) (c : Channel) (moves : List Move) (s : ServerState) :
    Option (List Move × ServerState) := do
  let sub ← c.subscriptions.lookup requestId
  let said ← channelEventToTape roof duct c.mode requestId .kick
  let (_, tape) ← said
  some ((sendEvent c c.nextId tape ++ leaveMove our duct channelId requestId c sub :: moves).reverse,
    { s with session := s.session.insert channelId (c.quit requestId) })

/-- `+emit-event`. The moves are gathered with the last first. -/
def emitEvent (channelId : String) (requestId : ℕ) (sign : Sign) (s : ServerState) : Option (List Move × ServerState) :=
  match s.session.lookup channelId with
  | none => some ([⟨duct, .flog .flog "eyre-no-channel"⟩], s)
  | some c =>
    if ¬ sign.isPokeAck ∧ requestId ∉ c.subscriptions then some ([], s)
    else
      match signToChannelEvent roof sign c requestId with
      | none => some ([], s)
      | some event =>
        match channelEventToTape roof duct c.mode requestId event with
        | none => none
        | some none => kickSubscription roof our duct channelId requestId c [] s
        | some (some (cache, tape)) =>
          let moves := sendEvent c c.nextId tape ++ cache
          if event.isFact && c.clogged now requestId then
            kickSubscription roof our duct channelId requestId (c.record requestId event) moves s
          else some (moves.reverse, { s with session := s.session.insert channelId (c.record requestId event) })

/-- `+on-gall-response`, with what the wire says of the subscription behind the request:
its ship, its agent and whom it is from. -/
def onGallResponse (channelId : String) (requestId : ℕ) (extra : Option (Ship × String × Option Ship)) (sign : Sign)
    (s : ServerState) : Option (List Move × ServerState) :=
  match s.session.lookup channelId, sign, extra with
  | none, .fact _ _, some (ship, app, as) | none, .watchAck _, some (ship, app, as) =>
    some ([⟨duct, .deal (.channelSubscription channelId requestId ship app as) (as.getD our) ship app .leave⟩], s)
  | _, _, _ => emitEvent roof our now duct channelId requestId sign s

/-- `+on-channel-heartbeat`. -/
def onChannelHeartbeat (channelId : String) (s : ServerState) : Option (List Move × ServerState) := do
  let http := handleResponse text our now duct (.continue (some ":\n") false) s
  let date := now + heartbeatTime
  let session ← jab http.2.session channelId fun c => { c with heartbeat := some ⟨date, duct⟩ }
  some (http.1 ++ [setHeartbeatMove duct channelId date], { http.2 with session := session })

/-! ### Requests, their ends, and the ends of sessions -/

/-- Whether a url is that of the channel `channelId`, by the parser of request lines. -/
abbrev ChannelUrl := String → Option String

/-- `+handle-request` of the channels. -/
def handleChannelRequest (site : ChannelUrl) (sessionId : ℕ) (identity : Identity) (request : Request)
    (s : ServerState) :
    Option (List Move × ServerState) :=
  match site request.url with
  | none => some (returnStaticDataOnDuct text our now duct 400 "text/html"
      (roof.errorPage 400 true request.url "malformed channel url") s)
  | some channelId =>
    if request.method = "PUT" then onPutRequest text roof our now duct channelId identity request s
    else if request.method = "GET" then onGetRequest text roof our now duct channelId sessionId identity request s
    else if request.method = "POST" then onPutRequest text roof our now duct channelId identity request s
    else some (returnStaticDataOnDuct text our now duct 405 "text/html"
      (roof.errorPage 405 true request.url "bad method for session endpoint") s)

/-- `+request`, for a request that its bindings lead to the channels. -/
def channelRequest (site : ChannelUrl) (eny : Eny) (secure : Bool) (address : ℕ) (request : Request) (s : ServerState) :
    Option (List Move × ServerState) := do
  let (found, s) ← sessionForRequest text our now duct eny request s
  match found with
  | .inl invalid =>
    let c : OutstandingConnection := ⟨.channel, ⟨false, secure, address, request⟩, invalid, .fake 0, none, 0⟩
    some (handleResponse text our now duct
      (.start ⟨401, [("set-cookie", sessionCookieString text our invalid none), ("content-length", "16")]⟩
        (some "bad session auth") true) { s with connections := s.connections.insert duct c })
  | .inr (sessionId, identity, som) =>
    let c : OutstandingConnection := ⟨.channel, ⟨identity = .ours, secure, address, request⟩, sessionId, identity,
      none, 0⟩
    (handleChannelRequest text roof our now duct site sessionId identity request
      { s with connections := s.connections.insert duct c }).map fun r => (som ++ r.1, r.2)

/-- `+cancel-request`. -/
def cancelRequest (s : ServerState) : Option (List Move × ServerState) :=
  match s.connections.lookup duct with
  | none => some ([], s)
  | some c =>
    let s := { s with connections := s.connections.erase duct }
    match c.action with
    | .gen _ _ => some ([], s)
    | .app app => some ([dealAs our duct (.watchResponse duct) c.identity our app .leave], s)
    | .authentication | .eauth | .logout => some ([], s)
    | .channel => onCancelRequest now duct s
    | .scry | .fourOhFour | .name | .host | .ip | .boot | .sponsor => none

/-- The connections of a runtime that is gone are cancelled one by one. -/
def cancelAll : List Duct → ServerState → Option (List Move × ServerState)
  | [], s => some ([], s)
  | d :: ds, s => do
    let (moves, s) ← cancelRequest our now d s
    let (later, s) ← cancelAll ds s
    some (later ++ moves, s)

/-- The connections that a `%born` closes. -/
def born (s : ServerState) : Option (List Move × ServerState) := cancelAll our now s.connections.keys s

/-- Channels are discarded one by one. -/
def discardAll : List String → ServerState → List Move × ServerState
  | [], s => ([], s)
  | cid :: cids, s =>
    let (moves, s) := discardChannel our cid false s
    let (later, s) := discardAll cids s
    (moves ++ later, s)

/-- `%trim`: the channels that nobody listens to are discarded. -/
def trim (s : ServerState) : List Move × ServerState :=
  discardAll our (s.session.keys.filter fun cid => cid ∉ s.ductToKey.entries.map (·.2)) s

/-- The channels that the end of a session closes, with the sessions that stay. -/
def endSessions (sessionId : ℕ) (all : Bool) (ses : Session) (s : ServerState) : List String × Map ℕ Session :=
  if all then
    let closed := s.sessions.entries.filter fun e => e.2.identity = ses.identity
    ((closed.map fun e => e.2.channels).flatten, closed.foldl (fun m e => m.erase e.1) s.sessions)
  else (ses.channels, s.sessions.erase sessionId)

/-- The end of a session of another ship's: all visitors go that have a session. -/
def shutVisitors (identity : Identity) (s : ServerState) : List Move × ServerState :=
  match identity with
  | .real _ =>
    let gone := s.visitors.entries.filter fun e => e.2.state.isLeft
    (gone.flatMap fun e => (e.2.duct.map fun d => (⟨d, .boon (.shut e.1)⟩ : Move)).toList,
      { s with visitors := gone.foldl (fun m e => m.erase e.1) s.visitors })
  | _ => ([], s)

/-- `+close-session`. -/
def closeSession (sessionId : ℕ) (all : Bool) (s : ServerState) : List Move × ServerState :=
  match s.sessions.lookup sessionId with
  | none => ([], s)
  | some ses =>
    let r := endSessions sessionId all ses s
    let r1 := discardAll our r.1 { s with sessions := r.2 }
    let r2 := shutVisitors ses.identity r1.2
    (r1.1 ++ r2.1, r2.2)

end Eyre
end Ursockets
