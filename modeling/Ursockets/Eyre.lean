/-
# Eyre, the http server vane

The data of `arvo/eyre.hoon` that its sessions, its websockets, its logins from
other ships and its channels work on, and the arms that they share: how a session is
started and found for a request, whom a deal with an agent is from, and how a
response goes out on a connection.

An arm takes the state to a list of moves and a state. One that may crash gives
an option, and a crash leaves the state as it was. What the standard library
reads out of a text is a parameter (`Text`), and so is what entropy is drawn (`Eny`).

Key definitions: `ServerState`, `Move`, `startSession`, `sessionForRequest`,
`dealAs`, `handleResponse`.
-/
import Mathlib.Algebra.Group.Nat.Defs
import Mathlib.Data.List.AList
import Mathlib.Data.Nat.Size

namespace Ursockets
namespace Eyre

/-- `@p`. -/
abbrev Ship := ℕ

/-- `@da` and `@dr`. -/
abbrev Da := ℕ

/-- `duct`: a request identifier. It is told apart from others and not looked into. -/
abbrev Duct := ℕ

/-- `path`. -/
abbrev Path := List String

/-- `(map κ α)`. -/
abbrev Map (κ α : Type) := AList fun _ : κ => α

/-- `octs`, by their text. -/
abbrev Octs := String

/-! ### Requests and connections -/

/-- `identity`: how a request is authenticated. -/
inductive Identity where
  | ours
  | fake (who : Ship)
  | real (who : Ship)
  deriving DecidableEq

/-- `request:http`. -/
structure Request where
  method : String
  url : String
  headerList : List (String × String)
  body : Option Octs
  deriving DecidableEq

/-- `inbound-request`. -/
structure InboundRequest where
  authenticated : Bool
  secure : Bool
  address : ℕ
  request : Request
  deriving DecidableEq

/-- `action`: what a binding leads to. -/
inductive Action where
  | gen (desk : String) (path : Path)
  | app (app : String)
  | authentication
  | eauth
  | logout
  | channel
  | scry
  | name
  | host
  | ip
  | boot
  | sponsor
  | fourOhFour
  deriving DecidableEq

/-- `response-header:http`. -/
structure ResponseHeader where
  statusCode : ℕ
  headers : List (String × String)
  deriving DecidableEq

/-- `http-event:http`. -/
inductive HttpEvent where
  | start (responseHeader : ResponseHeader) (data : Option Octs) (complete : Bool)
  | continue (data : Option Octs) (complete : Bool)
  | cancel
  deriving DecidableEq

/-- `outstanding-connection`. -/
structure OutstandingConnection where
  action : Action
  inboundRequest : InboundRequest
  sessionId : ℕ
  identity : Identity
  responseHeader : Option ResponseHeader
  bytesSent : ℕ
  deriving DecidableEq

/-- `websocket-message`. -/
structure WebsocketMessage where
  opcode : ℕ
  message : Option Octs
  deriving DecidableEq

/-- `websocket-event`. -/
inductive WebsocketEvent where
  | accept
  | reject
  | disconnect
  | message (message : WebsocketMessage)
  deriving DecidableEq

/-- `websocket-connection`. -/
structure WebsocketConnection where
  app : String
  inboundRequest : InboundRequest
  deriving DecidableEq

/-! ### Sessions, visitors and channels -/

/-- `session`. -/
structure Session where
  identity : Identity
  expiryTime : Da
  channels : List String
  deriving DecidableEq

/-- The part of a `visitor` that is there while its login is under way. -/
structure Pending where
  pend : Option (Duct × Da)
  ship : Ship
  base : Option String
  last : String
  toke : Option ℕ
  deriving DecidableEq

/-- `visitor`: the duct of its boons, and its session or its login under way. -/
structure Visitor where
  duct : Option Duct
  state : ℕ ⊕ Pending
  deriving DecidableEq

/-- `timer`. -/
structure Timer where
  date : Da
  duct : Duct
  deriving DecidableEq

/-- The mode of a channel. -/
inductive Mode where
  | json
  | jam
  deriving DecidableEq

/-- `channel-event`. What a noun is like is left to its type, here its text. -/
inductive ChannelEvent where
  | pokeAck (tang : Option String)
  | watchAck (tang : Option String)
  | kick
  | fact (desk mark noun : String)
  deriving DecidableEq

/-- An event of a channel's queue. -/
structure QueuedEvent where
  id : ℕ
  requestId : ℕ
  event : ChannelEvent
  deriving DecidableEq

/-- A subscription of a channel. -/
structure Subscription where
  ship : Ship
  app : String
  path : Path
  duc : Duct
  deriving DecidableEq

/-- `channel`. Its state is the timeout timer or the duct that listens; its queue has
the oldest event first. -/
structure Channel where
  mode : Mode
  identity : Identity
  state : Timer ⊕ Duct
  nextId : ℕ
  lastAck : Da
  events : List QueuedEvent
  unacked : Map ℕ ℕ
  subscriptions : Map ℕ Subscription
  heartbeat : Option Timer
  deriving DecidableEq

/-- `server-state`: the connections, the authentication state, the channel state
and the websockets. -/
structure ServerState where
  connections : Map Duct OutstandingConnection
  sessions : Map ℕ Session
  visitors : Map ℕ Visitor
  session : Map String Channel
  ductToKey : Map Duct String
  sockets : Map ℕ WebsocketConnection
  approved : List String
  deriving DecidableEq

/-- The state of a server that has served nothing. -/
def emptyState : ServerState := ⟨∅, ∅, ∅, ∅, ∅, ∅, []⟩

/-! ### Moves -/

/-- The wires of the moves. An `eyre-id` is a hash of the duct, and stands here as
the duct. -/
inductive Wire where
  | sessionsExpire
  | watchResponse (eyreId : Duct)
  | runAppRequest (eyreId : Duct)
  | wsWatchResponse (wid : ℕ)
  | runWsAppRequest (wid : ℕ)
  | channelTimeout (channelId : String)
  | channelHeartbeat (channelId : String)
  | channelPoke (channelId : String) (requestId : ℕ)
  | channelSubscription (channelId : String) (requestId : ℕ) (ship : Ship) (app : String) (as : Option Ship)
  | conversionCache (mark : String)
  | eauthKeen (ship : Ship) (nonce : ℕ)
  | eauthExpireVisitors (nonce : ℕ)
  | flog
  deriving DecidableEq

/-- What an agent is poked with. -/
inductive Cage where
  | websocketHandshake (wid : ℕ) (inboundRequest : InboundRequest)
  | websocketServerMessage (wid : ℕ) (path : Path) (message : WebsocketMessage)
  | handleHttpRequest (eyreId : Duct) (inboundRequest : InboundRequest)
  | noun (noun : String)
  | json (json : String)
  deriving DecidableEq

/-- `task:agent:gall`. -/
inductive AgentTask where
  | watch (path : Path)
  | leave
  | poke (cage : Cage)
  | pokeAs (mark : String) (cage : Cage)
  deriving DecidableEq

/-- `eauth-boon`. -/
inductive EauthBoon where
  | okay (nonce : ℕ) (url : String)
  | shut (nonce : ℕ)
  deriving DecidableEq

/-- A note or a gift. -/
inductive Card where
  | deal (wire : Wire) (source ship : Ship) (dude : String) (task : AgentTask)
  | wait (wire : Wire) (date : Da)
  | rest (wire : Wire) (date : Da)
  | warp (wire : Wire) (desk mark : String)
  | keen (wire : Wire) (ship : Ship) (time : Da)
  | yawn (wire : Wire) (ship : Ship) (time : Da)
  | flog (wire : Wire) (text : String)
  | response (httpEvent : HttpEvent)
  | websocketResponse (wid : ℕ) (event : WebsocketEvent)
  | done
  | boon (boon : EauthBoon)
  deriving DecidableEq

/-- `move`. -/
structure Move where
  duct : Duct
  card : Card
  deriving DecidableEq

/-! ### Deals -/

/-- The ship that a deal is from: that of the identity, or ours. -/
def Identity.source (our : Ship) : Identity → Ship
  | .ours => our
  | .fake who => who
  | .real who => who

/-- `+deal-as`. -/
def dealAs (our : Ship) (duct : Duct) (wire : Wire) (identity : Identity) (ship : Ship) (dude : String)
    (task : AgentTask) : Move :=
  ⟨duct, .deal wire (identity.source our) ship dude task⟩

/-! ### Sessions -/

/-- What the standard library does with texts: the parser of cookie lines, those of
the authorization header and of the cookie's value, and how ships and session keys
are written. -/
structure Text where
  cock : String → Option (List (String × String))
  bearer : String → Option ℕ
  viz : String → Option ℕ
  scowP : Ship → String
  scowUv : ℕ → String

/-- What is drawn from the entropy of an event, in the order in which it is drawn:
candidates for a session's key and for the end of a guest's name. `fein` is our name
scrambled, as it is displayed. -/
structure Eny where
  keys : List ℕ
  fein : ℕ
  names : List ℕ

/-- `session-timeout` for authenticated sessions, thirty days, and for guests, seven. -/
def sessionTimeout (guest : Bool) : Da := (if guest then 7 else 30) * 86400 * 2 ^ 64

/-- `get-header:http`. -/
def getHeader (key : String) (l : List (String × String)) : Option String :=
  (l.find? fun h => h.1 = key).map (·.2)

/-- `+session-id-from-request`. -/
def sessionIdFromRequest (text : Text) (our : Ship) (request : Request) : Option ℕ :=
  match getHeader "authorization" request.headerList with
  | some auth => text.bearer auth
  | none => do
    let cookieHeader := request.headerList.foldl
      (fun c h => if h.1 ≠ "cookie" then c else c ++ (if c = "" then "" else "; ") ++ h.2) ""
    let cookies ← text.cock cookieHeader
    let urbauth ← getHeader ("urbauth-" ++ text.scowP our) cookies
    text.viz urbauth

/-- `(end 3^n a)`. -/
def endBytes (n a : ℕ) : ℕ := a % 2 ^ (8 * n)

/-- `(cat 3 a b)`. -/
def catBytes (a b : ℕ) : ℕ := a + b * 2 ^ (8 * ((a.size + 7) / 8))

/-- The names of guests, as they are drawn. -/
def Eny.guests (eny : Eny) : List Ship :=
  eny.names.map fun raw => endBytes 16 (catBytes (endBytes 8 eny.fein) raw)

/-- The kinds of session that `+start-session` starts. -/
inductive SessionKind where
  | local
  | guest
  | eauth (who : Ship)
  deriving DecidableEq

/-- `+new-session-key`. -/
def newSessionKey (eny : Eny) (s : ServerState) : Option ℕ := eny.keys.find? fun k => k ∉ s.sessions

/-- The identity of a new session. A guest's is not ours. -/
def newIdentity (our : Ship) (eny : Eny) : SessionKind → Option Identity
  | .local => some .ours
  | .eauth who => some (.real who)
  | .guest => (eny.guests.find? fun nom => our ≠ nom).map .fake

/-- `+start-session`. -/
def startSession (our : Ship) (now : Da) (duct : Duct) (eny : Eny) (kind : SessionKind) (s : ServerState) :
    Option ((ℕ × Identity × List Move) × ServerState) := do
  let key ← newSessionKey eny s
  let sid ← newIdentity our eny kind
  let timeout := sessionTimeout (kind = .guest)
  let moves := if s.sessions.entries = [] then [⟨duct, .wait .sessionsExpire (now + timeout)⟩] else []
  some ((key, sid, moves), { s with sessions := s.sessions.insert key ⟨sid, now + timeout, []⟩ })

/-- `+session-for-request`: the key of a session that is not valid (left), or a
session's key and identity. -/
def sessionForRequest (text : Text) (our : Ship) (now : Da) (duct : Duct) (eny : Eny) (request : Request)
    (s : ServerState) : Option ((ℕ ⊕ ℕ × Identity × List Move) × ServerState) :=
  match sessionIdFromRequest text our request with
  | none => (startSession our now duct eny .guest s).map fun r => (.inr r.1, r.2)
  | some sid =>
    match s.sessions.lookup sid with
    | none => some (.inl sid, s)
    | some ses => if ses.expiryTime < now then some (.inl sid, s) else some (.inr (sid, ses.identity, []), s)

/-! ### Responses -/

/-- `+session-cookie-string`. -/
def sessionCookieString (text : Text) (our : Ship) (session : ℕ) (extend : Option Bool) : String :=
  let maxAge := extend.elim 0 fun guest => sessionTimeout guest / 2 ^ 64
  "urbauth-" ++ text.scowP our ++ "=" ++ text.scowUv session ++ "; Path=/; Max-Age=" ++ toString maxAge

/-- `set-header:http`. -/
def setHeader (key value : String) : List (String × String) → List (String × String)
  | [] => [(key, value)]
  | h :: t => if h.1 = key then (key, value) :: t else h :: setHeader key value t

/-- The cookie goes behind the headers, if it is not among them. -/
def withCookie (cookie : String × String) (headers : List (String × String)) : List (String × String) :=
  if cookie ∈ headers then headers else headers ++ [cookie]

/-- `error-connection`: the connection is removed and cancelled, and a subscription to
its agent is left. -/
def errorConnection (our : Ship) (duct : Duct) (c : OutstandingConnection) (s : ServerState) :
    List Move × ServerState :=
  (⟨duct, .response .cancel⟩ ::
      match c.action with
      | .app app => [dealAs our duct (.watchResponse duct) c.identity our app .leave]
      | _ => [],
    { s with connections := s.connections.erase duct })

/-- `+handle-response`. -/
def handleResponse (text : Text) (our : Ship) (now : Da) (duct : Duct) (e : HttpEvent) (s : ServerState) :
    List Move × ServerState :=
  match s.connections.lookup duct with
  | none => ([], s)
  | some c =>
    match e with
    | .start header data complete =>
      if c.responseHeader.isSome then errorConnection our duct c s
      else
        let (header, sessions) :=
          match s.sessions.lookup c.sessionId with
          | none => (header, s.sessions)
          | some ses =>
            let guest : Bool := match ses.identity with
              | .fake _ => true
              | _ => false
            let cookie := ("set-cookie", sessionCookieString text our c.sessionId (some guest))
            ({ header with headers := withCookie cookie header.headers },
              s.sessions.insert c.sessionId { ses with expiryTime := now + sessionTimeout guest })
        let header :=
          match getHeader "origin" c.inboundRequest.request.headerList with
          | none => header
          | some origin =>
            if origin ∈ s.approved then
              { header with headers := setHeader "Access-Control-Allow-Origin" origin
                              (setHeader "Access-Control-Allow-Credentials" "true" header.headers) }
            else header
        let connections :=
          if complete then s.connections.erase duct
          else s.connections.insert duct { c with
            responseHeader := some header, bytesSent := data.elim 0 String.length }
        ([⟨duct, .response (.start header data complete)⟩],
          { s with sessions := sessions, connections := connections })
    | .continue data complete =>
      if c.responseHeader.isNone then errorConnection our duct c s
      else
        let connections :=
          if complete then s.connections.erase duct
          else data.elim s.connections fun d => s.connections.insert duct { c with bytesSent := d.length + c.bytesSent }
        ([⟨duct, .response (.continue data complete)⟩], { s with connections := connections })
    | .cancel => errorConnection our duct c s

/-- `+return-static-data-on-duct`. -/
def returnStaticDataOnDuct (text : Text) (our : Ship) (now : Da) (duct : Duct) (code : ℕ) (contentType : String)
    (data : Octs) (s : ServerState) : List Move × ServerState :=
  handleResponse text our now duct
    (.start ⟨code, [("content-type", contentType), ("content-length", toString data.length)]⟩ (some data) true) s

end Eyre
end Ursockets
