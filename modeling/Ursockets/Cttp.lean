/-
# The http client: requests and websockets

The http client driver (`vere/io/cttp.c`): requests that are resolved, connected and answered, and websocket
sessions, each of which begins with a request of its own. Both are records in memory that are freed when they end. The
resolver and h2o's client hold the address of a request until they call back; the state tells who holds one.

An address stands for one record and is never used again. The lists of requests and of sessions
hold those in memory, the latest first. What the resolver, h2o, the network and wslay come to is
in the events. A step fails where an assertion does, and where memory is read that was freed: what
follows then is undefined.

Key definitions: `Cttp`, `creqQuit`, `creqFail`, `creqStart`, `creqResolveCb`, `creqOnHead`, `wsClose`, `wsProceed`,
`wsQueueClose`, `wsFailHandshake`, `wsStart`, `Event`, `step`.
Key theorems: `failWebsocket_eq`, `wsClose_pending`, `wsProceed_outcome`.
-/
import Ursockets.HttpResponse

namespace Ursockets
namespace HttpClient

open HttpResponse (Octs)

/-! ### The records -/

/-- `u3_csat`. -/
inductive Csat where
  | init
  | addr
  | quit
  | conn
  | ripe
  deriving DecidableEq

/-- `u3_cwsat`. -/
inductive Cwsat where
  | pending
  | opened
  | closing
  | closed
  deriving DecidableEq

/-- `u3_creq`: its number, its state, whether its address is known, whether it has a client of h2o's, its
websocket session, and the status of its response. -/
structure Creq where
  num : ℕ
  sat : Csat
  ipf : Bool
  cli : Bool
  wsu : Option ℕ
  res : Option ℕ
  deriving DecidableEq

/-- `u3_cws`: its id, its state, its handshake request, whether it has a socket and a context of
wslay's, whether wslay is running, and the close that is deferred then. -/
structure Cws where
  wid : ℕ
  sat : Cwsat
  ceq : Option ℕ
  sok : Bool
  wsl : Bool
  wslOn : Bool
  cloEv : Bool
  cloOn : Bool
  deriving DecidableEq

/-- What h2o's client calls back with next. -/
inductive Stage where
  | connect
  | head
  | body
  deriving DecidableEq

/-- A websocket event for the kernel. -/
inductive WsEvent where
  | accept
  | reject
  | disconnect
  | message (opcode : ℕ) (payload : Option Octs)
  deriving DecidableEq

/-- What there is about an address: the request, whether the resolver holds it, whether a client
of h2o's does, how often it was freed, and the responses planned for it. -/
structure Cell where
  req : Option Creq
  dns : Bool
  cli : Option Stage
  frees : ℕ
  said : List ℕ
  deriving DecidableEq

/-- A session, and the events planned for it. -/
structure Session where
  cws : Option Cws
  said : List WsEvent
  deriving DecidableEq

/-- `u3_cttp`. -/
structure Cttp where
  reqs : ℕ
  mem : ℕ → Cell
  sessions : ℕ
  ses : ℕ → Session

def Cell.new : Cell := ⟨none, false, none, 0, []⟩

def Session.new : Session := ⟨none, []⟩

/-- `u3_cttp_io_init`. -/
def Cttp.init : Cttp := ⟨0, fun _ => .new, 0, fun _ => .new⟩

def Cttp.put (s : Cttp) (p : ℕ) (x : Cell) : Cttp := { s with mem := Function.update s.mem p x }

def Cttp.say (s : Cttp) (w : ℕ) (y : Session) : Cttp := { s with ses := Function.update s.ses w y }

/-- The request at the address is written. -/
def Cttp.setReq (s : Cttp) (p : ℕ) (r : Creq) : Cttp := s.put p { s.mem p with req := some r }

/-- The session is written. -/
def Cttp.setCws (s : Cttp) (w : ℕ) (c : Cws) : Cttp := s.say w { s.ses w with cws := some c }

/-- h2o's client calls back again, or is over. -/
def Cttp.setCli (s : Cttp) (p : ℕ) (stage : Option Stage) : Cttp := s.put p { s.mem p with cli := stage }

/-- `_cttp_ws_plan_event`. -/
def Cttp.wsPlanEvent (s : Cttp) (w : ℕ) (event : WsEvent) : Cttp :=
  s.say w { s.ses w with said := (s.ses w).said ++ [event] }

/-- `_cttp_http_client_receive`. -/
def Cttp.receive (s : Cttp) (p status : ℕ) : Cttp := s.put p { s.mem p with said := (s.mem p).said ++ [status] }

/-- `_cttp_creq_find`. -/
def creqFind (num : ℕ) (s : Cttp) : Option ℕ :=
  (List.range s.reqs).reverse.find? fun p => (s.mem p).req.any fun r => r.num = num

/-- `_cttp_ws_find`. -/
def wsFind (wid : ℕ) (s : Cttp) : Option ℕ :=
  (List.range s.sessions).reverse.find? fun w => (s.ses w).cws.any fun c => c.wid = wid

/-! ### Ends -/

/-- `_cttp_creq_free`. -/
def creqFree (p : ℕ) (s : Cttp) : Option Cttp :=
  (s.mem p).req.map fun _ => s.put p { s.mem p with req := none, frees := (s.mem p).frees + 1 }

/-- The part of `_cttp_ws_close` about the handshake request. -/
def wsCloseCreq (w : ℕ) (c : Cws) (s : Cttp) : Option Cttp :=
  match c.ceq with
  | none => some s
  | some p => (s.mem p).req.bind fun r =>
    let s := s.setCws w { c with ceq := none }
    if r.wsu = some w then
      let s := s.setReq p { r with wsu := none }
      let s := if r.cli then s.setCli p none else s
      creqFree p s
    else some s

/-- `_cttp_ws_close`. A session that is closed already plans its event too. -/
def wsClose (w : ℕ) (sendEvent : Bool) (s : Cttp) : Option Cttp :=
  (s.ses w).cws.bind fun c =>
    if c.wslOn then some (s.setCws w { c with cloEv := c.cloEv || sendEvent, cloOn := true })
    else (wsCloseCreq w c s).map fun s =>
      let s := if sendEvent then s.wsPlanEvent w .disconnect else s
      s.say w { s.ses w with cws := none }

/-- `_cttp_ws_flush_close`. -/
def wsFlushClose (w : ℕ) (s : Cttp) : Option (Bool × Cttp) :=
  (s.ses w).cws.bind fun c =>
    if c.cloOn then
      (wsClose w c.cloEv (s.setCws w { c with cloOn := false, cloEv := false })).map fun s => (true, s)
    else some (false, s)

/-- `_cttp_ws_fail_handshake`. -/
def wsFailHandshake (p : ℕ) (s : Cttp) : Option Cttp :=
  (s.mem p).req.bind fun r =>
    match r.wsu with
    | none => some s
    | some w => wsClose w false ((s.setReq p { r with wsu := none }).wsPlanEvent w .reject)

/-- What becomes of a handshake request that comes to nothing. -/
def failWebsocket (p : ℕ) (s : Cttp) : Option Cttp := (wsFailHandshake p s).bind (creqFree p)

/-- `_cttp_creq_quit`. -/
def creqQuit (p : ℕ) (s : Cttp) : Option Cttp :=
  (s.mem p).req.bind fun r =>
    if r.wsu.isSome then failWebsocket p s
    else if r.sat = .addr then some (s.setReq p { r with sat := .quit })
    else creqFree p (if r.cli then s.setCli p none else s)

/-- `_cttp_creq_fail`. -/
def creqFail (p : ℕ) (s : Cttp) : Option Cttp :=
  (s.mem p).req.bind fun r => if r.wsu.isSome then failWebsocket p s else creqFree p (s.receive p 504)

/-- `_cttp_creq_respond`. -/
def creqRespond (p : ℕ) (s : Cttp) : Option Cttp :=
  (s.mem p).req.bind fun r =>
    if r.wsu.isSome then failWebsocket p s
    else r.res.bind fun status => creqFree p (s.receive p status)

/-! ### Websockets that are open -/

/-- What wslay received: a message, a close frame, or nothing. -/
inductive Frame where
  | message (opcode : ℕ) (payload : Option Octs)
  | close
  | nothing
  deriving DecidableEq

/-- What wslay returns. -/
inductive Wslay where
  | ok
  | wouldblock
  | failed
  deriving DecidableEq

/-- One turn of the loop: what wslay comes to where it wants to write, and where it wants to read. -/
structure Turn where
  send : Option Wslay
  recv : Option (List Frame × Wslay)
  deriving DecidableEq

/-- `_cttp_ws_msg_cb`. -/
def wsMsgCb (w : ℕ) (s : Cttp) : Frame → Option Cttp
  | .nothing => wsClose w true s
  | .close => wsClose w true s
  | .message opcode payload => some (s.wsPlanEvent w (.message opcode payload))

/-- Whether wslay was handled, or the session is gone. -/
inductive Handled where
  | yes
  | no
  | gone
  deriving DecidableEq

/-- A call of `wslay_event_send` or `wslay_event_recv` by `_cttp_ws_proceed`, with the frames received in it. -/
def wsCall (w : ℕ) (frames : List Frame) (sas : Wslay) (s : Cttp) : Option (Handled × Cttp) :=
  (s.ses w).cws.bind fun c => ((frames.foldlM (wsMsgCb w) (s.setCws w { c with wslOn := true })).bind fun s =>
    (s.ses w).cws.bind fun c => (wsFlushClose w (s.setCws w { c with wslOn := false })).bind fun (gone, s) =>
      if gone then some (.gone, s)
      else match sas with
        | .ok => some (.yes, s)
        | .wouldblock => some (.no, s)
        | .failed => (wsClose w true s).map fun s => (.gone, s))

/-- The call, where wslay wants it. -/
def wsWanted (w : ℕ) (call : Option (List Frame × Wslay)) (s : Cttp) : Option (Handled × Cttp) :=
  match call with
  | none => some (.no, s)
  | some (frames, sas) => wsCall w frames sas s

/-- The loop of `_cttp_ws_proceed`. -/
def wsLoop (w : ℕ) : List Turn → Cttp → Option Cttp
  | [], s => some s
  | t :: ts, s => (wsWanted w (t.send.map fun sas => ([], sas)) s).bind fun (sent, s) =>
    if sent = .gone then some s
    else (wsWanted w t.recv s).bind fun (got, s) =>
      if got = .gone then some s
      else if sent = .no ∧ got = .no then some s else wsLoop w ts s

/-- `_cttp_ws_proceed`. -/
def wsProceed (w : ℕ) (turns : List Turn) (s : Cttp) : Option Cttp :=
  (s.ses w).cws.bind fun c => if c.sok then wsLoop w turns s else some s

/-- `_cttp_ws_read_cb` and `_cttp_ws_write_cb`. -/
def wsSockCb (w : ℕ) (err : Bool) (turns : List Turn) (s : Cttp) : Option Cttp :=
  if err then wsClose w true s else wsProceed w turns s

/-- `_cttp_ws_queue_close`. A close that is under way already is not asked for again, but closes the session. -/
def wsQueueClose (w : ℕ) (turns : List Turn) (s : Cttp) : Option Cttp :=
  (s.ses w).cws.bind fun c =>
    if c.sat ≠ .opened ∨ c.wsl = false then wsClose w true s
    else if c.sat = .closing then some s
    else wsProceed w turns (s.setCws w { c with sat := .closing })

/-- `_cttp_ws_send_message`, where the message is well formed and wslay queues it, or not. -/
def wsSendMessage (w : ℕ) (queued : Bool) (turns : List Turn) (s : Cttp) : Option Cttp :=
  (s.ses w).cws.bind fun c =>
    if c.sat ≠ .opened ∨ c.wsl = false ∨ queued = false then some s else wsProceed w turns s

/-! ### Requests -/

/-- h2o's errors: the end of the stream, and the others. -/
inductive H2oError where
  | eos
  | other
  deriving DecidableEq

/-- The head of a response: an error, the status, whether it has the right key, whether the socket
could be taken, and what wslay comes to then. -/
structure Head where
  err : Option H2oError
  sas : ℕ
  accept : Bool
  steal : Bool
  turns : List Turn
  deriving DecidableEq

/-- `_cttp_creq_on_body`. -/
def creqOnBody (p : ℕ) (err : Option H2oError) (s : Cttp) : Option Cttp :=
  (s.mem p).req.bind fun r =>
    if r.wsu.isSome then failWebsocket p s
    else match err with
      | some .other => creqFail p s
      | some .eos => r.res.bind fun _ => creqRespond p s
      | none => r.res.map fun _ => s.setCli p (some .body)

/-- `_cttp_creq_on_head` for a websocket: the session is opened. -/
def wsOnHead (p w : ℕ) (hed : Head) (s : Cttp) : Option Cttp :=
  if hed.err = some .other ∨ hed.sas ≠ 101 ∨ hed.accept = false ∨ hed.steal = false then failWebsocket p s
  else (s.ses w).cws.bind fun c => (creqFree p s).bind fun s =>
    wsProceed w hed.turns
      ((s.setCws w { c with ceq := none, wsl := true, sok := true, sat := .opened }).wsPlanEvent w .accept)

/-- `_cttp_creq_on_head`. -/
def creqOnHead (p : ℕ) (hed : Head) (s : Cttp) : Option Cttp :=
  (s.mem p).req.bind fun r =>
    match r.wsu with
    | some w => wsOnHead p w hed s
    | none =>
      if hed.err = some .other then creqFail p s
      else
        let s := s.setReq p { r with res := some hed.sas }
        if hed.err = some .eos then creqRespond p s else some (s.setCli p (some .body))

/-- `_cttp_creq_on_connect`. Where h2o connects synchronously, the caller cleans up. -/
def creqOnConnect (p : ℕ) (ok : Bool) (s : Cttp) : Option Cttp :=
  (s.mem p).req.bind fun r =>
    if ok then some (s.setCli p (some .head))
    else match r.sat with
      | .conn => some (s.setReq p { r with sat := .quit })
      | .ripe => creqFail p s
      | _ => none

/-- `_cttp_creq_connect`, where h2o can create the socket or not. -/
def creqConnect (p : ℕ) (sync : Bool) (s : Cttp) : Option Cttp :=
  (s.mem p).req.bind fun r =>
    if r.sat = .conn ∧ r.ipf then
      if sync then
        some (s.put p { s.mem p with req := some { r with cli := true, sat := .ripe }, cli := some .connect })
      else (creqOnConnect p false s).bind (creqFail p)
    else none

/-- `_cttp_creq_resolve_cb`. -/
def creqResolveCb (p : ℕ) (ok sync : Bool) (s : Cttp) : Option Cttp :=
  (s.mem p).req.bind fun r =>
    if r.sat = .quit then creqQuit p s
    else if ok then creqConnect p sync (s.setReq p { r with ipf := true, sat := .conn })
    else creqFail p s

/-- `_cttp_creq_resolve`, where libuv takes the request or not. -/
def creqResolve (p : ℕ) (sync : Bool) (s : Cttp) : Option Cttp :=
  (s.mem p).req.bind fun r =>
    if r.sat = .addr then if sync then some (s.put p { s.mem p with dns := true }) else creqFail p s
    else none

/-- `_cttp_creq_start`. -/
def creqStart (p : ℕ) (sync : Bool) (s : Cttp) : Option Cttp :=
  (s.mem p).req.bind fun r =>
    if r.ipf then creqConnect p sync (s.setReq p { r with sat := .conn })
    else creqResolve p sync (s.setReq p { r with sat := .addr })

/-- `_cttp_creq_new`, of a url that was parsed. -/
def creqNew (num : ℕ) (ipf : Bool) (wsu : Option ℕ) (s : Cttp) : Cttp :=
  { s with
    reqs := s.reqs + 1,
    mem := Function.update s.mem s.reqs { Cell.new with req := some ⟨num, .init, ipf, false, wsu, none⟩ } }

/-- A session that has no request yet. -/
def Cws.new (wid : ℕ) : Cws := ⟨wid, .pending, none, false, false, false, false, false⟩

/-- A session is allocated and linked. -/
def wsNew (wid : ℕ) (s : Cttp) : Cttp :=
  { s with sessions := s.sessions + 1, ses := Function.update s.ses s.sessions ⟨some (.new wid), []⟩ }

/-- `_cttp_ws_start`. -/
def wsStart (wid : ℕ) (url : Option Bool) (sync : Bool) (s : Cttp) : Option Cttp :=
  let w := s.sessions
  let s := wsNew wid s
  match url with
  | none => wsClose w false (s.wsPlanEvent w .reject)
  | some ipf => creqStart s.reqs sync ((creqNew wid ipf (some w) s).setCws w { Cws.new wid with ceq := some s.reqs })

/-! ### What happens -/

/-- An effect, or a callback. The url of a request was parsed or not, and is an address or a name. -/
inductive Event where
  | request (num : ℕ) (url : Option Bool) (sync : Bool)
  | cancelRequest (num : ℕ)
  | websocketHandshake (wid : ℕ) (url : Option Bool) (sync : Bool)
  | websocketMessage (wid : ℕ) (queued : Bool) (turns : List Turn)
  | websocketDisconnect (wid : ℕ) (turns : List Turn)
  | resolved (p : ℕ) (ok sync : Bool)
  | connected (p : ℕ) (ok : Bool)
  | head (p : ℕ) (hed : Head)
  | body (p : ℕ) (err : Option H2oError)
  | sock (w : ℕ) (err : Bool) (turns : List Turn)
  deriving DecidableEq

/-- One event, where it can come. A client of h2o's is over when its callback returns, unless there is another. -/
def step (s : Cttp) : Event → Option Cttp
  | .request num url sync =>
    match url with
    | none => some s
    | some ipf => creqStart s.reqs sync (creqNew num ipf none s)
  | .cancelRequest num =>
    match creqFind num s with
    | none => some s
    | some p => creqQuit p s
  | .websocketHandshake wid url sync => wsStart wid url sync s
  | .websocketMessage wid queued turns =>
    match wsFind wid s with
    | none => some s
    | some w => wsSendMessage w queued turns s
  | .websocketDisconnect wid turns =>
    match wsFind wid s with
    | none => some s
    | some w => wsQueueClose w turns s
  | .resolved p ok sync =>
    if (s.mem p).dns then creqResolveCb p ok sync (s.put p { s.mem p with dns := false }) else none
  | .connected p ok => if (s.mem p).cli = some .connect then creqOnConnect p ok (s.setCli p none) else none
  | .head p hed => if (s.mem p).cli = some .head then creqOnHead p hed (s.setCli p none) else none
  | .body p err => if (s.mem p).cli = some .body then creqOnBody p err (s.setCli p none) else none
  | .sock w err turns => if (s.ses w).cws.any fun c => c.sok then wsSockCb w err turns s else none

/-! ### Reading and writing -/

variable {s s' : Cttp} {p w : ℕ} {x : Cell} {y : Session} {r : Creq} {c : Cws}

@[simp] theorem Cttp.put_mem : (s.put p x).mem p = x := Function.update_self _ _ _

@[simp] theorem Cttp.put_mem_ne {q : ℕ} (h : q ≠ p) : (s.put p x).mem q = s.mem q := Function.update_of_ne h _ _

@[simp] theorem Cttp.put_ses : (s.put p x).ses = s.ses := rfl

@[simp] theorem Cttp.put_reqs : (s.put p x).reqs = s.reqs := rfl

@[simp] theorem Cttp.put_sessions : (s.put p x).sessions = s.sessions := rfl

@[simp] theorem Cttp.put_put {x' : Cell} : (s.put p x).put p x' = s.put p x' := by
  unfold Cttp.put
  rw [Function.update_idem]

@[simp] theorem Cttp.say_ses : (s.say w y).ses w = y := Function.update_self _ _ _

@[simp] theorem Cttp.say_ses_ne {v : ℕ} (h : v ≠ w) : (s.say w y).ses v = s.ses v := Function.update_of_ne h _ _

@[simp] theorem Cttp.say_mem : (s.say w y).mem = s.mem := rfl

@[simp] theorem Cttp.say_reqs : (s.say w y).reqs = s.reqs := rfl

@[simp] theorem Cttp.say_sessions : (s.say w y).sessions = s.sessions := rfl

@[simp] theorem Cttp.say_say {y' : Session} : (s.say w y).say w y' = s.say w y' := by
  unfold Cttp.say
  rw [Function.update_idem]

@[simp] theorem Cttp.say_put : (s.say w y).put p x = (s.put p x).say w y := rfl

theorem Cttp.put_self (h : s.mem p = x) : s.put p x = s := by
  unfold Cttp.put
  rw [← h, Function.update_eq_self]

theorem Cttp.say_self (h : s.ses w = y) : s.say w y = s := by
  unfold Cttp.say
  rw [← h, Function.update_eq_self]

/-! ### How a request ends -/

/-- What is left of a request that was freed. -/
def Cell.over (x : Cell) : Cell := { x with req := none, frees := x.frees + 1 }

/-- A session that wslay is not running for, with its handshake request. -/
structure Waits (s : Cttp) (w p : ℕ) (c : Cws) : Prop where
  cws : (s.ses w).cws = some c
  ceq : c.ceq = some p
  off : c.wslOn = false

theorem creqFree_eq (h : (s.mem p).req = some r) : creqFree p s = some (s.put p (s.mem p).over) := by
  unfold creqFree
  rw [h]
  rfl

/-- A session that has no handshake request any more is closed. -/
theorem wsClose_eq (hc : (s.ses w).cws = some c) (hoff : c.wslOn = false) (hn : c.ceq = none) (send : Bool) :
    wsClose w send s =
      some (s.say w ⟨none, (s.ses w).said ++ if send then [.disconnect] else []⟩) := by
  unfold wsClose
  rw [hc, Option.bind_some, if_neg (by rw [hoff]; decide)]
  unfold wsCloseCreq
  rw [hn]
  cases send with
  | false => simp
  | true => simp [Cttp.wsPlanEvent]

/-- A session is closed whose request does not know of it any more. -/
theorem wsClose_let_go (hw : Waits s w p c) (hr : (s.mem p).req = some r) (hn : r.wsu = none) :
    wsClose w false s = some (s.say w ⟨none, (s.ses w).said⟩) := by
  unfold wsClose
  rw [hw.cws, Option.bind_some, if_neg (by rw [hw.off]; decide)]
  unfold wsCloseCreq
  rw [hw.ceq]
  simp [hr, hn, Cttp.setCws]

/-- **A handshake comes to nothing**: its session is rejected, and both are freed. -/
theorem failWebsocket_eq (hw : Waits s w p c) (hr : (s.mem p).req = some r) (hwsu : r.wsu = some w) :
    failWebsocket p s = some ((s.put p (s.mem p).over).say w ⟨none, (s.ses w).said ++ [.reject]⟩) := by
  have hw' : Waits ((s.setReq p { r with wsu := none }).wsPlanEvent w .reject) w p c :=
    ⟨by simp [Cttp.wsPlanEvent, Cttp.setReq, hw.cws], hw.ceq, hw.off⟩
  have hr' : (((s.setReq p { r with wsu := none }).wsPlanEvent w .reject).mem p).req = some { r with wsu := none } := by
    simp [Cttp.wsPlanEvent, Cttp.setReq]
  unfold failWebsocket wsFailHandshake
  rw [hr, Option.bind_some]
  simp only [hwsu]
  rw [wsClose_let_go hw' hr' rfl, Option.bind_some, creqFree_eq (r := { r with wsu := none }) (by simpa using hr')]
  simp [Cttp.wsPlanEvent, Cttp.setReq, Cell.over]

/-- **A session is closed before its handshake finishes**: it is freed with its request, whose client is cancelled. -/
theorem wsClose_pending (hw : Waits s w p c) (hr : (s.mem p).req = some r) (hwsu : r.wsu = some w) :
    wsClose w true s = some ((s.put p { (s.mem p).over with cli := if r.cli then none else (s.mem p).cli }).say w
      ⟨none, (s.ses w).said ++ [.disconnect]⟩) := by
  unfold wsClose
  rw [hw.cws, Option.bind_some, if_neg (by rw [hw.off]; decide)]
  unfold wsCloseCreq
  rw [hw.ceq]
  simp only [hr, Option.bind_some, hwsu, if_true]
  cases hcli : r.cli with
  | false =>
    simp [creqFree, Cttp.setReq, Cttp.setCws, Cttp.wsPlanEvent, Cell.over]
  | true =>
    simp [creqFree, Cttp.setReq, Cttp.setCws, Cttp.setCli, Cttp.wsPlanEvent, Cell.over]

/-! ### What wslay comes to -/

/-- Whether it is a message. -/
def WsEvent.isMessage : WsEvent → Bool
  | .message _ _ => true
  | _ => false

/-- The flags of a session that wslay is not running for. -/
structure Cws.Quiet (c : Cws) : Prop where
  ceq : c.ceq = none
  wslOn : c.wslOn = false
  cloEv : c.cloEv = false
  cloOn : c.cloOn = false

/-- What a session comes to that goes on, and one that is over: messages were planned, and at its
end that it is disconnected. -/
inductive Outcome (s : Cttp) (w : ℕ) (c : Cws) : Handled → Cttp → Prop
  | lives (handled : Handled) (msgs : List WsEvent) (hh : handled ≠ .gone) (hm : ∀ e ∈ msgs, e.isMessage = true) :
      Outcome s w c handled (s.say w ⟨some c, (s.ses w).said ++ msgs⟩)
  | gone (msgs : List WsEvent) (hm : ∀ e ∈ msgs, e.isMessage = true) :
      Outcome s w c .gone (s.say w ⟨none, (s.ses w).said ++ msgs ++ [.disconnect]⟩)

/-- While wslay is running, a close is deferred. -/
theorem foldlM_msgCb (frames : List Frame) {l : List WsEvent} {b : Bool} :
    ∃ msgs b', (∀ e ∈ msgs, WsEvent.isMessage e = true) ∧
      frames.foldlM (wsMsgCb w) (s.say w ⟨some { c with wslOn := true, cloEv := b, cloOn := b }, l⟩) =
        some (s.say w ⟨some { c with wslOn := true, cloEv := b', cloOn := b' }, l ++ msgs⟩) := by
  have hclose : ∀ {l : List WsEvent} {b : Bool},
      wsClose w true (s.say w ⟨some { c with wslOn := true, cloEv := b, cloOn := b }, l⟩) =
        some (s.say w ⟨some { c with wslOn := true, cloEv := true, cloOn := true }, l⟩) := by
    intro l b
    unfold wsClose
    simp [Cttp.setCws]
  induction frames generalizing l b with
  | nil => exact ⟨[], b, fun e he => absurd he List.not_mem_nil, by rw [List.append_nil]; rfl⟩
  | cons f frames ih =>
    rw [List.foldlM_cons]
    cases f with
    | message opcode payload =>
      obtain ⟨msgs, b', hm, h⟩ := ih (l := l ++ [.message opcode payload]) (b := b)
      refine ⟨.message opcode payload :: msgs, b', List.forall_mem_cons.mpr ⟨rfl, hm⟩, ?_⟩
      rw [List.append_assoc] at h
      rw [← List.singleton_append, ← h]
      show (some _).bind _ = _
      simp [Cttp.wsPlanEvent]
    | close =>
      obtain ⟨msgs, b', hm, h⟩ := ih (l := l) (b := true)
      refine ⟨msgs, b', hm, ?_⟩
      rw [← h]
      show (wsClose w true _).bind _ = _
      rw [hclose]
      rfl
    | nothing =>
      obtain ⟨msgs, b', hm, h⟩ := ih (l := l) (b := true)
      refine ⟨msgs, b', hm, ?_⟩
      rw [← h]
      show (wsClose w true _).bind _ = _
      rw [hclose]
      rfl

/-- A session without a request is closed, and says so. -/
theorem wsClose_quiet {l : List WsEvent} (hq : c.Quiet) :
    wsClose w true (s.say w ⟨some c, l⟩) = some (s.say w ⟨none, l ++ [.disconnect]⟩) := by
  rw [wsClose_eq (c := c) (by simp) hq.wslOn hq.ceq]
  simp

theorem Cws.Quiet.running (hq : c.Quiet) :
    ({ c with wslOn := true } : Cws) = { c with wslOn := true, cloEv := false, cloOn := false } := by
  obtain ⟨wid, sat, ceq, sok, wsl, on, ev, clo⟩ := c
  obtain ⟨-, -, rfl, rfl⟩ := hq
  rfl

theorem Cws.Quiet.eq (hq : c.Quiet) : ({ c with wslOn := false, cloEv := false, cloOn := false } : Cws) = c := by
  obtain ⟨wid, sat, ceq, sok, wsl, on, ev, clo⟩ := c
  obtain ⟨-, rfl, rfl, rfl⟩ := hq
  rfl

/-- **One call of wslay's.** -/
theorem wsCall_outcome (hc : (s.ses w).cws = some c) (hq : c.Quiet) (frames : List Frame) (sas : Wslay) :
    ∃ handled s', wsCall w frames sas s = some (handled, s') ∧ Outcome s w c handled s' := by
  obtain ⟨msgs, b, hm, hf⟩ := foldlM_msgCb (s := s) (w := w) (c := c) frames (l := (s.ses w).said) (b := false)
  have hon : s.setCws w { c with wslOn := true } =
      s.say w ⟨some { c with wslOn := true, cloEv := false, cloOn := false }, (s.ses w).said⟩ := by
    unfold Cttp.setCws
    rw [hq.running]
  have hflush :
    wsFlushClose w (s.say w ⟨some { c with wslOn := false, cloEv := b, cloOn := b }, (s.ses w).said ++ msgs⟩) =
      if b then some (true, s.say w ⟨none, (s.ses w).said ++ msgs ++ [.disconnect]⟩)
      else some (false, s.say w ⟨some c, (s.ses w).said ++ msgs⟩) := by
    unfold wsFlushClose
    cases b with
    | false =>
      rw [Cttp.say_ses, hq.eq, Option.bind_some, if_neg (by rw [hq.cloOn]; decide)]
      rfl
    | true => simp [Cttp.setCws, hq.eq, wsClose_quiet hq]
  have hback : ((s.say w ⟨some { c with wslOn := true, cloEv := b, cloOn := b }, (s.ses w).said ++ msgs⟩).setCws w
      { ({ c with wslOn := true, cloEv := b, cloOn := b } : Cws) with wslOn := false }) =
      s.say w ⟨some { c with wslOn := false, cloEv := b, cloOn := b }, (s.ses w).said ++ msgs⟩ := by
    simp [Cttp.setCws]
  unfold wsCall
  rw [hc, Option.bind_some, hon, hf, Option.bind_some]
  simp only [Cttp.say_ses, Option.bind_some]
  rw [hback, hflush]
  cases b with
  | true => exact ⟨_, _, rfl, .gone msgs hm⟩
  | false =>
    cases sas with
    | ok => exact ⟨_, _, rfl, .lives .yes msgs (by decide) hm⟩
    | wouldblock => exact ⟨_, _, rfl, .lives .no msgs (by decide) hm⟩
    | failed =>
      refine ⟨.gone, _, ?_, .gone msgs hm⟩
      show (wsClose w true (s.say w ⟨some c, (s.ses w).said ++ msgs⟩)).map _ = _
      rw [wsClose_quiet hq]
      rfl

theorem wsWanted_outcome (hc : (s.ses w).cws = some c) (hq : c.Quiet) (call : Option (List Frame × Wslay)) :
    ∃ handled s', wsWanted w call s = some (handled, s') ∧ Outcome s w c handled s' := by
  cases call with
  | none =>
    have hs : s.say w ⟨some c, (s.ses w).said ++ []⟩ = s := Cttp.say_self (by rw [List.append_nil, ← hc])
    have ho : Outcome s w c .no (s.say w ⟨some c, (s.ses w).said ++ []⟩) :=
      .lives .no [] (by decide) fun e he => absurd he List.not_mem_nil
    rw [hs] at ho
    exact ⟨.no, s, rfl, ho⟩
  | some call => exact wsCall_outcome hc hq call.1 call.2

/-- Two outcomes one after the other. -/
theorem Outcome.trans {h1 h2 : Handled} {s₁ s₂ : Cttp} (ho : Outcome s w c h1 s₁) (hne : h1 ≠ .gone)
    (ho' : Outcome s₁ w c h2 s₂) : Outcome s w c h2 s₂ := by
  cases ho with
  | gone msgs hm => exact absurd rfl hne
  | lives handled msgs hh hm =>
    cases ho' with
    | lives handled' msgs' hh' hm' =>
      simp only [Cttp.say_ses, Cttp.say_say, List.append_assoc]
      exact .lives h2 (msgs ++ msgs') hh' fun e he => (List.mem_append.mp he).elim (hm e) (hm' e)
    | gone msgs' hm' =>
      simp only [Cttp.say_ses, Cttp.say_say]
      rw [List.append_assoc (s.ses w).said]
      exact .gone (msgs ++ msgs') fun e he => (List.mem_append.mp he).elim (hm e) (hm' e)

theorem Outcome.cws {h : Handled} (ho : Outcome s w c h s') (hne : h ≠ .gone) : (s'.ses w).cws = some c := by
  cases ho with
  | gone msgs hm => exact absurd rfl hne
  | lives handled msgs hh hm => simp

/-- **The loop over what wslay wants.** -/
theorem wsLoop_outcome (hq : c.Quiet) (turns : List Turn) (hc : (s.ses w).cws = some c) :
    ∃ handled s', wsLoop w turns s = some s' ∧ Outcome s w c handled s' := by
  induction turns generalizing s with
  | nil =>
    obtain ⟨h, s', hs, ho⟩ := wsWanted_outcome hc hq none
    obtain ⟨-, rfl⟩ := Prod.mk.inj (Option.some.inj hs)
    exact ⟨h, s, rfl, ho⟩
  | cons t ts ih =>
    obtain ⟨h1, s₁, hs₁, ho₁⟩ := wsWanted_outcome hc hq (t.send.map fun sas => ([], sas))
    unfold wsLoop
    rw [hs₁, Option.bind_some]
    dsimp only
    by_cases hg : h1 = .gone
    · rw [if_pos hg]
      exact ⟨h1, s₁, rfl, ho₁⟩
    rw [if_neg hg]
    obtain ⟨h2, s₂, hs₂, ho₂⟩ := wsWanted_outcome (ho₁.cws hg) hq t.recv
    have ho := ho₁.trans hg ho₂
    rw [hs₂, Option.bind_some]
    dsimp only
    by_cases hg2 : h2 = .gone
    · rw [if_pos hg2]
      exact ⟨h2, s₂, rfl, ho⟩
    rw [if_neg hg2]
    by_cases hno : h1 = .no ∧ h2 = .no
    · rw [if_pos hno]
      exact ⟨h2, s₂, rfl, ho⟩
    rw [if_neg hno]
    obtain ⟨h3, s₃, hs₃, ho₃⟩ := ih (ho.cws hg2)
    exact ⟨h3, s₃, hs₃, ho.trans hg2 ho₃⟩

theorem wsProceed_outcome (hq : c.Quiet) (turns : List Turn) (hc : (s.ses w).cws = some c) :
    ∃ handled s', wsProceed w turns s = some s' ∧ Outcome s w c handled s' := by
  unfold wsProceed
  rw [hc, Option.bind_some]
  split
  · exact wsLoop_outcome hq turns hc
  · exact wsLoop_outcome hq [] hc

end HttpClient
end Ursockets
