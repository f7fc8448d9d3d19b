/-
# Iris, the http client vane

The vane of `arvo/iris.hoon`: requests that go out by way of the runtime, what the runtime
receives for them, and websockets, which are led to the agent that asked for them.
An id is given to each request and to each websocket, from one counter.

`call` takes a task to moves and a new state, and so does `take` with what comes
on a wire; what `take` computes of a new state is not kept, as it puts its moves before the
vane as it was. A crash leaves the state as it was.

Key definitions: `State`, `request`, `receive`, `wsConnect`, `wsEvent`, `call`, `take`, `turn`,
`Linked`, `Fresh`.
Key theorems: `linked_of_run`, `fresh_of_run`.
-/
import Ursockets.Eyre
import Ursockets.Lib.Replay

namespace Ursockets
namespace Iris

open Eyre (Ship Duct Map Octs Request ResponseHeader HttpEvent WebsocketEvent WebsocketMessage getHeader)

/-! ### Data -/

/-- `in-progress-http-request`. The last chunk is first. -/
structure InProgressHttpRequest where
  remainingRedirects : ℕ
  remainingRetries : ℕ
  responseHeader : Option ResponseHeader
  chunks : List Octs
  bytesRead : ℕ
  expectedSize : Option ℕ
  request : Request
  deriving DecidableEq

/-- Whether a websocket has been accepted. -/
inductive Status where
  | pending
  | accepted
  deriving DecidableEq

/-- `websocket-connection`. -/
structure WebsocketConnection where
  app : String
  duct : Duct
  id : ℕ
  url : String
  status : Status
  deriving DecidableEq

/-- `state`. There is no outbound duct before the first `%born`. -/
structure State where
  sockets : Map ℕ WebsocketConnection
  nextId : ℕ
  connectionById : Map ℕ (Duct × InProgressHttpRequest)
  connectionByDuct : Map Duct ℕ
  outboundDuct : Option Duct
  deriving DecidableEq

/-- The state of a new vane. -/
def State.new : State := ⟨∅, 0, ∅, ∅, none⟩

/-- `client-response`. -/
inductive ClientResponse where
  | progress (responseHeader : ResponseHeader) (bytesRead : ℕ) (expectedSize : Option ℕ) (incremental : Option Octs)
  | finished (responseHeader : ResponseHeader) (fullFile : Option (String × Octs))
  | cancel
  deriving DecidableEq

/-- What an agent is told to do. -/
inductive AgentTask where
  | watch (path : List String)
  | leave
  | poke (wid : ℕ) (message : WebsocketMessage)
  deriving DecidableEq

inductive Wire where
  | wsWatch (wid : ℕ)
  | irisWsPoke
  deriving DecidableEq

/-- A gift, or a deal with an agent of ours. -/
inductive Card where
  | request (id : ℕ) (request : Request)
  | cancelRequest (id : ℕ)
  | httpResponse (response : ClientResponse)
  | websocketHandshake (id : ℕ) (url : String)
  | websocketResponse (id : ℕ) (event : WebsocketEvent)
  | deal (wire : Wire) (app : String) (task : AgentTask)
  deriving DecidableEq

structure Move where
  duct : Option Duct
  card : Card
  deriving DecidableEq

/-! ### Requests -/

/-- `outbound-config`. -/
structure OutboundConfig where
  redirects : ℕ
  retries : ℕ
  deriving DecidableEq

/-- `+request`: it is dropped where there is one on the duct. -/
def request (duct : Duct) (request : Request) (config : OutboundConfig) (s : State) : List Move × State :=
  if duct ∈ s.connectionByDuct then ([], s)
  else
    let id := s.nextId
    let s := { s with
      nextId := id + 1
      connectionById :=
        s.connectionById.insert id (duct, ⟨config.redirects, config.retries, none, [], 0, none, request⟩)
      connectionByDuct := s.connectionByDuct.insert duct id }
    if s.outboundDuct.isNone then ([], s) else ([⟨s.outboundDuct, .request id request⟩], s)

/-- `+cleanup-connection`. -/
def cleanupConnection (id : ℕ) (s : State) : State :=
  match s.connectionById.lookup id with
  | none => s
  | some con => { s with
      connectionById := s.connectionById.erase id
      connectionByDuct := s.connectionByDuct.erase con.1 }

/-- `+cancel`. -/
def cancel (duct : Duct) (s : State) : List Move × State :=
  match s.connectionByDuct.lookup duct with
  | none => ([], s)
  | some id =>
    (if s.outboundDuct.isNone then [] else [⟨s.outboundDuct, .cancelRequest id⟩], cleanupConnection id s)

/-- `(~(jab by connection-by-id) id gate)`, where the gate leaves the duct. -/
def jab (id : ℕ) (f : InProgressHttpRequest → InProgressHttpRequest) (s : State) : State :=
  match s.connectionById.lookup id with
  | none => s
  | some (duct, p) => { s with connectionById := s.connectionById.insert id (duct, f p) }

/-- `dum:ag`, for the whole of a text: decimal digits. -/
def dum (text : String) : Option ℕ :=
  if text ≠ "" ∧ text.toList.all Char.isDigit then
    some (text.toList.foldl (fun n c => 10 * n + (c.toNat - '0'.toNat)) 0)
  else none

/-- `+record-and-send-progress`. -/
def recordAndSendProgress (id : ℕ) (data : Option Octs) (s : State) : Option (List Move × State) := do
  let s := jab id (fun p => { p with
    chunks := data.elim p.chunks fun d => d :: p.chunks
    bytesRead := data.elim p.bytesRead fun d => p.bytesRead + d.length }) s
  let (duct, p) ← s.connectionById.lookup id
  let header ← p.responseHeader
  some ([⟨duct, .httpResponse (.progress header p.bytesRead p.expectedSize data)⟩], s)

/-- `+combine-octs`. -/
def combineOcts (a : List Octs) : Octs := String.join a

/-- `+send-finished`. -/
def sendFinished (id : ℕ) (data : Option Octs) (s : State) : Option (List Move × State) := do
  let (duct, p) ← s.connectionById.lookup id
  let whole := combineOcts (data.elim p.chunks fun d => d :: p.chunks).reverse
  let header ← p.responseHeader
  let mime := (getHeader "content-type" header.headers).getD "application/octet-stream"
  some ([⟨duct, .httpResponse (.finished header (if whole.length = 0 then none else some (mime, whole)))⟩],
    cleanupConnection id s)

/-- What a packet that is not a redirect comes to. -/
def dispatch (id : ℕ) (data : Option Octs) (complete : Bool) (s : State) : Option (List Move × State) :=
  if complete then sendFinished id data s else recordAndSendProgress id data s

/-- `+handle-redirect`. -/
def handleRedirect (id : ℕ) (header : ResponseHeader) (data : Option Octs) (complete : Bool) (remainingRedirects : ℕ)
    (request : Request) (s : State) : Option (List Move × State) :=
  if remainingRedirects = 0 then dispatch id data complete s
  else match getHeader "location" header.headers with
    | none => dispatch id data complete s
    | some loc =>
      some ([⟨s.outboundDuct, .request id { request with url := loc }⟩],
        jab id (fun p => { p with remainingRedirects := p.remainingRedirects - 1 }) s)

/-- `+receive`. -/
def receive (id : ℕ) (event : HttpEvent) (s : State) : Option (List Move × State) :=
  match s.connectionById.lookup id with
  | none => some ([], s)
  | some (duct, p) =>
    match event with
    | .start header data complete =>
      let s := jab id (fun p => { p with
        expectedSize := (getHeader "content-length" header.headers).bind dum
        responseHeader := some header }) s
      if header.statusCode = 307 ∨ header.statusCode = 303 ∨ header.statusCode = 301 then
        handleRedirect id header data complete p.remainingRedirects p.request s
      else dispatch id data complete s
    | .continue data complete => dispatch id data complete s
    | .cancel => some ([⟨duct, .httpResponse .cancel⟩], cleanupConnection id s)

/-! ### Websockets -/

/-- `+watch-agent`. -/
def watchAgent (duct : Duct) (wid : ℕ) (app : String) : Move :=
  ⟨duct, .deal (.wsWatch wid) app (.watch ["websocket-client", toString wid])⟩

/-- `+leave-agent`. -/
def leaveAgent (duct : Duct) (wid : ℕ) (app : String) : Move := ⟨duct, .deal (.wsWatch wid) app .leave⟩

/-- `+poke-agent`. -/
def pokeAgent (duct : Duct) (wid : ℕ) (message : WebsocketMessage) (app : String) : Move :=
  ⟨duct, .deal .irisWsPoke app (.poke wid message)⟩

/-- `+ws-connect`. -/
def wsConnect (duct : Duct) (desk url : String) (s : State) : List Move × State :=
  if duct ∈ s.connectionByDuct then ([], s)
  else
    let id := s.nextId
    ([⟨s.outboundDuct, .websocketHandshake id url⟩],
      { s with nextId := id + 1, sockets := s.sockets.insert id ⟨desk, duct, id, url, .pending⟩ })

/-- `+cleanup-ws`. -/
def cleanupWs (duct : Duct) (wid : ℕ) (s : State) : List Move × State :=
  match s.sockets.lookup wid with
  | none => ([], s)
  | some con => ([leaveAgent duct wid con.app], { s with sockets := s.sockets.erase wid })

/-- `+ws-event`. -/
def wsEvent (duct : Duct) (wid : ℕ) (event : WebsocketEvent) (s : State) : List Move × State :=
  match s.sockets.lookup wid with
  | none => ([], s)
  | some wc =>
    let (moves, s) := match event with
      | .accept =>
        ([watchAgent duct wid wc.app], { s with sockets := s.sockets.insert wid { wc with status := .accepted } })
      | .message m => ([pokeAgent duct wid m wc.app], s)
      | .reject => cleanupWs duct wid s
      | .disconnect => cleanupWs duct wid s
    (⟨wc.duct, .websocketResponse wc.id event⟩ :: moves, s)

/-- `+ws-cancel`. -/
def wsCancel (wid : ℕ) (s : State) : List Move × State :=
  ([⟨s.outboundDuct, .cancelRequest wid⟩], { s with sockets := s.sockets.erase wid })

/-! ### The vane -/

inductive Task where
  | born
  | request (request : Request) (config : OutboundConfig)
  | cancelRequest
  | receive (id : ℕ) (event : HttpEvent)
  | websocketConnect (desk url : String)
  | websocketEvent (wid : ℕ) (event : WebsocketEvent)
  | cancelWebsocket (wid : ℕ)
  deriving DecidableEq

/-- `+call`. -/
def call (duct : Duct) (task : Task) (s : State) : Option (List Move × State) :=
  match task with
  | .born =>
    some (s.connectionByDuct.entries.map fun e => ⟨some e.1, .httpResponse .cancel⟩,
      { s with nextId := 0, connectionById := ∅, connectionByDuct := ∅, outboundDuct := some duct })
  | .request req config => some (request duct req config s)
  | .cancelRequest => some (cancel duct s)
  | .receive id event => receive id event s
  | .websocketConnect desk url => some (wsConnect duct desk url s)
  | .websocketEvent wid event => some (wsEvent duct wid event s)
  | .cancelWebsocket wid => some (wsCancel wid s)

/-- What comes on a watch. -/
inductive WatchSign where
  | ack
  | kick
  | message (message : WebsocketMessage)
  | disconnect
  | badFact
  deriving DecidableEq

/-- `+take`, on the watch of `wid`. -/
def take (duct : Duct) (wid : ℕ) (sign : WatchSign) (s : State) : Option (List Move) :=
  match sign with
  | .ack => some []
  | .kick => some (cleanupWs duct wid s).1
  | .message m => some [⟨s.outboundDuct, .websocketResponse wid (.message m)⟩]
  | .disconnect => some ((cleanupWs duct wid s).1 ++ [⟨s.outboundDuct, .websocketResponse wid .disconnect⟩])
  | .badFact => none

/-- What happens to the vane. -/
inductive Event where
  | call (duct : Duct) (task : Task)
  | take (duct : Duct) (wid : ℕ) (sign : WatchSign)
  deriving DecidableEq

/-- The moves and the vane's state after an event. The state that `take` makes is dropped. -/
def turn (s : State) : Event → Option (List Move × State)
  | .call duct task => call duct task s
  | .take duct wid sign => (take duct wid sign s).map fun moves => (moves, s)

/-- The state after an event. -/
def step (s : State) (e : Event) : Option State := (turn s e).map Prod.snd

/-! ### Connections -/

/-- The duct of a request. -/
def State.ductOf (s : State) (id : ℕ) : Option Duct := (s.connectionById.lookup id).map Prod.fst

/-- The two maps of connections are each other's inverse, and the next id is above theirs. -/
structure Linked (s : State) : Prop where
  inverse : ∀ id duct, s.ductOf id = some duct ↔ s.connectionByDuct.lookup duct = some id
  below : ∀ id ∈ s.connectionById, id < s.nextId

/-- Only what is known of requests changes. -/
structure Noted (s s' : State) : Prop where
  sockets : s'.sockets = s.sockets
  nextId : s'.nextId = s.nextId
  outboundDuct : s'.outboundDuct = s.outboundDuct
  byDuct : s'.connectionByDuct = s.connectionByDuct
  ductOf : ∀ id, s'.ductOf id = s.ductOf id

variable {s s' s₁ : State} {duct : Duct} {id wid : ℕ} {moves : List Move} {data : Option Octs} {complete : Bool}

theorem mem_byId : id ∈ s.connectionById ↔ (s.ductOf id).isSome := by
  unfold State.ductOf
  rw [Option.isSome_map, AList.lookup_isSome]

theorem Noted.refl (s : State) : Noted s s := ⟨rfl, rfl, rfl, rfl, fun _ => rfl⟩

theorem Noted.trans (h : Noted s s₁) (h' : Noted s₁ s') : Noted s s' where
  sockets := h'.sockets.trans h.sockets
  nextId := h'.nextId.trans h.nextId
  outboundDuct := h'.outboundDuct.trans h.outboundDuct
  byDuct := h'.byDuct.trans h.byDuct
  ductOf := fun id => (h'.ductOf id).trans (h.ductOf id)

theorem noted_jab (id : ℕ) (f : InProgressHttpRequest → InProgressHttpRequest) (s : State) : Noted s (jab id f s) := by
  unfold jab
  split
  · exact Noted.refl s
  · rename_i duct p hp
    refine ⟨rfl, rfl, rfl, rfl, fun i => ?_⟩
    unfold State.ductOf
    by_cases hi : i = id
    · rw [hi, AList.lookup_insert, hp]
      rfl
    · rw [AList.lookup_insert_ne hi]

theorem Linked.noted (h : Linked s) (hn : Noted s s') : Linked s' where
  inverse := fun id duct => by
    rw [hn.ductOf, hn.byDuct]
    exact h.inverse id duct
  below := fun id hid => by
    rw [hn.nextId]
    rw [mem_byId, hn.ductOf, ← mem_byId] at hid
    exact h.below id hid

theorem Linked.cleanup (h : Linked s) (id : ℕ) : Linked (cleanupConnection id s) := by
  unfold cleanupConnection
  split
  · exact h
  · rename_i con hcon
    obtain ⟨d, p⟩ := con
    have hid : s.connectionByDuct.lookup d = some id := (h.inverse id d).mp (by unfold State.ductOf; rw [hcon]; rfl)
    refine ⟨fun i d' => ?_, fun i hi => h.below i (AList.mem_erase.mp hi).2⟩
    unfold State.ductOf
    dsimp only
    by_cases hd : d' = d
    · subst hd
      rw [AList.lookup_erase]
      refine iff_of_false (fun hi => ?_) (Option.some_ne_none _).symm
      by_cases hii : i = id
      · subst hii
        rw [AList.lookup_erase] at hi
        exact Option.some_ne_none _ hi.symm
      · rw [AList.lookup_erase_ne hii] at hi
        exact hii (Option.some.inj (((h.inverse i d').mp hi).symm.trans hid))
    · rw [AList.lookup_erase_ne hd]
      by_cases hii : i = id
      · subst hii
        rw [AList.lookup_erase]
        refine iff_of_false (Option.some_ne_none _).symm fun hi => hd ?_
        have hdi := (h.inverse i d').mpr hi
        unfold State.ductOf at hdi
        rw [hcon] at hdi
        exact (Option.some.inj hdi).symm
      · rw [AList.lookup_erase_ne hii]
        exact h.inverse i d'

theorem Linked.request (h : Linked s) (req : Request) (config : OutboundConfig) :
    Linked (Iris.request duct req config s).2 := by
  unfold Iris.request
  split
  · exact h
  · rename_i hnew
    have hfresh : s.nextId ∉ s.connectionById := fun hid => lt_irrefl _ (h.below _ hid)
    have hlinked : Linked { s with
        nextId := s.nextId + 1
        connectionById :=
          s.connectionById.insert s.nextId (duct, ⟨config.redirects, config.retries, none, [], 0, none, req⟩)
        connectionByDuct := s.connectionByDuct.insert duct s.nextId } := by
      refine ⟨fun i d => ?_, fun i hi => ?_⟩
      · unfold State.ductOf
        dsimp only
        by_cases hi : i = s.nextId
        · subst hi
          rw [AList.lookup_insert]
          by_cases hd : d = duct
          · subst hd
            rw [AList.lookup_insert]
            exact iff_of_true rfl rfl
          · rw [AList.lookup_insert_ne hd]
            refine iff_of_false (fun he => hd (Option.some.inj he).symm) fun he => hfresh ?_
            rw [mem_byId, (h.inverse _ d).mpr he]
            rfl
        · rw [AList.lookup_insert_ne hi]
          by_cases hd : d = duct
          · subst hd
            rw [AList.lookup_insert]
            refine iff_of_false (fun he => hnew ?_) fun he => hi (Option.some.inj he).symm
            rw [← AList.lookup_isSome, (h.inverse i d).mp he]
            rfl
          · rw [AList.lookup_insert_ne hd]
            exact h.inverse i d
      · rcases (AList.mem_insert _).mp hi with rfl | hi
        · exact Nat.lt_succ_self _
        · exact Nat.lt_succ_of_lt (h.below i hi)
    dsimp only
    split
    · exact hlinked
    · exact hlinked

theorem recordAndSendProgress_noted (h : recordAndSendProgress id data s = some (moves, s')) : Noted s s' := by
  unfold recordAndSendProgress at h
  simp only [Option.bind_eq_bind, Option.bind_eq_some_iff, Option.some.injEq, Prod.mk.injEq] at h
  obtain ⟨-, -, -, -, -, rfl⟩ := h
  exact noted_jab _ _ s

theorem sendFinished_cleanup (h : sendFinished id data s = some (moves, s')) : s' = cleanupConnection id s := by
  unfold sendFinished at h
  simp only [Option.bind_eq_bind, Option.bind_eq_some_iff, Option.some.injEq, Prod.mk.injEq] at h
  obtain ⟨-, -, -, -, -, rfl⟩ := h
  rfl

/-- What is known of a request changes, and it may be cleaned up. -/
def Received (id : ℕ) (s s' : State) : Prop := ∃ s₁, Noted s s₁ ∧ (s' = s₁ ∨ s' = cleanupConnection id s₁)

theorem Noted.received (h : Noted s s₁) (h' : Received id s₁ s') : Received id s s' := by
  obtain ⟨s₂, h2, hs⟩ := h'
  exact ⟨s₂, h.trans h2, hs⟩

theorem dispatch_received (h : dispatch id data complete s = some (moves, s')) : Received id s s' := by
  unfold dispatch at h
  split at h
  · exact ⟨s, Noted.refl s, .inr (sendFinished_cleanup h)⟩
  · exact ⟨s', recordAndSendProgress_noted h, .inl rfl⟩

theorem handleRedirect_received {header : ResponseHeader} {n : ℕ} {req : Request}
    (h : handleRedirect id header data complete n req s = some (moves, s')) : Received id s s' := by
  unfold handleRedirect at h
  split at h
  · exact dispatch_received h
  · split at h
    · exact dispatch_received h
    · obtain ⟨-, rfl⟩ := Prod.mk.inj (Option.some.inj h)
      exact ⟨_, noted_jab _ _ _, .inl rfl⟩

theorem receive_received {event : HttpEvent} (h : receive id event s = some (moves, s')) : Received id s s' := by
  unfold receive at h
  split at h
  · obtain ⟨-, rfl⟩ := Prod.mk.inj (Option.some.inj h)
    exact ⟨s, Noted.refl s, .inl rfl⟩
  · split at h
    · dsimp only at h
      split at h
      · exact (noted_jab _ _ s).received (handleRedirect_received h)
      · exact (noted_jab _ _ s).received (dispatch_received h)
    · exact dispatch_received h
    · obtain ⟨-, rfl⟩ := Prod.mk.inj (Option.some.inj h)
      exact ⟨s, Noted.refl s, .inr rfl⟩

theorem Linked.received (h : Linked s) (hr : Received id s s') : Linked s' := by
  obtain ⟨s₁, hn, rfl | rfl⟩ := hr
  · exact h.noted hn
  · exact (h.noted hn).cleanup id

/-- An event of a websocket's leaves the connections and the next id. -/
theorem wsEvent_spec (duct : Duct) (wid : ℕ) (event : WebsocketEvent) (s : State) :
    (wsEvent duct wid event s).2.nextId = s.nextId ∧ (wsEvent duct wid event s).2.outboundDuct = s.outboundDuct ∧
      (wsEvent duct wid event s).2.connectionById = s.connectionById ∧
      (wsEvent duct wid event s).2.connectionByDuct = s.connectionByDuct ∧
      ∀ w, w ∈ (wsEvent duct wid event s).2.sockets ↔
        w ∈ s.sockets ∧ ((event = .reject ∨ event = .disconnect) → w ≠ wid) := by
  unfold wsEvent
  split
  · rename_i hno
    refine ⟨rfl, rfl, rfl, rfl, fun w => (and_iff_left_of_imp fun hw _ hww => ?_).symm⟩
    exact AList.lookup_eq_none.mp hno (hww ▸ hw)
  · rename_i wc hwc
    have hin : wid ∈ s.sockets := AList.lookup_isSome.mp (by rw [hwc]; rfl)
    cases event with
    | accept =>
      refine ⟨rfl, rfl, rfl, rfl, fun w => (AList.mem_insert _).trans ?_⟩
      refine ⟨fun hw => ⟨hw.elim (fun hw => hw ▸ hin) id, fun he => ?_⟩, fun hw => .inr hw.1⟩
      exact he.elim (fun he => nomatch he) fun he => nomatch he
    | message m =>
      refine ⟨rfl, rfl, rfl, rfl, fun w => (and_iff_left fun he => ?_).symm⟩
      exact he.elim (fun he => nomatch he) fun he => nomatch he
    | reject =>
      unfold cleanupWs
      rw [hwc]
      refine ⟨rfl, rfl, rfl, rfl, fun w => AList.mem_erase.trans ?_⟩
      exact ⟨fun hw => ⟨hw.2, fun _ => hw.1⟩, fun hw => ⟨hw.2 (.inl rfl), hw.1⟩⟩
    | disconnect =>
      unfold cleanupWs
      rw [hwc]
      refine ⟨rfl, rfl, rfl, rfl, fun w => AList.mem_erase.trans ?_⟩
      exact ⟨fun hw => ⟨hw.2, fun _ => hw.1⟩, fun hw => ⟨hw.2 (.inr rfl), hw.1⟩⟩

/-- What a request leaves. -/
theorem request_spec (duct : Duct) (req : Request) (config : OutboundConfig) (s : State) :
    (Iris.request duct req config s).2.sockets = s.sockets ∧ s.nextId ≤ (Iris.request duct req config s).2.nextId := by
  unfold Iris.request
  split
  · exact ⟨rfl, le_refl _⟩
  · dsimp only
    split
    · exact ⟨rfl, Nat.le_succ _⟩
    · exact ⟨rfl, Nat.le_succ _⟩

theorem cleanupConnection_spec (id : ℕ) (s : State) :
    (cleanupConnection id s).sockets = s.sockets ∧ (cleanupConnection id s).nextId = s.nextId := by
  unfold cleanupConnection
  split
  · exact ⟨rfl, rfl⟩
  · exact ⟨rfl, rfl⟩

theorem cancel_state (duct : Duct) (s : State) :
    (cancel duct s).2 = s ∨ ∃ id, (cancel duct s).2 = cleanupConnection id s := by
  unfold cancel
  split
  · exact .inl rfl
  · exact .inr ⟨_, rfl⟩

theorem Received.spec (h : Received id s s') : s'.sockets = s.sockets ∧ s'.nextId = s.nextId := by
  obtain ⟨s₁, hn, rfl | rfl⟩ := h
  · exact ⟨hn.sockets, hn.nextId⟩
  · obtain ⟨h1, h2⟩ := cleanupConnection_spec id s₁
    exact ⟨h1.trans hn.sockets, h2.trans hn.nextId⟩

theorem linked_new : Linked .new :=
  ⟨fun _ _ => iff_of_false (Option.some_ne_none _).symm (Option.some_ne_none _).symm,
    fun id hid => absurd hid (AList.notMem_empty id)⟩

/-- **Any event leaves the two maps of connections each other's inverse.** -/
theorem Linked.step (h : Linked s) {e : Event} (hs : step s e = some s') : Linked s' := by
  obtain ⟨⟨moves, s₁⟩, ht, rfl⟩ := Option.map_eq_some_iff.mp hs
  cases e with
  | take duct wid sign =>
    obtain ⟨ms, -, hms⟩ := Option.map_eq_some_iff.mp ht
    obtain ⟨-, rfl⟩ := Prod.mk.inj hms
    exact h
  | call duct task =>
    cases task with
    | born =>
      obtain ⟨-, rfl⟩ := Prod.mk.inj (Option.some.inj ht)
      exact ⟨fun _ _ => iff_of_false (Option.some_ne_none _).symm (Option.some_ne_none _).symm,
        fun id hid => absurd hid (AList.notMem_empty id)⟩
    | request req config =>
      have hr := Option.some.inj ht
      exact (congrArg Prod.snd hr : _ = s₁) ▸ h.request req config
    | cancelRequest =>
      have hr : (cancel duct s).2 = s₁ := congrArg Prod.snd (Option.some.inj ht)
      rcases cancel_state duct s with hc | ⟨id, hc⟩
      · exact (hc.symm.trans hr) ▸ h
      · exact (hc.symm.trans hr) ▸ h.cleanup id
    | receive id event => exact h.received (receive_received ht)
    | websocketConnect desk url =>
      have hr : (wsConnect duct desk url s).2 = s₁ := congrArg Prod.snd (Option.some.inj ht)
      subst hr
      unfold wsConnect
      split
      · exact h
      · exact ⟨h.inverse, fun id hid => Nat.lt_succ_of_lt (h.below id hid)⟩
    | websocketEvent wid event =>
      have hr : (wsEvent duct wid event s).2 = s₁ := congrArg Prod.snd (Option.some.inj ht)
      obtain ⟨hn, ho, hid, hd, -⟩ := wsEvent_spec duct wid event s
      rw [hr] at hn ho hid hd
      refine ⟨fun i d => ?_, fun i hi => ?_⟩
      · unfold State.ductOf
        rw [hid, hd]
        exact h.inverse i d
      · rw [hn]
        rw [hid] at hi
        exact h.below i hi
    | cancelWebsocket wid =>
      obtain ⟨-, rfl⟩ := Prod.mk.inj (Option.some.inj ht)
      exact ⟨h.inverse, h.below⟩

/-! ### The ids of websockets -/

/-- The next id is above those of the websockets. -/
def Above (s : State) : Prop := ∀ w ∈ s.sockets, w < s.nextId

/-- The id that a new websocket would get is no websocket's, and it is above all of theirs. -/
def Fresh (s : State) : Prop := s.nextId ∉ s.sockets ∧ Above s

/-- A restart of the runtime, with no websockets. -/
def Cleared (s : State) : Event → Prop
  | .call _ .born => ∀ w, w ∉ s.sockets
  | _ => True

theorem fresh_iff : Fresh s ↔ Above s := and_iff_right_of_imp fun h hin => lt_irrefl _ (h _ hin)

/-- A task that leaves the websockets and does not lower the next id. -/
theorem Above.of_le (h : Above s) (hs : ∀ w ∈ s'.sockets, w ∈ s.sockets) (hn : s.nextId ≤ s'.nextId) : Above s' :=
  fun w hw => lt_of_lt_of_le (h w (hs w hw)) hn

/-- **The ids of the websockets stay fresh in just the steps that are listed.** -/
theorem fresh_step {e : Event} (h : Fresh s) (hs : step s e = some s') : Fresh s' ↔ Cleared s e := by
  rw [fresh_iff]
  obtain ⟨⟨moves, s₁⟩, ht, rfl⟩ := Option.map_eq_some_iff.mp hs
  have ha : Above s := h.2
  cases e with
  | take duct wid sign =>
    obtain ⟨ms, -, hms⟩ := Option.map_eq_some_iff.mp ht
    obtain ⟨-, rfl⟩ := Prod.mk.inj hms
    exact iff_of_true ha trivial
  | call duct task =>
    cases task with
    | born =>
      obtain ⟨-, rfl⟩ := Prod.mk.inj (Option.some.inj ht)
      exact ⟨fun hz w hw => Nat.not_lt_zero w (hz w hw), fun hc w hw => absurd hw (hc w)⟩
    | request req config =>
      have hr : (Iris.request duct req config s).2 = s₁ := congrArg Prod.snd (Option.some.inj ht)
      obtain ⟨hsock, hle⟩ := request_spec duct req config s
      rw [hr] at hsock hle
      exact iff_of_true (ha.of_le (fun w hw => hsock ▸ hw) hle) trivial
    | cancelRequest =>
      have hr : (cancel duct s).2 = s₁ := congrArg Prod.snd (Option.some.inj ht)
      refine iff_of_true ?_ trivial
      rcases cancel_state duct s with hc | ⟨id, hc⟩
      · exact (hc.symm.trans hr) ▸ ha
      · obtain ⟨hsock, hn⟩ := cleanupConnection_spec id s
        rw [← hc, hr] at hsock hn
        exact ha.of_le (fun w hw => hsock ▸ hw) hn.ge
    | receive id event =>
      obtain ⟨hsock, hn⟩ := (receive_received ht).spec
      exact iff_of_true (ha.of_le (fun w hw => hsock ▸ hw) hn.ge) trivial
    | websocketConnect desk url =>
      have hr : (wsConnect duct desk url s).2 = s₁ := congrArg Prod.snd (Option.some.inj ht)
      subst hr
      refine iff_of_true ?_ trivial
      unfold wsConnect
      split
      · exact ha
      · intro w hw
        rcases (AList.mem_insert _).mp hw with rfl | hw
        · exact Nat.lt_succ_self _
        · exact Nat.lt_succ_of_lt (ha w hw)
    | websocketEvent wid event =>
      have hr : (wsEvent duct wid event s).2 = s₁ := congrArg Prod.snd (Option.some.inj ht)
      obtain ⟨hn, -, -, -, hsock⟩ := wsEvent_spec duct wid event s
      rw [hr] at hn hsock
      exact iff_of_true (ha.of_le (fun w hw => ((hsock w).mp hw).1) hn.ge) trivial
    | cancelWebsocket wid =>
      obtain ⟨-, rfl⟩ := Prod.mk.inj (Option.some.inj ht)
      exact iff_of_true (ha.of_le (fun w hw => (AList.mem_erase.mp hw).2) (le_refl _)) trivial

theorem fresh_new : Fresh .new := ⟨AList.notMem_empty _, fun w hw => absurd hw (AList.notMem_empty w)⟩

/-- **The ids of websockets in a run** are fresh in every state if and only if the runtime restarts
only where there are no websockets. -/
theorem fresh_of_run {es : List Event} (h : Replay.follow step .new es = some s) :
    (∀ n a, Replay.At step .new es n a → Fresh a) ↔ Replay.Along step Cleared .new es :=
  Replay.Along.iff_all (fun _ => True) Fresh (fun _ _ _ _ _ => trivial) (fun _ _ _ _ hf hs => fresh_step hf hs)
    trivial fresh_new h

/-- A websocket is asked for, accepted and ended by the other side, and then the runtime restarts. -/
def restartRun : List Event :=
  [.call 1 .born, .call 2 (.websocketConnect "chat" "ws://a"), .call 1 (.websocketEvent 0 .accept),
    .call 1 (.websocketEvent 0 .disconnect), .call 3 .born, .call 4 (.websocketConnect "chat" "ws://b")]

theorem restartRun_fresh : ∃ s, Replay.follow step .new restartRun = some s ∧
    ∀ n a, Replay.At step .new restartRun n a → Fresh a := by
  have h : Replay.follow step .new restartRun = some _ := rfl
  refine ⟨_, h, (fresh_of_run h).mpr ?_⟩
  refine ⟨fun w => AList.notMem_empty w,
    fun b hb => ⟨trivial, fun b1 hb1 => ⟨trivial, fun b2 hb2 => ⟨trivial, fun b3 hb3 => ?_⟩⟩⟩⟩
  obtain rfl := Option.some.inj hb
  obtain rfl := Option.some.inj hb1
  obtain rfl := Option.some.inj hb2
  obtain rfl := Option.some.inj hb3
  exact ⟨fun w => AList.notMem_empty w, fun _ _ => ⟨trivial, fun _ _ => trivial⟩⟩

/-- After a restart a new websocket gets the id of one that is still there. -/
theorem restart_reuses :
    ∃ s s', Replay.follow step .new [.call 1 .born, .call 2 (.websocketConnect "chat" "ws://a"), .call 3 .born] =
      some s ∧ step s (.call 4 (.websocketConnect "talk" "ws://b")) = some s' ∧
    s.nextId ∈ s.sockets ∧ (s.sockets.lookup 0).map (·.app) = some "chat" ∧ (s'.sockets.lookup 0).map (·.app) =
      some "talk" ∧
      ¬ Fresh s := by
  have hin : 0 ∈ (⟨AList.insert 0 ⟨"chat", 2, 0, "ws://a", .pending⟩ ∅, 0, ∅, ∅, some 3⟩ : State).sockets :=
    AList.lookup_isSome.mp rfl
  exact ⟨_, _, rfl, rfl, hin, rfl, rfl, fun hf => hf.1 hin⟩

/-- A request, a cancel or receive of one, or a restart. -/
def Event.OfRequests : Event → Prop
  | .call _ .born | .call _ (.request _ _) | .call _ .cancelRequest | .call _ (.receive _ _) => True
  | _ => False

theorem ofRequests_sockets {e : Event} (he : e.OfRequests) (hs : step s e = some s') : s'.sockets = s.sockets := by
  obtain ⟨⟨moves, s₁⟩, ht, rfl⟩ := Option.map_eq_some_iff.mp hs
  cases e with
  | take duct wid sign => exact absurd he id
  | call duct task =>
    cases task with
    | born =>
      obtain ⟨-, rfl⟩ := Prod.mk.inj (Option.some.inj ht)
      rfl
    | request req config =>
      have hr : (Iris.request duct req config s).2 = s₁ := congrArg Prod.snd (Option.some.inj ht)
      exact hr ▸ (request_spec duct req config s).1
    | cancelRequest =>
      have hr : (cancel duct s).2 = s₁ := congrArg Prod.snd (Option.some.inj ht)
      rcases cancel_state duct s with hc | ⟨id, hc⟩
      · exact congrArg State.sockets (hr.symm.trans hc)
      · exact (congrArg State.sockets (hr.symm.trans hc)).trans (cleanupConnection_spec id s).1
    | receive id event => exact (receive_received ht).spec.1
    | websocketConnect desk url => exact absurd he id
    | websocketEvent wid event => exact absurd he id
    | cancelWebsocket wid => exact absurd he id

/-- **The connections in a run**: the two maps are each other's inverse in every state, the ids of the
requests are below the next one, and in a run of requests only so are all ids. -/
theorem linked_of_run {es : List Event} (h : Replay.follow step .new es = some s) :
    (∀ id duct, (∃ p, s.connectionById.lookup id = some (duct, p)) ↔ s.connectionByDuct.lookup duct = some id) ∧
      (∀ id ∈ s.connectionById, id < s.nextId) ∧
      ((∀ e ∈ es, e.OfRequests) → ∀ id, id ∈ s.connectionById ∨ id ∈ s.sockets → id < s.nextId) := by
  have hl : Linked s := Replay.follow_inv (fun _ => Linked) linked_new (fun _ _ _ _ hb hs => hb.step hs) h
  refine ⟨fun id duct => ?_, hl.below, fun hof id hid => ?_⟩
  · rw [← hl.inverse id duct]
    unfold State.ductOf
    rw [Option.map_eq_some_iff]
    exact ⟨fun ⟨p, hp⟩ => ⟨_, hp, rfl⟩, fun ⟨⟨d, p⟩, hp, hd⟩ => ⟨p, hp.trans (congrArg (fun d => some (d, p)) hd)⟩⟩
  · have hnone : (∀ e ∈ es, e.OfRequests) → ∀ w, w ∉ s.sockets := by
      refine Replay.follow_inv (fun l a => (∀ e ∈ l, e.OfRequests) → ∀ w, w ∉ a.sockets)
        (fun _ w => AList.notMem_empty w) ?_ h
      intro l b e c hb hs hall
      rw [ofRequests_sockets (hall e (List.mem_append_right l List.mem_cons_self)) hs]
      exact hb fun e' he' => hall e' (List.mem_append_left _ he')
    exact hid.elim (hl.below id) fun hid => absurd hid (hnone hof id)

/-- Two requests, the first of which is finished. -/
def requestRun : List Event :=
  [.call 1 .born, .call 2 (.request ⟨"GET", "http://a", [], none⟩ ⟨0, 0⟩),
    .call 3 (.request ⟨"GET", "http://b", [], none⟩ ⟨0, 0⟩),
    .call 1 (.receive 0 (.start ⟨200, []⟩ none true))]

theorem requestRun_linked : ∃ s, Replay.follow step .new requestRun = some s ∧ s.connectionByDuct.lookup 3 = some 1 ∧
    s.connectionByDuct.lookup 2 = none ∧ (∃ p, s.connectionById.lookup 1 = some (3, p)) := by
  have h : Replay.follow step .new requestRun = some _ := rfl
  exact ⟨_, h, rfl, rfl, ((linked_of_run h).1 1 3).mpr rfl⟩

end Iris
end Ursockets
