/-
# Runs of eyre's websockets

Handshakes, the client's events, what agents say on their watches, cancelled requests and
restarts of the runtime, in any order. What a connection's life is like is kept beside the
state: it begins with a handshake that is led to an agent, is open once an accept for its id
has been passed, and ends by the client, by the agent or by the runtime. The runtime gives
each connection a duct of its own, and an id of its own as long as it runs.

Key definitions: `Conn`, `SocketSys`, `SocketTask`, `socketTurn`, `Placed`, `Kept`.
Key theorems: `placed_iff`, `sockets_of_run`.
-/
import Ursockets.EyreRun
import Ursockets.EyreSocket
import Mathlib.Logic.Function.Basic

namespace Ursockets
namespace Eyre

/-! ### The system -/

/-- A websocket connection that has been led to an agent. -/
structure Conn where
  wid : ℕ
  duct : Duct
  app : String
  identity : Identity
  url : String
  accepted : Bool
  deriving DecidableEq

/-- The state, all handshakes that were led to agents, the ids of the runtime, the connections that
are alive by their ids, the ids for which a reject or disconnect has been passed since their
handshakes, the moves so far and the messages that were delivered for live connections. -/
structure SocketSys where
  state : ServerState
  shakes : List Conn
  wids : List ℕ
  life : ℕ → Option Conn
  shut : ℕ → Bool
  log : List Move
  heard : List (Conn × WebsocketMessage)

def SocketSys.start : SocketSys := ⟨emptyState, [], [], fun _ => none, fun _ => false, [], []⟩

/-- What happens. Anything else leaves the websockets and their connections. -/
inductive SocketTask where
  | handshake (now : Da) (duct : Duct) (eny : Eny) (action : Action) (wid : ℕ) (secure : Bool) (address : ℕ)
      (request : Request)
  | client (duct : Duct) (wid : ℕ) (event : WebsocketEvent)
  | watch (now : Da) (duct : Duct) (wid : ℕ) (sign : WatchSign)
  | cancel (now : Da) (duct : Duct)
  | born (now : Da)
  | other (state : ServerState)

/-- The moves go out and the state is the new one. -/
def SocketSys.give (a : SocketSys) (r : List Move × ServerState) : SocketSys :=
  { a with state := r.2, log := a.log ++ r.1 }

/-- The live connection of an id, if it is on this duct. -/
def SocketSys.at (a : SocketSys) (duct : Duct) (wid : ℕ) : Option Conn := (a.life wid).filter fun c => c.duct = duct

/-- A connection begins. -/
def SocketSys.shake (a : SocketSys) (c : Conn) : SocketSys :=
  { a with
    shakes := c :: a.shakes, wids := c.wid :: a.wids,
    life := Function.update a.life c.wid (some c), shut := Function.update a.shut c.wid false }

/-- The connection of an id ends. -/
def SocketSys.close (a : SocketSys) (wid : ℕ) : SocketSys := { a with life := Function.update a.life wid none }

/-- The connection of an id ends, if it is on this duct. -/
def SocketSys.closeAt (a : SocketSys) (duct : Duct) (wid : ℕ) : SocketSys :=
  if (a.at duct wid).isSome then a.close wid else a

/-- A response for an id has been passed. -/
def SocketSys.pass (a : SocketSys) (wid : ℕ) (event : WebsocketEvent) : SocketSys :=
  match event with
  | .accept => { a with life := Function.update a.life wid ((a.life wid).map fun c => { c with accepted := true }) }
  | .message _ => a
  | .reject | .disconnect => { a.close wid with shut := Function.update a.shut wid true }

/-- What a sign on the watch of `wid` does to the connections. -/
def SocketSys.hear (a : SocketSys) (duct : Duct) (wid : ℕ) (sign : WatchSign) : SocketSys :=
  match sign with
  | .watchAck none => a
  | .watchAck (some _) | .fact none => a.closeAt duct wid
  | .kick => a.pass wid .disconnect
  | .fact (some (wid', event)) => a.pass wid' event

/-- There was a handshake of this id on this duct. -/
def SocketSys.Knows (a : SocketSys) (duct : Duct) (wid : ℕ) : Prop := ∃ c ∈ a.shakes, c.duct = duct ∧ c.wid = wid

instance (a : SocketSys) (duct : Duct) (wid : ℕ) : Decidable (a.Knows duct wid) :=
  inferInstanceAs (Decidable (∃ c ∈ a.shakes, _))

variable (text : Text) (our : Ship)

/-- One event, which is undone if it crashes. The runtime has events of connections that it
knows, and signs come on watches that were opened. -/
def socketTurn (a : SocketSys) : SocketTask → Option SocketSys
  | .handshake now duct eny action wid secure address request =>
    if wid ∈ a.wids ∨ duct ∈ a.shakes.map Conn.duct then none
    else (wsHandshake text our now duct eny action wid secure address request a.state).map fun r =>
      match action with
      | .app app =>
        let identity := (r.2.connections.lookup duct).elim (.fake 0) OutstandingConnection.identity
        (a.give r).shake ⟨wid, duct, app, identity, request.url, false⟩
      | _ => a.give r
  | .client duct wid event =>
    if a.Knows duct wid then
      let b := a.give (wsEvent our duct wid event a.state)
      some (match event with
        | .message m => { b with heard := a.heard ++ ((a.at duct wid).map fun c => (c, m)).toList }
        | .disconnect => b.closeAt duct wid
        | _ => b)
    else none
  | .watch now duct wid sign =>
    if a.Knows duct wid then
      (takeWsWatchResponse text our now duct wid sign a.state).map fun r => (a.give r).hear duct wid sign
    else none
  | .cancel now duct =>
    (cancelRequest our now duct a.state).map fun r =>
      { a.give r with life := fun w => (a.life w).filter fun c => c.duct ≠ duct }
  | .born now => (born our now a.state).map fun r => { a.give r with life := fun _ => none, wids := [] }
  | .other s =>
    if s.sockets = a.state.sockets ∧ ∀ c ∈ a.shakes, s.connections.lookup c.duct =
      a.state.connections.lookup c.duct then
      some { a with state := s }
    else none

/-! ### What the arms do to sockets and connections -/

variable {text our} {now : Da} {duct : Duct} {eny : Eny} {action : Action} {wid : ℕ} {secure : Bool} {address : ℕ}
  {request : Request} {s s' : ServerState} {moves : List Move} {event : WebsocketEvent} {sign : WatchSign}
    {app : String}

theorem sessionForRequest_sockets {found : ℕ ⊕ ℕ × Identity × List Move}
    (h : sessionForRequest text our now duct eny request s = some (found, s')) :
    s'.sockets = s.sockets ∧ s'.connections = s.connections := by
  unfold sessionForRequest at h
  split at h
  · obtain ⟨⟨r, s1⟩, hstart, hr⟩ := Option.map_eq_some_iff.mp h
    obtain ⟨-, rfl⟩ := Prod.mk.inj hr
    unfold startSession at hstart
    simp only [Option.bind_eq_bind, Option.bind_eq_some_iff, Option.some.injEq, Prod.mk.injEq] at hstart
    obtain ⟨-, -, -, -, -, rfl⟩ := hstart
    exact ⟨rfl, rfl⟩
  · split at h
    · obtain ⟨-, rfl⟩ := Prod.mk.inj (Option.some.inj h)
      exact ⟨rfl, rfl⟩
    · split at h <;> obtain ⟨-, rfl⟩ := Prod.mk.inj (Option.some.inj h) <;> exact ⟨rfl, rfl⟩

/-- A handshake that is led to an agent leaves a connection of that agent's, and watches and pokes it. -/
theorem wsHandshake_spec (h : wsHandshake text our now duct eny (.app app) wid secure address request s = some
    (moves, s')) :
    s'.sockets = s.sockets ∧ ∃ o som, s'.connections = s.connections.insert duct o ∧ o.action = .app app ∧
      o.inboundRequest.request = request ∧ moves = som ++ handshakeMoves our duct wid o.identity app o.inboundRequest ∧
      ∀ m ∈ som, ∃ wire date, m.card = .wait wire date := by
  unfold wsHandshake at h
  simp only [Option.bind_eq_bind, Option.bind_eq_some_iff, Option.some.injEq, Prod.mk.injEq] at h
  obtain ⟨⟨found, s1⟩, hfound, hmoves, rfl⟩ := h
  obtain ⟨hs, hc⟩ := sessionForRequest_sockets hfound
  have hsom := (sessionForRequest_source hfound).1
  cases found with
  | inl invalid =>
    exact ⟨hs, _, [], congrArg (AList.insert duct _) hc, rfl, rfl, hmoves.symm, fun _ hm => absurd hm List.not_mem_nil⟩
  | inr r => exact ⟨hs, _, r.2.2, congrArg (AList.insert duct _) hc, rfl, rfl, hmoves.symm, hsom⟩

theorem wsEvent_sockets : (wsEvent our duct wid event s).2.sockets = s.sockets := by
  unfold wsEvent
  split
  · rfl
  · split
    · split
      · rfl
      · split <;> rfl
    · rfl

theorem handleResponse_sockets (text : Text) (our : Ship) (now : Da) (duct : Duct) (e : HttpEvent) (s : ServerState) :
    (handleResponse text our now duct e s).2.sockets = s.sockets := by
  unfold handleResponse
  split
  · rfl
  · split
    · split <;> rfl
    · split <;> rfl
    · rfl

theorem handleGallError_sockets (text : Text) (our : Ship) (now : Da) (duct : Duct) (tang : String) (s : ServerState) :
    (handleGallError text our now duct tang s).2.sockets = s.sockets := by
  unfold handleGallError
  split
  · rfl
  · exact handleResponse_sockets _ _ _ _ _ _

theorem onCancelRequest_sockets (h : onCancelRequest now duct s = some (moves, s')) :
    s'.sockets = s.sockets ∧ s'.connections = s.connections := by
  unfold onCancelRequest at h
  split at h
  · obtain ⟨-, rfl⟩ := Prod.mk.inj (Option.some.inj h)
    exact ⟨rfl, rfl⟩
  · split at h
    · obtain ⟨-, rfl⟩ := Prod.mk.inj (Option.some.inj h)
      exact ⟨rfl, rfl⟩
    · split at h
      · exact absurd h.symm (Option.some_ne_none _)
      · obtain ⟨-, rfl⟩ := Prod.mk.inj (Option.some.inj h)
        exact ⟨rfl, rfl⟩

/-- A cancelled request is gone, and nothing else of the connections and sockets. -/
theorem cancelRequest_spec (h : cancelRequest our now duct s = some (moves, s')) :
    s'.sockets = s.sockets ∧ ∀ d, s'.connections.lookup d = if d = duct then none else s.connections.lookup d := by
  have herase : ∀ d, (s.connections.erase duct).lookup d = if d = duct then none else s.connections.lookup d := by
    intro d
    split
    · rename_i hd
      rw [hd, AList.lookup_erase]
    · rename_i hd
      exact AList.lookup_erase_ne hd
  unfold cancelRequest at h
  split at h
  · rename_i hnone
    obtain ⟨-, rfl⟩ := Prod.mk.inj (Option.some.inj h)
    refine ⟨rfl, fun d => ?_⟩
    split
    · rename_i hd
      rw [hd, hnone]
    · rfl
  · rename_i c hc
    dsimp only at h
    split at h
    case h_6 =>
      obtain ⟨hs, hconn⟩ := onCancelRequest_sockets h
      exact ⟨hs, fun d => hconn ▸ herase d⟩
    all_goals first
      | exact absurd h.symm (Option.some_ne_none _)
      | exact (Prod.mk.inj (Option.some.inj h)).2 ▸ ⟨rfl, herase⟩

theorem cancelAll_sockets : ∀ {ds : List Duct} {s s' : ServerState} {moves : List Move},
    cancelAll our now ds s = some (moves, s') → s'.sockets = s.sockets
  | [], _, _, _, h => congrArg ServerState.sockets (Prod.mk.inj (Option.some.inj h)).2.symm
  | d :: ds, s, s', moves, h => by
    rw [cancelAll] at h
    simp only [Option.bind_eq_bind, Option.bind_eq_some_iff, Option.some.injEq, Prod.mk.injEq] at h
    obtain ⟨⟨ms, s1⟩, hone, ⟨later, s2⟩, hall, -, rfl⟩ := h
    exact (cancelAll_sockets hall).trans (cancelRequest_spec hone).1

/-- What a response for an id does to the map of sockets. -/
theorem handleWsResponse_sockets {r : List Move × ServerState} (h : handleWsResponse duct wid event s = some r)
    (w : ℕ) :
    w ∈ r.2.sockets ↔ match event with
      | .accept => w ∈ s.sockets ∨ w = wid ∧ duct ∈ s.connections
      | .message _ => w ∈ s.sockets
      | .reject | .disconnect => w ∈ s.sockets ∧ w ≠ wid := by
  unfold handleWsResponse at h
  cases event with
  | accept =>
    dsimp only at h
    cases ho : s.connections.lookup duct with
    | none =>
      rw [ho] at h
      obtain rfl := Option.some.inj h
      have hno : duct ∉ s.connections := AList.lookup_eq_none.mp ho
      exact ⟨.inl, fun h => h.elim id fun h => absurd h.2 hno⟩
    | some o =>
      rw [ho] at h
      have hin : duct ∈ s.connections := AList.lookup_isSome.mp (by rw [ho]; rfl)
      dsimp only at h
      split at h
      · obtain rfl := Option.some.inj h
        refine (AList.mem_insert _).trans ⟨fun h => h.elim (fun h => .inr ⟨h, hin⟩) .inl, fun h => ?_⟩
        exact h.elim .inr fun h => .inl h.1
      · exact absurd h.symm (Option.some_ne_none _)
  | message m =>
    obtain rfl := Option.some.inj h
    exact Iff.rfl
  | reject =>
    obtain rfl := Option.some.inj h
    exact AList.mem_erase.trans and_comm
  | disconnect =>
    obtain rfl := Option.some.inj h
    exact AList.mem_erase.trans and_comm

/-! ### Lives -/

variable {a b : SocketSys} {e : SocketTask}

/-- Live connections are ones of the runtime that runs, and on ducts of their own. -/
structure Sane (a : SocketSys) : Prop where
  wid : ∀ {w c}, a.life w = some c → c.wid = w ∧ w ∈ a.wids
  duct : ∀ {w c}, a.life w = some c → c.duct ∈ a.shakes.map Conn.duct
  inj : ∀ {w w' c c'}, a.life w = some c → a.life w' = some c' → c.duct = c'.duct → w = w'

/-- What is alive after a step was so before, on the same duct, or begins. -/
theorem Sane.shrink (h : Sane a) (hl : ∀ w c, b.life w = some c → ∃ c', a.life w = some c' ∧ c.wid = c'.wid ∧
    c.duct = c'.duct)
    (hs : b.shakes = a.shakes) (hw : ∀ w c, b.life w = some c → w ∈ a.wids → w ∈ b.wids) : Sane b where
  wid := fun hc => by
    obtain ⟨c', hc', hid, -⟩ := hl _ _ hc
    exact ⟨hid.trans (h.wid hc').1, hw _ _ hc (h.wid hc').2⟩
  duct := fun hc => by
    obtain ⟨c', hc', -, hd⟩ := hl _ _ hc
    rw [hs, hd]
    exact h.duct hc'
  inj := fun hc hc' hd => by
    obtain ⟨x, hx, -, hxd⟩ := hl _ _ hc
    obtain ⟨x', hx', -, hxd'⟩ := hl _ _ hc'
    exact h.inj hx hx' (hxd ▸ hxd' ▸ hd)

theorem Sane.shake (h : Sane a) {c : Conn} (hw : c.wid ∉ a.wids) (hd : c.duct ∉ a.shakes.map Conn.duct) :
    Sane (a.shake c) := by
  have hlife : ∀ w x, (a.shake c).life w = some x → w = c.wid ∧ x = c ∨ w ≠ c.wid ∧ a.life w = some x := by
    intro w x hx
    by_cases hwc : w = c.wid
    · subst hwc
      exact .inl ⟨rfl, Option.some.inj ((Function.update_self _ _ _).symm.trans hx).symm⟩
    · exact .inr ⟨hwc, (Function.update_of_ne hwc _ _).symm.trans hx⟩
  refine ⟨fun hx => ?_, fun hx => ?_, fun hx hx' hdd => ?_⟩
  · rcases hlife _ _ hx with ⟨rfl, rfl⟩ | ⟨-, hx⟩
    · exact ⟨rfl, List.mem_cons_self⟩
    · exact ⟨(h.wid hx).1, List.mem_cons_of_mem _ (h.wid hx).2⟩
  · rcases hlife _ _ hx with ⟨rfl, rfl⟩ | ⟨-, hx⟩
    · exact List.mem_cons_self
    · exact List.mem_cons_of_mem _ (h.duct hx)
  · rcases hlife _ _ hx with ⟨rfl, rfl⟩ | ⟨-, h1⟩ <;> rcases hlife _ _ hx' with ⟨rfl, rfl⟩ | ⟨-, h2⟩
    · rfl
    · exact absurd (hdd ▸ h.duct h2) hd
    · exact absurd (hdd ▸ h.duct h1) hd
    · exact h.inj h1 h2 hdd

/-- A sign or an event of the client leaves a connection as it is, ends it, or opens it. -/
def Fewer (a b : SocketSys) : Prop :=
  (∀ w c, b.life w = some c → ∃ c', a.life w = some c' ∧ c.wid = c'.wid ∧ c.duct = c'.duct) ∧
    b.shakes = a.shakes ∧ b.wids = a.wids

theorem Fewer.rfl' : Fewer a a := ⟨fun _ c hc => ⟨c, hc, rfl, rfl⟩, rfl, rfl⟩

theorem fewer_close (wid : ℕ) : Fewer a (a.close wid) := by
  refine ⟨fun w c hc => ?_, rfl, rfl⟩
  by_cases hw : w = wid
  · subst hw
    exact absurd ((Function.update_self _ _ _).symm.trans hc) (Option.some_ne_none _).symm
  · exact ⟨c, (Function.update_of_ne hw _ _).symm.trans hc, rfl, rfl⟩

theorem fewer_closeAt (duct : Duct) (wid : ℕ) : Fewer a (a.closeAt duct wid) := by
  unfold SocketSys.closeAt
  split
  · exact fewer_close wid
  · exact Fewer.rfl'

theorem fewer_pass (wid : ℕ) (event : WebsocketEvent) : Fewer a (a.pass wid event) := by
  cases event with
  | accept =>
    refine ⟨fun w c hc => ?_, rfl, rfl⟩
    by_cases hw : w = wid
    · subst hw
      unfold SocketSys.pass at hc
      dsimp only at hc
      rw [Function.update_self] at hc
      obtain ⟨c', hc', rfl⟩ := Option.map_eq_some_iff.mp hc
      exact ⟨c', hc', rfl, rfl⟩
    · exact ⟨c, (Function.update_of_ne hw _ _).symm.trans hc, rfl, rfl⟩
  | message m => exact Fewer.rfl'
  | reject => exact fewer_close wid
  | disconnect => exact fewer_close wid

theorem fewer_hear (duct : Duct) (wid : ℕ) (sign : WatchSign) : Fewer a (a.hear duct wid sign) := by
  unfold SocketSys.hear
  split
  · exact Fewer.rfl'
  · exact fewer_closeAt duct wid
  · exact fewer_closeAt duct wid
  · exact fewer_pass wid _
  · exact fewer_pass _ _

theorem Sane.fewer (h : Sane a) (hf : Fewer a b) : Sane b := h.shrink hf.1 hf.2.1 fun _ _ _ hw => hf.2.2 ▸ hw

/-- **Live connections stay ones of the runtime, on ducts of their own.** -/
theorem Sane.turn (h : Sane a) (ht : socketTurn text our a e = some b) : Sane b := by
  cases e with
  | handshake now duct eny action wid secure address request =>
    unfold socketTurn at ht
    dsimp only at ht
    split at ht
    · exact absurd ht.symm (Option.some_ne_none _)
    · rename_i hnew
      obtain ⟨hw, hd⟩ := not_or.mp hnew
      obtain ⟨r, hr, rfl⟩ := Option.map_eq_some_iff.mp ht
      split
      · exact Sane.shake (a := a.give r) ⟨h.wid, h.duct, h.inj⟩ hw hd
      · exact ⟨h.wid, h.duct, h.inj⟩
  | client duct wid event =>
    unfold socketTurn at ht
    dsimp only at ht
    split at ht
    · obtain rfl := Option.some.inj ht
      split
      · exact ⟨h.wid, h.duct, h.inj⟩
      · exact Sane.fewer (a := a.give _) ⟨h.wid, h.duct, h.inj⟩ (fewer_closeAt duct wid)
      · exact ⟨h.wid, h.duct, h.inj⟩
    · exact absurd ht.symm (Option.some_ne_none _)
  | watch now duct wid sign =>
    unfold socketTurn at ht
    dsimp only at ht
    split at ht
    · obtain ⟨r, hr, rfl⟩ := Option.map_eq_some_iff.mp ht
      exact Sane.fewer (a := a.give r) ⟨h.wid, h.duct, h.inj⟩ (fewer_hear duct wid sign)
    · exact absurd ht.symm (Option.some_ne_none _)
  | cancel now duct =>
    obtain ⟨r, hr, rfl⟩ := Option.map_eq_some_iff.mp ht
    exact h.shrink (fun w c hc => ⟨c, (Option.filter_eq_some_iff.mp hc).1, rfl, rfl⟩) rfl fun _ _ _ hw => hw
  | born now =>
    obtain ⟨r, hr, rfl⟩ := Option.map_eq_some_iff.mp ht
    exact ⟨fun hc => absurd hc.symm (Option.some_ne_none _), fun hc => absurd hc.symm (Option.some_ne_none _),
      fun hc => absurd hc.symm (Option.some_ne_none _)⟩
  | other s =>
    unfold socketTurn at ht
    dsimp only at ht
    split at ht
    · obtain rfl := Option.some.inj ht
      exact ⟨h.wid, h.duct, h.inj⟩
    · exact absurd ht.symm (Option.some_ne_none _)

theorem sane_start : Sane .start :=
  ⟨fun hc => absurd hc.symm (Option.some_ne_none _), fun hc => absurd hc.symm (Option.some_ne_none _),
    fun hc => absurd hc.symm (Option.some_ne_none _)⟩

/-! ### The map of sockets -/

/-- The id has been accepted, and neither side has ended its connection. -/
def SocketSys.Opened (a : SocketSys) (w : ℕ) : Prop := ∃ c, a.life w = some c ∧ c.accepted = true

/-- The map of sockets has the ids that are open. -/
def Placed (a : SocketSys) : Prop := ∀ w, w ∈ a.state.sockets ↔ a.Opened w

/-- The events that the map of sockets follows: no open id's connection ends by its client, by an error
of its agent, by a cancelled request or with the runtime; and an accept names an id that is
alive just when the connection of the watch that it comes on is there. -/
def Kept (a : SocketSys) : SocketTask → Prop
  | .client duct wid .disconnect => ∀ c, a.at duct wid = some c → c.accepted = false
  | .watch _ duct wid (.watchAck (some _)) => ∀ c, a.at duct wid = some c → c.accepted = false
  | .watch _ duct wid (.fact none) => ∀ c, a.at duct wid = some c → c.accepted = false
  | .watch _ duct _ (.fact (some (wid, .accept))) =>
    a.Opened wid ∨ ((a.life wid).isSome ↔ duct ∈ a.state.connections)
  | .cancel _ duct => ∀ w c, a.life w = some c → c.duct = duct → c.accepted = false
  | .born _ => ∀ w c, a.life w = some c → c.accepted = false
  | _ => True

theorem opened_close (wid w : ℕ) : (a.close wid).Opened w ↔ a.Opened w ∧ w ≠ wid := by
  unfold SocketSys.Opened SocketSys.close
  dsimp only
  by_cases hw : w = wid
  · subst hw
    rw [Function.update_self]
    exact iff_of_false (fun ⟨_, hc, _⟩ => Option.some_ne_none _ hc.symm) fun h => h.2 rfl
  · rw [Function.update_of_ne hw]
    exact (and_iff_left hw).symm

theorem at_some {c : Conn} : a.at duct wid = some c ↔ a.life wid = some c ∧ c.duct = duct := by
  unfold SocketSys.at
  rw [Option.filter_eq_some_iff, decide_eq_true_eq]

/-- The open ids stay the same when a connection ends if and only if it was not open. -/
theorem opened_closeAt : (∀ w, a.Opened w ↔ (a.closeAt duct wid).Opened w) ↔
    ∀ c, a.at duct wid = some c → c.accepted = false := by
  unfold SocketSys.closeAt
  cases hat : a.at duct wid with
  | none =>
    rw [if_neg (by decide)]
    exact iff_of_true (fun _ => Iff.rfl) fun _ hc => absurd hc.symm (Option.some_ne_none _)
  | some c =>
    obtain ⟨hc, -⟩ := at_some.mp hat
    rw [if_pos (show (some c).isSome = true from rfl)]
    constructor
    · intro h c' hc'
      obtain rfl := Option.some.inj hc'
      by_contra hacc
      exact ((opened_close wid wid).mp ((h wid).mp ⟨c, hc, Bool.not_eq_false _ ▸ hacc⟩)).2 rfl
    · intro h w
      rw [opened_close]
      refine (and_iff_left_of_imp ?_).symm
      rintro ⟨c', hc', hacc⟩ rfl
      obtain rfl := Option.some.inj (hc.symm.trans hc')
      exact Bool.false_ne_true ((h c rfl).symm.trans hacc)

theorem opened_accept (wid w : ℕ) : (a.pass wid .accept).Opened w ↔ a.Opened w ∨ w = wid ∧ (a.life wid).isSome := by
  unfold SocketSys.Opened SocketSys.pass
  dsimp only
  by_cases hw : w = wid
  · subst hw
    rw [Function.update_self]
    cases a.life w with
    | none => simp
    | some c => simp
  · rw [Function.update_of_ne hw]
    exact (or_iff_left fun h => hw h.1).symm

theorem closeAt_state : (a.closeAt duct wid).state = a.state := by
  unfold SocketSys.closeAt
  split <;> rfl

theorem placed_closeAt (hp : Placed a) :
    Placed (a.closeAt duct wid) ↔ ∀ c, a.at duct wid = some c → c.accepted = false := by
  refine Iff.trans (forall_congr' fun w => iff_congr ?_ Iff.rfl) opened_closeAt
  rw [closeAt_state]
  exact hp w

/-- A response that has been passed does to the map of sockets what it does to the open ids, but an
accept of an id that is alive, or of a connection that is there, without the other. -/
theorem placed_pass {r : List Move × ServerState} (hp : Placed a)
    (h : handleWsResponse duct wid event a.state = some r) :
    Placed ((a.give r).pass wid event) ↔
      (event = .accept → a.Opened wid ∨ ((a.life wid).isSome ↔ duct ∈ a.state.connections)) := by
  have hsock := fun w => handleWsResponse_sockets h w
  cases event with
  | accept =>
    refine Iff.trans (forall_congr' fun w => iff_congr (hsock w) (opened_accept wid w)) ?_
    dsimp only
    constructor
    · intro hall _
      by_cases ho : a.Opened wid
      · exact .inl ho
      · have hw := hall wid
        rw [hp wid, or_iff_right ho, and_iff_right rfl] at hw
        exact .inr ((hw.trans (or_iff_right ho)).trans (and_iff_right rfl)).symm
    · intro hk w
      rw [hp w]
      rcases hk rfl with ho | hiff
      · refine ⟨fun h => h.elim .inl fun h => .inl (h.1 ▸ ho), fun h => h.elim .inl fun h => .inl (h.1 ▸ ho)⟩
      · exact or_congr_right (and_congr_right fun _ => hiff.symm)
  | message m => exact iff_of_true (fun w => (hsock w).trans (hp w)) fun h => nomatch h
  | reject =>
    exact iff_of_true (fun w => (hsock w).trans ((and_congr_left' (hp w)).trans (opened_close wid w).symm))
      fun h => nomatch h
  | disconnect =>
    exact iff_of_true (fun w => (hsock w).trans ((and_congr_left' (hp w)).trans (opened_close wid w).symm))
      fun h => nomatch h

/-- **The map of sockets stays right in just the steps that are listed.** -/
theorem placed_iff (hs : Sane a) (hp : Placed a) (h : socketTurn text our a e = some b) : Placed b ↔ Kept a e := by
  cases e with
  | handshake now duct eny action wid secure address request =>
    unfold socketTurn at h
    dsimp only at h
    split at h
    · exact absurd h.symm (Option.some_ne_none _)
    · rename_i hnew
      obtain ⟨hw, -⟩ := not_or.mp hnew
      obtain ⟨⟨ms, s⟩, hr, rfl⟩ := Option.map_eq_some_iff.mp h
      refine iff_of_true (fun w => ?_) trivial
      cases action with
      | app app =>
        have hsock : s.sockets = a.state.sockets := (wsHandshake_spec hr).1
        have hdead : ¬ a.Opened wid := fun ⟨_, hc, _⟩ => hw (hs.wid hc).2
        show w ∈ s.sockets ↔ ∃ c, Function.update a.life wid _ w = some c ∧ _
        rw [hsock, hp w]
        by_cases hww : w = wid
        · subst hww
          rw [Function.update_self]
          refine iff_of_false hdead fun ⟨c, hc, hacc⟩ => ?_
          obtain rfl := Option.some.inj hc
          exact Bool.false_ne_true hacc
        · rw [Function.update_of_ne hww]
          rfl
      | _ =>
        have hsock :
          s.sockets = a.state.sockets := congrArg ServerState.sockets (Prod.mk.inj (Option.some.inj hr)).2.symm
        exact (iff_of_eq (congrArg (w ∈ ·) hsock)).trans (hp w)
  | client duct wid event =>
    unfold socketTurn at h
    dsimp only at h
    split at h
    · obtain rfl := Option.some.inj h
      have hsock : ∀ w, w ∈ (wsEvent our duct wid event a.state).2.sockets ↔ a.Opened w := fun w => by
        rw [wsEvent_sockets]
        exact hp w
      cases event with
      | disconnect =>
        exact placed_closeAt (a := a.give (wsEvent our duct wid .disconnect a.state)) hsock
      | message m => exact iff_of_true hsock trivial
      | accept => exact iff_of_true hsock trivial
      | reject => exact iff_of_true hsock trivial
    · exact absurd h.symm (Option.some_ne_none _)
  | watch now duct wid sign =>
    unfold socketTurn at h
    dsimp only at h
    split at h
    · obtain ⟨r, hr, rfl⟩ := Option.map_eq_some_iff.mp h
      have herror : ∀ tang, r = handleGallError text our now duct tang a.state →
          (Placed ((a.give r).closeAt duct wid) ↔ ∀ c, a.at duct wid = some c → c.accepted = false) := fun tang he => by
        refine placed_closeAt (a := a.give r) fun w => ?_
        rw [he]
        exact (iff_of_eq (congrArg (w ∈ ·) (handleGallError_sockets _ _ _ _ _ _))).trans (hp w)
      cases sign with
      | watchAck tang =>
        cases tang with
        | none =>
          obtain rfl := Option.some.inj hr
          exact iff_of_true hp trivial
        | some tang => exact herror tang (Option.some.inj hr).symm
      | kick =>
        have hkick : handleWsResponse duct wid .disconnect a.state = some r := hr
        exact (placed_pass hp hkick).trans (iff_of_true (fun h => nomatch h) trivial)
      | fact response =>
        cases response with
        | none => exact herror _ (Option.some.inj hr).symm
        | some response =>
          obtain ⟨wid', event⟩ := response
          have hfact : handleWsResponse duct wid' event a.state = some r := hr
          refine (placed_pass hp hfact).trans ?_
          cases event with
          | accept => exact ⟨fun h => h rfl, fun h _ => h⟩
          | _ => exact iff_of_true (fun h => nomatch h) trivial
    · exact absurd h.symm (Option.some_ne_none _)
  | cancel now duct =>
    obtain ⟨⟨ms, s⟩, hr, rfl⟩ := Option.map_eq_some_iff.mp h
    have hsock : s.sockets = a.state.sockets := (cancelRequest_spec hr).1
    have hopen : ∀ w, w ∈ s.sockets ↔ a.Opened w := fun w => by
      rw [hsock]
      exact hp w
    refine (forall_congr' fun w => iff_congr (hopen w) Iff.rfl).trans ?_
    constructor
    · intro h w c hc hd
      by_contra hacc
      obtain ⟨c', hc', -⟩ := (h w).mp ⟨c, hc, Bool.not_eq_false _ ▸ hacc⟩
      obtain ⟨h1, h2⟩ := Option.filter_eq_some_iff.mp hc'
      obtain rfl := Option.some.inj (hc.symm.trans h1)
      exact of_decide_eq_true h2 hd
    · intro h w
      refine exists_congr fun c => ?_
      show _ ↔ (a.life w).filter _ = some c ∧ _
      rw [Option.filter_eq_some_iff, and_assoc]
      refine and_congr_right fun hc => (and_iff_right_of_imp fun hacc => ?_).symm
      exact decide_eq_true fun hd => Bool.false_ne_true ((h w c hc hd).symm.trans hacc)
  | born now =>
    obtain ⟨⟨ms, s⟩, hr, rfl⟩ := Option.map_eq_some_iff.mp h
    have hsock : s.sockets = a.state.sockets := cancelAll_sockets hr
    have hopen : ∀ w, w ∈ s.sockets ↔ a.Opened w := fun w => by
      rw [hsock]
      exact hp w
    refine (forall_congr' fun w => iff_congr (hopen w) Iff.rfl).trans ?_
    constructor
    · intro h w c hc
      by_contra hacc
      obtain ⟨c', hc', -⟩ := (h w).mp ⟨c, hc, Bool.not_eq_false _ ▸ hacc⟩
      exact Option.some_ne_none _ hc'.symm
    · intro h w
      refine iff_of_false ?_ ?_
      · rintro ⟨c, hc, hacc⟩
        exact Bool.false_ne_true ((h w c hc).symm.trans hacc)
      · rintro ⟨c, hc, -⟩
        exact Option.some_ne_none _ hc.symm
  | other s =>
    unfold socketTurn at h
    dsimp only at h
    split at h
    · rename_i hsame
      obtain rfl := Option.some.inj h
      refine iff_of_true (fun w => ?_) trivial
      exact (iff_of_eq (congrArg (w ∈ ·) hsame.1)).trans (hp w)
    · exact absurd h.symm (Option.some_ne_none _)

theorem placed_start : Placed .start := fun _ => iff_of_false (AList.notMem_empty _) fun ⟨_, hc, _⟩ =>
    Option.some_ne_none _ hc.symm

/-- **The map of sockets in a run** has the ids that are open in every state if and only if each
event of the run is one that it follows. -/
theorem sockets_of_run {es : List SocketTask} (h : Replay.follow (socketTurn text our) .start es = some b) :
    (∀ n a, Replay.At (socketTurn text our) .start es n a → Placed a) ↔
      Replay.Along (socketTurn text our) Kept .start es :=
  Replay.Along.iff_all Sane Placed (fun _ _ _ ha ht => ha.turn ht) (fun _ _ _ hs hp ht => placed_iff hs hp ht)
    sane_start placed_start h

/-- A handshake of the id 7 on the duct 3 that is led to an agent, with no cookie. -/
def shakeTask (url : String) : SocketTask := .handshake 10 3 ⟨[5], 0, [9]⟩ (.app "chat") 7 false 0
    ⟨"GET", url, [], none⟩

/-- The agent accepts the connection, and later ends it. -/
def agentEnds : List SocketTask :=
  [shakeTask "/chat", .watch 11 3 7 (.fact (some (7, .accept))), .client 3 7 (.message ⟨1, none⟩),
    .watch 12 3 7 (.fact (some (7, .disconnect)))]

/-- The agent accepts the connection, and the client ends it. -/
def clientEnds : List SocketTask :=
  [shakeTask "/chat", .watch 11 3 7 (.fact (some (7, .accept))), .client 3 7 .disconnect]

theorem agentEnds_placed : ∃ b, Replay.follow (socketTurn guestText 1) .start agentEnds = some b ∧
    ∀ n a, Replay.At (socketTurn guestText 1) .start agentEnds n a → Placed a := by
  have h : Replay.follow (socketTurn guestText 1) .start agentEnds = some _ := rfl
  refine
    ⟨_, h, (sockets_of_run h).mpr ⟨trivial, fun b hb =>
      ⟨.inr ?_, fun _ _ => ⟨trivial, fun _ _ => ⟨trivial, fun _ _ => trivial⟩⟩⟩⟩⟩
  obtain rfl := Option.some.inj hb
  exact iff_of_true rfl (AList.lookup_isSome.mp rfl)

/-- An id stays in the map of sockets after its client has ended the connection. -/
theorem clientEnds_leaks : ∃ b, Replay.follow (socketTurn guestText 1) .start clientEnds = some b ∧
    7 ∈ b.state.sockets ∧
    ¬ b.Opened 7 := by
  have h : Replay.follow (socketTurn guestText 1) .start clientEnds = some _ := rfl
  refine ⟨_, h, AList.lookup_isSome.mp rfl, ?_⟩
  rintro ⟨c, hc, -⟩
  exact Option.some_ne_none c hc.symm

end Eyre
end Ursockets
