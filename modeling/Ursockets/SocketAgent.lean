/-
# Websockets and their agents

What the agents of eyre's websockets pass on to the runtime. A response goes on for any id
that an agent names, whether it is one of the agent's or not, and whether there still is such
a connection. So the responses of a run are in order just where each agent names ids of its
own that are alive.

Key definitions: `SocketSys.news`, `Ordinary`, `SocketTask.asks`, `Proper`, `Entitled`.
Key theorems: `turn_passes`, `responses_of_run`.
-/
import Ursockets.SocketRun

namespace Ursockets
namespace Eyre

variable (text : Text) (our : Ship)

/-! ### What an event adds -/

/-- The moves that have been added since. -/
def SocketSys.news (a b : SocketSys) : List Move := b.log.drop a.log.length

/-- The agent that the watch of an id on a duct was opened on. -/
def SocketSys.agentOf (a : SocketSys) (duct : Duct) (wid : ℕ) : Option String :=
  (a.shakes.find? fun c => c.duct = duct ∧ c.wid = wid).map Conn.app

variable {text our} {a b : SocketSys} {e : SocketTask} {s s' : ServerState} {now : Da} {duct : Duct} {wid : ℕ}
  {moves : List Move} {event : WebsocketEvent} {sign : WatchSign} {eny : Eny} {action : Action} {secure : Bool}
    {address : ℕ}
  {request : Request}

theorem news_of_log (h : b.log = a.log ++ moves) : a.news b = moves := by
  unfold SocketSys.news
  rw [h, List.drop_left]

theorem closeAt_log : (a.closeAt duct wid).log = a.log := by
  unfold SocketSys.closeAt
  split <;> rfl

theorem pass_log : (a.pass wid event).log = a.log := by
  cases event <;> rfl

theorem pass_state : (a.pass wid event).state = a.state := by
  cases event <;> rfl

theorem hear_log : (a.hear duct wid sign).log = a.log := by
  unfold SocketSys.hear
  split
  · rfl
  · exact closeAt_log
  · exact closeAt_log
  · exact pass_log
  · exact pass_log

theorem hear_state : (a.hear duct wid sign).state = a.state := by
  unfold SocketSys.hear
  split
  · rfl
  · exact closeAt_state
  · exact closeAt_state
  · exact pass_state
  · exact pass_state

/-- The moves of an arm that ordinary requests have as well: no websocket response is passed,
and the deals leave a watch each, of a connection on one of these ducts, on the wire of an
ordinary request. -/
def Ordinary (s : ServerState) (D : Duct → Prop) (moves : List Move) : Prop :=
  ∀ m ∈ moves, (∀ w ev, m.card ≠ .websocketResponse w ev) ∧
    ∀ wire source ship dude task, m.card = .deal wire source ship dude task →
      D m.duct ∧ m.duct ∈ s.connections ∧ wire = .watchResponse m.duct ∧ task = .leave

theorem ordinary_nil {D : Duct → Prop} : Ordinary s D [] := fun _ hm => absurd hm List.not_mem_nil

theorem Ordinary.append {D : Duct → Prop} {later : List Move} (h : Ordinary s D moves) (h' : Ordinary s D later) :
    Ordinary s D (moves ++ later) := fun m hm => (List.mem_append.mp hm).elim (h m) (h' m)

/-- A move that is no deal. -/
theorem ordinary_card {D : Duct → Prop} {m : Move} (h1 : ∀ w ev, m.card ≠ .websocketResponse w ev)
    (h2 : ∀ wire source ship dude task, m.card ≠ .deal wire source ship dude task) : Ordinary s D [m] := by
  intro m' hm
  obtain rfl := List.mem_singleton.mp hm
  exact ⟨h1, fun wire source ship dude task hc => absurd hc (h2 wire source ship dude task)⟩

theorem ordinary_leave {c : OutstandingConnection} {app : String} (hc : s.connections.lookup duct = some c) :
    Ordinary s (· = duct) [dealAs our duct (.watchResponse duct) c.identity our app .leave] := by
  intro m hm
  obtain rfl := List.mem_singleton.mp hm
  refine ⟨fun w ev h => (nomatch h), fun wire source ship dude task h => ?_⟩
  obtain ⟨rfl, -, -, -, rfl⟩ := Card.deal.inj h
  exact ⟨rfl, AList.lookup_isSome.mp (Option.isSome_iff_exists.mpr ⟨c, hc⟩), rfl, rfl⟩

theorem ordinary_response {D : Duct → Prop} (e : HttpEvent) : Ordinary s D [⟨duct, .response e⟩] :=
  ordinary_card (fun _ _ h => nomatch h) fun _ _ _ _ _ h => nomatch h

theorem ordinary_errorConnection {c : OutstandingConnection} (hc : s.connections.lookup duct = some c) :
    Ordinary s (· = duct) (errorConnection our duct c s).1 := by
  unfold errorConnection
  have hcancel : Ordinary s (· = duct) [⟨duct, .response .cancel⟩] := ordinary_response _
  refine hcancel.append ?_
  split
  · exact ordinary_leave hc
  · exact ordinary_nil

theorem ordinary_handleResponse (text : Text) (our : Ship) (now : Da) (duct : Duct) (e : HttpEvent) (s : ServerState) :
    Ordinary s (· = duct) (handleResponse text our now duct e s).1 := by
  unfold handleResponse
  split
  · exact ordinary_nil
  · rename_i c hc
    split
    · split
      · exact ordinary_errorConnection hc
      · exact ordinary_response _
    · split
      · exact ordinary_errorConnection hc
      · exact ordinary_response _
    · exact ordinary_errorConnection hc

theorem ordinary_handleGallError (text : Text) (our : Ship) (now : Da) (duct : Duct) (tang : String) (s : ServerState) :
    Ordinary s (· = duct) (handleGallError text our now duct tang s).1 := by
  unfold handleGallError
  split
  · exact ordinary_nil
  · rename_i c hc
    refine Ordinary.append ?_ (ordinary_handleResponse _ _ _ _ _ _)
    split
    · exact ordinary_leave hc
    · exact ordinary_nil

theorem ordinary_onCancelRequest {t : ServerState} (h : onCancelRequest now duct t = some (moves, s'))
    {D : Duct → Prop} :
    Ordinary s D moves := by
  unfold onCancelRequest at h
  split at h
  · exact (Prod.mk.inj (Option.some.inj h)).1 ▸ ordinary_nil
  · split at h
    · exact (Prod.mk.inj (Option.some.inj h)).1 ▸ ordinary_nil
    · split at h
      · exact absurd h.symm (Option.some_ne_none _)
      · rw [← (Prod.mk.inj (Option.some.inj h)).1]
        refine Ordinary.append (fun m hm => ?_) (ordinary_card (fun _ _ h => nomatch h) fun _ _ _ _ _ h => nomatch h)
        obtain ⟨t, -, rfl⟩ := Option.map_eq_some_iff.mp (Option.mem_toList.mp hm)
        exact ⟨fun _ _ h => (nomatch h), fun _ _ _ _ _ h => (nomatch h)⟩

theorem ordinary_cancelRequest (h : cancelRequest our now duct s = some (moves, s')) : Ordinary s (· = duct) moves := by
  unfold cancelRequest at h
  split at h
  · exact (Prod.mk.inj (Option.some.inj h)).1 ▸ ordinary_nil
  · rename_i c hc
    dsimp only at h
    split at h
    case h_6 => exact ordinary_onCancelRequest h
    all_goals first
      | exact absurd h.symm (Option.some_ne_none _)
      | exact (Prod.mk.inj (Option.some.inj h)).1 ▸ ordinary_nil
      | exact (Prod.mk.inj (Option.some.inj h)).1 ▸ ordinary_leave hc

theorem ordinary_cancelAll : ∀ {ds : List Duct} {s s' : ServerState} {moves : List Move},
    cancelAll our now ds s = some (moves, s') → Ordinary s (fun _ => True) moves
  | [], _, _, _, h => (Prod.mk.inj (Option.some.inj h)).1 ▸ ordinary_nil
  | d :: ds, s, s', moves, h => by
    rw [cancelAll] at h
    simp only [Option.bind_eq_bind, Option.bind_eq_some_iff, Option.some.injEq, Prod.mk.injEq] at h
    obtain ⟨⟨ms, s1⟩, hone, ⟨later, s2⟩, hall, rfl, -⟩ := h
    refine Ordinary.append (fun m hm => ?_) fun m hm => ?_
    · obtain ⟨h1, h2⟩ := ordinary_cancelAll hall m hm
      refine ⟨h1, fun wire source ship dude task hc => ?_⟩
      obtain ⟨-, hin, hrest⟩ := h2 wire source ship dude task hc
      refine ⟨trivial, ?_, hrest⟩
      -- what is there after a cancelled request was there before it
      have hl := (cancelRequest_spec hone).2 m.duct
      rw [← AList.lookup_isSome, hl] at hin
      split at hin
      · exact absurd hin (by decide)
      · exact AList.lookup_isSome.mp hin
    · obtain ⟨h1, h2⟩ := ordinary_cancelRequest hone m hm
      refine ⟨h1, fun wire source ship dude task hc => ?_⟩
      obtain ⟨-, hrest⟩ := h2 wire source ship dude task hc
      exact ⟨trivial, hrest⟩

/-! ### Lives -/

theorem shake_life (c : Conn) (w : ℕ) : (a.shake c).life w = if w = c.wid then some c else a.life w :=
  Function.update_apply _ _ _ _

theorem close_life (wid w : ℕ) : (a.close wid).life w = if w = wid then none else a.life w :=
  Function.update_apply _ _ _ _

theorem closeAt_life (duct : Duct) (wid w : ℕ) :
    (a.closeAt duct wid).life w = if w = wid ∧ (a.at duct wid).isSome then none else a.life w := by
  unfold SocketSys.closeAt
  by_cases hat : (a.at duct wid).isSome = true
  · rw [if_pos hat, close_life]
    exact if_congr (and_iff_left hat).symm rfl rfl
  · rw [if_neg hat, if_neg fun h => hat h.2]

/-- What a response that has been passed does to a connection's life. -/
def WebsocketEvent.onto : WebsocketEvent → Option Conn → Option Conn
  | .accept, life => life.map fun c => { c with accepted := true }
  | .message _, life => life
  | .reject, _ | .disconnect, _ => none

theorem pass_life (wid : ℕ) (event : WebsocketEvent) (w : ℕ) :
    (a.pass wid event).life w = if w = wid then event.onto (a.life w) else a.life w := by
  cases event with
  | accept =>
    refine (Function.update_apply _ _ _ _).trans ?_
    split
    · rename_i h
      rw [h]
      rfl
    · rfl
  | message m => exact (ite_self _).symm
  | reject => exact close_life wid w
  | disconnect => exact close_life wid w

/-- What a sign does to a connection's life. -/
theorem hear_life (duct : Duct) (wid : ℕ) (sign : WatchSign) (w : ℕ) :
    (a.hear duct wid sign).life w = match sign with
      | .watchAck none => a.life w
      | .watchAck (some _) | .fact none => if w = wid ∧ (a.at duct wid).isSome then none else a.life w
      | .kick => if w = wid then none else a.life w
      | .fact (some (wid', event)) => if w = wid' then event.onto (a.life w) else a.life w := by
  unfold SocketSys.hear
  split
  · rfl
  · exact closeAt_life duct wid w
  · exact closeAt_life duct wid w
  · exact pass_life wid .disconnect w
  · exact pass_life _ _ w

/-! ### Turns -/

/-- A handshake opens a connection of its agent's, or leaves all as it was. -/
theorem turn_handshake (ht : socketTurn text our a (.handshake now duct eny action wid secure address request) =
    some b) :
    wid ∉ a.wids ∧ duct ∉ a.shakes.map Conn.duct ∧
      ((∃ app o som s', action = .app app ∧ o.action = .app app ∧ o.inboundRequest.request = request ∧
          s'.connections = a.state.connections.insert duct o ∧ (∀ m ∈ som, ∃ wire date, m.card = .wait wire date) ∧
          b = (a.give (som ++ handshakeMoves our duct wid o.identity app o.inboundRequest, s')).shake
            ⟨wid, duct, app, o.identity, request.url, false⟩) ∨
        b = a) := by
  unfold socketTurn at ht
  dsimp only at ht
  split at ht
  · exact absurd ht.symm (Option.some_ne_none _)
  · rename_i hnew
    obtain ⟨hw, hd⟩ := not_or.mp hnew
    refine ⟨hw, hd, ?_⟩
    obtain ⟨⟨ms, s'⟩, hr, rfl⟩ := Option.map_eq_some_iff.mp ht
    cases action with
    | app app =>
      obtain ⟨-, o, som, hc, ho, hreq, rfl, hsom⟩ := wsHandshake_spec hr
      refine .inl ⟨app, o, som, s', rfl, ho, hreq, hc, hsom, ?_⟩
      have hid : (s'.connections.lookup duct).elim (Identity.fake 0) OutstandingConnection.identity = o.identity := by
        rw [hc, AList.lookup_insert]
        rfl
      dsimp only
      rw [hid]
    | _ =>
      obtain ⟨rfl, rfl⟩ := Prod.mk.inj (Option.some.inj hr)
      exact .inr (congrArg (fun l => { a with log := l }) (List.append_nil _))

/-- An event of the client's. -/
theorem turn_client (ht : socketTurn text our a (.client duct wid event) = some b) :
    a.Knows duct wid ∧ b.log = a.log ++ (wsEvent our duct wid event a.state).1 ∧
      b.state = (wsEvent our duct wid event a.state).2 ∧ b.shakes = a.shakes ∧ b.shut = a.shut ∧
      ∀ w, b.life w = if w = wid ∧ event = .disconnect ∧ (a.at duct wid).isSome then none else a.life w := by
  unfold socketTurn at ht
  dsimp only at ht
  split at ht
  · rename_i hk
    refine ⟨hk, ?_⟩
    obtain rfl := Option.some.inj ht
    cases event with
    | disconnect =>
      have hclose : ∀ c : SocketSys, (c.closeAt duct wid).shakes = c.shakes ∧ (c.closeAt duct wid).shut = c.shut := by
        intro c
        unfold SocketSys.closeAt
        split <;> exact ⟨rfl, rfl⟩
      refine ⟨closeAt_log, closeAt_state, (hclose _).1, (hclose _).2, fun w => (closeAt_life duct wid w).trans ?_⟩
      exact if_congr (and_congr_right fun _ => (and_iff_right rfl).symm) rfl rfl
    | message m => exact ⟨rfl, rfl, rfl, rfl, fun w => (if_neg fun h => nomatch h.2.1).symm⟩
    | accept => exact ⟨rfl, rfl, rfl, rfl, fun w => (if_neg fun h => nomatch h.2.1).symm⟩
    | reject => exact ⟨rfl, rfl, rfl, rfl, fun w => (if_neg fun h => nomatch h.2.1).symm⟩
  · exact absurd ht.symm (Option.some_ne_none _)

/-- A sign on a watch. -/
theorem turn_watch (ht : socketTurn text our a (.watch now duct wid sign) = some b) :
    a.Knows duct wid ∧ ∃ r, takeWsWatchResponse text our now duct wid sign a.state = some r ∧
      b.log = a.log ++ r.1 ∧ b = (a.give r).hear duct wid sign := by
  unfold socketTurn at ht
  dsimp only at ht
  split at ht
  · rename_i hk
    obtain ⟨r, hr, rfl⟩ := Option.map_eq_some_iff.mp ht
    exact ⟨hk, r, hr, hear_log, rfl⟩
  · exact absurd ht.symm (Option.some_ne_none _)

theorem turn_other {t : ServerState} (ht : socketTurn text our a (.other t) = some b) :
    b = { a with state := t } ∧ t.sockets = a.state.sockets ∧
      ∀ c ∈ a.shakes, t.connections.lookup c.duct = a.state.connections.lookup c.duct := by
  unfold socketTurn at ht
  dsimp only at ht
  split at ht
  · rename_i h
    exact ⟨(Option.some.inj ht).symm, h⟩
  · exact absurd ht.symm (Option.some_ne_none _)

theorem handleWsResponse_moves {r : List Move × ServerState} (h : handleWsResponse duct wid event s = some r) :
    r.1 = [⟨duct, .websocketResponse wid event⟩] := by
  unfold handleWsResponse at h
  cases event with
  | accept =>
    dsimp only at h
    cases ho : s.connections.lookup duct with
    | none =>
      rw [ho] at h
      exact (congrArg Prod.fst (Option.some.inj h)).symm
    | some o =>
      rw [ho] at h
      dsimp only at h
      split at h
      · exact (congrArg Prod.fst (Option.some.inj h)).symm
      · exact absurd h.symm (Option.some_ne_none _)
  | message m => exact (congrArg Prod.fst (Option.some.inj h)).symm
  | reject => exact (congrArg Prod.fst (Option.some.inj h)).symm
  | disconnect => exact (congrArg Prod.fst (Option.some.inj h)).symm

/-! ### Responses -/

/-- The response that a sign on the watch of `wid` asks for, and its id. -/
def WatchSign.asks (wid : ℕ) : WatchSign → Option (ℕ × WebsocketEvent)
  | .kick => some (wid, .disconnect)
  | .fact response => response
  | .watchAck _ => none

/-- The response that an event asks for. -/
def SocketTask.asks : SocketTask → Option (ℕ × WebsocketEvent)
  | .watch _ _ wid sign => sign.asks wid
  | _ => none

/-- The agent that an event comes from. -/
def SocketTask.speaker (a : SocketSys) : SocketTask → Option String
  | .watch _ duct wid _ => a.agentOf duct wid
  | _ => none

/-- The response that a sign asks for is passed, and no other. -/
theorem takeWsWatchResponse_passes {r : List Move × ServerState}
    (h : takeWsWatchResponse text our now duct wid sign s = some r)
    (w : ℕ) (ev : WebsocketEvent) :
    (∃ m ∈ r.1, m.card = .websocketResponse w ev) ↔ sign.asks wid = some (w, ev) := by
  have hone : ∀ w' ev', r.1 = [⟨duct, .websocketResponse w' ev'⟩] →
      ((∃ m ∈ r.1, m.card = .websocketResponse w ev) ↔ some (w', ev') = some (w, ev)) := by
    intro w' ev' hr
    rw [hr, Option.some_inj, Prod.mk.injEq]
    simp
  have hnone : Ordinary s (· = duct) r.1 → ((∃ m ∈ r.1, m.card = .websocketResponse w ev) ↔ none = some (w, ev)) := by
    intro hr
    exact iff_of_false (fun ⟨m, hm, hc⟩ => (hr m hm).1 w ev hc) fun h => nomatch h
  unfold takeWsWatchResponse at h
  split at h
  · exact hnone (Option.some.inj h ▸ ordinary_nil)
  · exact hnone (Option.some.inj h ▸ ordinary_handleGallError _ _ _ _ _ _)
  · exact hone wid .disconnect (handleWsResponse_moves h)
  · exact hnone (Option.some.inj h ▸ ordinary_handleGallError _ _ _ _ _ _)
  · exact hone _ _ (handleWsResponse_moves h)

/-- The moves of the client's side pass no response. -/
theorem wsEvent_moves : ∀ m ∈ (wsEvent our duct wid event s).1, ∃ wire source ship dude task, m.card =
    .deal wire source ship dude task := by
  intro m hm
  unfold wsEvent at hm
  split at hm
  · exact absurd hm List.not_mem_nil
  · split at hm
    · split at hm
      · exact absurd hm List.not_mem_nil
      · split at hm
        · exact List.mem_singleton.mp hm ▸ ⟨_, _, _, _, _, rfl⟩
        · exact List.mem_singleton.mp hm ▸ ⟨_, _, _, _, _, rfl⟩
        · exact absurd hm List.not_mem_nil
    · exact absurd hm List.not_mem_nil

/-- **The responses that an event passes are those that it asks for.** -/
theorem turn_passes (ht : socketTurn text our a e = some b) (w : ℕ) (ev : WebsocketEvent) :
    (∃ m ∈ a.news b, m.card = .websocketResponse w ev) ↔ e.asks = some (w, ev) := by
  have hnone : ∀ {D}, Ordinary a.state D (a.news b) → ((∃ m ∈ a.news b, m.card = .websocketResponse w ev) ↔
    none = some (w, ev)) := by
    intro D hr
    exact iff_of_false (fun ⟨m, hm, hc⟩ => (hr m hm).1 w ev hc) fun h => nomatch h
  cases e with
  | handshake now duct eny action wid secure address request =>
    refine iff_of_false ?_ fun h => nomatch h
    rintro ⟨m, hm, hc⟩
    obtain ⟨-, -, ⟨app, o, som, s', -, -, -, -, hsom, rfl⟩ | rfl⟩ := turn_handshake ht
    · rw [news_of_log (a := a) rfl] at hm
      rcases List.mem_append.mp hm with hm | hm
      · obtain ⟨wire, date, hw⟩ := hsom m hm
        exact nomatch hw.symm.trans hc
      · rcases List.mem_cons.mp hm with rfl | hm
        · exact nomatch hc
        · obtain rfl := List.mem_singleton.mp hm
          exact nomatch hc
    · rw [news_of_log (List.append_nil _).symm] at hm
      exact absurd hm List.not_mem_nil
  | client duct wid event =>
    refine iff_of_false ?_ fun h => nomatch h
    rintro ⟨m, hm, hc⟩
    rw [news_of_log (turn_client ht).2.1] at hm
    obtain ⟨wire, source, ship, dude, task, hd⟩ := wsEvent_moves m hm
    exact nomatch hd.symm.trans hc
  | watch now duct wid sign =>
    obtain ⟨-, r, hr, hlog, -⟩ := turn_watch ht
    rw [news_of_log hlog]
    exact takeWsWatchResponse_passes hr w ev
  | cancel now duct =>
    obtain ⟨⟨ms, s'⟩, hr, rfl⟩ := Option.map_eq_some_iff.mp ht
    have hnews : a.news { a.give (ms, s') with life := fun w => (a.life w).filter fun c => c.duct ≠ duct } =
      ms := news_of_log rfl
    exact hnone (hnews ▸ ordinary_cancelRequest hr)
  | born now =>
    obtain ⟨⟨ms, s'⟩, hr, rfl⟩ := Option.map_eq_some_iff.mp ht
    have hnews : a.news { a.give (ms, s') with life := fun _ => none, wids := [] } = ms := news_of_log rfl
    exact hnone (hnews ▸ ordinary_cancelAll hr)
  | other t =>
    obtain ⟨rfl, -⟩ := turn_other ht
    have hnews : a.news { a with state := t } = [] := news_of_log (List.append_nil _).symm
    exact hnone (D := fun _ => True) (hnews ▸ ordinary_nil)

variable (text our) in
/-- A response that an event passes comes from the agent of its id, which is alive and has not been
rejected or disconnected. -/
def Proper (a : SocketSys) (e : SocketTask) : Prop :=
  ∀ b, socketTurn text our a e = some b → ∀ m ∈ a.news b, ∀ w ev, m.card = .websocketResponse w ev →
    a.shut w = false ∧ ∃ c, a.life w = some c ∧ e.speaker a = some c.app

/-- What an agent asks for is a response for an id of its own, while it is alive. -/
def Entitled (a : SocketSys) (e : SocketTask) : Prop :=
  ∀ w ev, e.asks = some (w, ev) → ∃ c, a.life w = some c ∧ e.speaker a = some c.app

/-- No live id has been rejected or disconnected. -/
def Unshut (a : SocketSys) : Prop := ∀ w c, a.life w = some c → a.shut w = false

theorem Unshut.closeAt (h : Unshut a) : Unshut (a.closeAt duct wid) := by
  have hshut : (a.closeAt duct wid).shut = a.shut := by
    unfold SocketSys.closeAt
    split <;> rfl
  intro w c hc
  rw [closeAt_life] at hc
  rw [hshut]
  split at hc
  · exact absurd hc.symm (Option.some_ne_none _)
  · exact h w c hc

theorem Unshut.pass (h : Unshut a) (wid : ℕ) (event : WebsocketEvent) : Unshut (a.pass wid event) := by
  have hend : ∀ w c, (if w = wid then none else a.life w) = some c → Function.update a.shut wid true w = false := by
    intro w c hc
    split at hc
    · exact absurd hc.symm (Option.some_ne_none _)
    · rename_i hw
      exact (Function.update_of_ne hw _ _).trans (h w c hc)
  intro w c hc
  rw [pass_life] at hc
  cases event with
  | accept =>
    split at hc
    · obtain ⟨c', hc', -⟩ := Option.map_eq_some_iff.mp hc
      exact h w c' hc'
    · exact h w c hc
  | message m => exact h w c ((ite_self _).symm.trans hc)
  | reject => exact hend w c hc
  | disconnect => exact hend w c hc

theorem Unshut.hear (h : Unshut a) (duct : Duct) (wid : ℕ) (sign : WatchSign) : Unshut (a.hear duct wid sign) := by
  unfold SocketSys.hear
  split
  · exact h
  · exact h.closeAt
  · exact h.closeAt
  · exact h.pass _ _
  · exact h.pass _ _

theorem Unshut.turn (h : Unshut a) (ht : socketTurn text our a e = some b) : Unshut b := by
  cases e with
  | handshake now duct eny action wid secure address request =>
    obtain ⟨-, -, ⟨app, o, som, s', -, -, -, -, -, rfl⟩ | rfl⟩ := turn_handshake ht
    · intro w c hc
      rw [shake_life] at hc
      split at hc
      · rename_i hw
        exact hw ▸ Function.update_self _ _ _
      · rename_i hw
        exact (Function.update_of_ne hw _ _).trans (h w c hc)
    · exact h
  | client duct wid event =>
    obtain ⟨-, -, -, -, hshut, hlife⟩ := turn_client ht
    intro w c hc
    rw [hlife] at hc
    rw [hshut]
    split at hc
    · exact absurd hc.symm (Option.some_ne_none _)
    · exact h w c hc
  | watch now duct wid sign =>
    obtain ⟨-, r, -, -, rfl⟩ := turn_watch ht
    exact Unshut.hear (a := a.give r) h duct wid sign
  | cancel now duct =>
    obtain ⟨r, -, rfl⟩ := Option.map_eq_some_iff.mp ht
    exact fun w c hc => h w c (Option.filter_eq_some_iff.mp hc).1
  | born now =>
    obtain ⟨r, -, rfl⟩ := Option.map_eq_some_iff.mp ht
    exact fun w c hc => absurd hc.symm (Option.some_ne_none _)
  | other t => exact (turn_other ht).1 ▸ h

theorem proper_iff (h : Unshut a) (ht : socketTurn text our a e = some b) : Proper text our a e ↔ Entitled a e := by
  constructor
  · intro hp w ev hasks
    obtain ⟨m, hm, hc⟩ := (turn_passes ht w ev).mpr hasks
    exact (hp b ht m hm w ev hc).2
  · intro he b' hb' m hm w ev hc
    obtain ⟨c, hlife, hagent⟩ := he w ev ((turn_passes hb' w ev).mp ⟨m, hm, hc⟩)
    exact ⟨h w c hlife, c, hlife, hagent⟩

/-- **The responses of a run** come from the agents of their ids, while these are alive, if and only if
each agent asks for responses for live ids of its own only. -/
theorem responses_of_run {es : List SocketTask} (h : Replay.follow (socketTurn text our) .start es = some b) :
    Replay.Along (socketTurn text our) (Proper text our) .start es ↔
      Replay.Along (socketTurn text our) Entitled .start es :=
  Replay.Along.congr Unshut (fun _ _ _ ha ht => ha.turn ht) (fun _ _ _ ha ht => proper_iff ha ht)
    (fun _ _ hc => absurd hc.symm (Option.some_ne_none _)) h

theorem agentEnds_proper : ∃ b, Replay.follow (socketTurn guestText 1) .start agentEnds = some b ∧
    Replay.Along (socketTurn guestText 1) (Proper guestText 1) .start agentEnds := by
  have h : Replay.follow (socketTurn guestText 1) .start agentEnds = some _ := rfl
  refine ⟨_, h, (responses_of_run h).mpr ?_⟩
  refine ⟨fun w ev hasks => (nomatch hasks), fun b hb => ?_⟩
  obtain rfl := Option.some.inj hb
  refine ⟨fun w ev hasks => ?_, fun b hb => ?_⟩
  · obtain ⟨rfl, -⟩ := Prod.mk.inj (Option.some.inj hasks)
    exact ⟨_, rfl, rfl⟩
  obtain rfl := Option.some.inj hb
  refine ⟨fun w ev hasks => (nomatch hasks), fun b hb => ?_⟩
  obtain rfl := Option.some.inj hb
  refine ⟨fun w ev hasks => ?_, fun b hb => trivial⟩
  obtain ⟨rfl, -⟩ := Prod.mk.inj (Option.some.inj hasks)
  exact ⟨_, rfl, rfl⟩

/-- The agent ends the connection and then kicks its watch. -/
def agentKicks : List SocketTask := agentEnds ++ [.watch 13 3 7 .kick]

/-- A disconnect of an id is passed a second time. -/
theorem agentKicks_passes_twice : ∃ b, Replay.follow (socketTurn guestText 1) .start agentKicks = some b ∧
    ¬ Replay.Along (socketTurn guestText 1) (Proper guestText 1) .start agentKicks := by
  have h : Replay.follow (socketTurn guestText 1) .start agentKicks = some _ := rfl
  refine ⟨_, h, fun hp => ?_⟩
  have hkick := ((((hp.2 _ rfl).2 _ rfl).2 _ rfl).2 _ rfl).1
  obtain ⟨-, c, hc, -⟩ := hkick _ rfl ⟨3, .websocketResponse 7 .disconnect⟩ List.mem_cons_self 7 .disconnect rfl
  exact Option.some_ne_none c hc.symm

end Eyre
end Ursockets
