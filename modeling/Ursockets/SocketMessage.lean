/-
# The messages of websockets

What eyre keeps of a websocket's connection is what its handshake made of it, for as long as it
keeps it. A message of the client reaches the agent of the handshake, from the identity of the
handshake, where eyre still has the connection; but eyre reads the url of the connection again
as a static path, and drops the message where it is none.

Key definitions: `Shrinks`, `Based`, `Hears`, `Reaches`.
Key theorems: `Based.turn`, `messages_of_run`.
-/
import Ursockets.SocketAgent

namespace Ursockets
namespace Eyre

variable {text : Text} {our : Ship} {a b : SocketSys} {e : SocketTask} {s s' : ServerState} {now : Da}
  {duct : Duct} {wid : ℕ}
  {moves : List Move} {event : WebsocketEvent} {sign : WatchSign} {eny : Eny} {action : Action} {secure : Bool}
    {address : ℕ}
  {request : Request}

/-! ### Connections that are there -/

/-- No connection is new or changed. -/
def Shrinks (s s' : ServerState) : Prop := ∀ d o, s'.connections.lookup d = some o → s.connections.lookup d = some o

theorem Shrinks.refl' (h : s'.connections = s.connections) : Shrinks s s' := fun _ _ ho => h ▸ ho

theorem shrinks_erase (h : s'.connections = s.connections.erase duct) : Shrinks s s' := by
  intro d o ho
  rw [h] at ho
  by_cases hd : d = duct
  · rw [hd, AList.lookup_erase] at ho
    exact absurd ho.symm (Option.some_ne_none _)
  · rwa [AList.lookup_erase_ne hd] at ho

theorem wsEvent_shrinks : Shrinks s (wsEvent our duct wid event s).2 := by
  unfold wsEvent
  split
  · exact .refl' rfl
  · split
    · split
      · exact .refl' rfl
      · split
        · exact .refl' rfl
        · exact shrinks_erase rfl
        · exact .refl' rfl
    · exact .refl' rfl

theorem handleWsResponse_shrinks {r : List Move × ServerState} (h : handleWsResponse duct wid event s = some r) :
    Shrinks s r.2 := by
  unfold handleWsResponse at h
  cases event with
  | accept =>
    dsimp only at h
    cases ho : s.connections.lookup duct with
    | none =>
      rw [ho] at h
      exact .refl' (congrArg (·.2.connections) (Option.some.inj h)).symm
    | some o =>
      rw [ho] at h
      dsimp only at h
      split at h
      · exact .refl' (congrArg (·.2.connections) (Option.some.inj h)).symm
      · exact absurd h.symm (Option.some_ne_none _)
  | message m => exact .refl' (congrArg (·.2.connections) (Option.some.inj h)).symm
  | reject => exact shrinks_erase (congrArg (·.2.connections) (Option.some.inj h)).symm
  | disconnect => exact shrinks_erase (congrArg (·.2.connections) (Option.some.inj h)).symm

/-- A response that is complete at once removes its connection. -/
theorem returnStaticDataOnDuct_shrinks (text : Text) (our : Ship) (now : Da) (duct : Duct) (code : ℕ)
    (contentType data : String)
    (s : ServerState) : Shrinks s (returnStaticDataOnDuct text our now duct code contentType data s).2 := by
  unfold returnStaticDataOnDuct handleResponse
  split
  · exact .refl' rfl
  · dsimp only
    split
    · exact shrinks_erase rfl
    · exact shrinks_erase rfl

theorem handleGallError_shrinks (text : Text) (our : Ship) (now : Da) (duct : Duct) (tang : String) (s : ServerState) :
    Shrinks s (handleGallError text our now duct tang s).2 := by
  unfold handleGallError
  split
  · exact .refl' rfl
  · exact returnStaticDataOnDuct_shrinks _ _ _ _ _ _ _ _

theorem takeWsWatchResponse_shrinks {r : List Move × ServerState}
    (h : takeWsWatchResponse text our now duct wid sign s = some r) :
    Shrinks s r.2 := by
  unfold takeWsWatchResponse at h
  split at h
  · exact .refl' (congrArg (·.2.connections) (Option.some.inj h)).symm
  · exact Option.some.inj h ▸ handleGallError_shrinks _ _ _ _ _ _
  · exact handleWsResponse_shrinks h
  · exact Option.some.inj h ▸ handleGallError_shrinks _ _ _ _ _ _
  · exact handleWsResponse_shrinks h

theorem cancelRequest_shrinks (h : cancelRequest our now duct s = some (moves, s')) : Shrinks s s' := by
  intro d o ho
  rw [(cancelRequest_spec h).2 d] at ho
  split at ho
  · exact absurd ho.symm (Option.some_ne_none _)
  · exact ho

theorem cancelAll_shrinks : ∀ {ds : List Duct} {s s' : ServerState} {moves : List Move},
    cancelAll our now ds s = some (moves, s') → Shrinks s s'
  | [], _, _, _, h => .refl' (congrArg ServerState.connections (Prod.mk.inj (Option.some.inj h)).2).symm
  | d :: ds, s, s', moves, h => by
    rw [cancelAll] at h
    simp only [Option.bind_eq_bind, Option.bind_eq_some_iff, Option.some.injEq, Prod.mk.injEq] at h
    obtain ⟨⟨ms, s1⟩, hone, ⟨later, s2⟩, hall, -, rfl⟩ := h
    exact fun d' o ho => cancelRequest_shrinks hone d' o (cancelAll_shrinks hall d' o ho)

/-- What an event that is no handshake does to the connections of websockets, and to what is known of them. -/
theorem turn_shrinks (ht : socketTurn text our a e = some b)
    (hno : ∀ now duct eny action wid secure address request,
      e ≠ .handshake now duct eny action wid secure address request) :
    b.shakes = a.shakes ∧
      ∀ c ∈ a.shakes, ∀ o, b.state.connections.lookup c.duct = some o → a.state.connections.lookup c.duct = some o := by
  cases e with
  | handshake now duct eny action wid secure address request => exact absurd rfl (hno _ _ _ _ _ _ _ _)
  | client duct wid event =>
    obtain ⟨-, -, hstate, hshakes, -⟩ := turn_client ht
    exact ⟨hshakes, fun c _ => hstate ▸ wsEvent_shrinks c.duct⟩
  | watch now duct wid sign =>
    obtain ⟨-, r, hr, -, rfl⟩ := turn_watch ht
    obtain ⟨-, hshakes, -⟩ := fewer_hear (a := a.give r) duct wid sign
    refine ⟨hshakes, fun c _ o ho => takeWsWatchResponse_shrinks hr c.duct o ?_⟩
    rwa [hear_state] at ho
  | cancel now duct =>
    obtain ⟨⟨ms, s'⟩, hr, rfl⟩ := Option.map_eq_some_iff.mp ht
    exact ⟨rfl, fun c _ => cancelRequest_shrinks hr c.duct⟩
  | born now =>
    obtain ⟨⟨ms, s'⟩, hr, rfl⟩ := Option.map_eq_some_iff.mp ht
    exact ⟨rfl, fun c _ => cancelAll_shrinks hr c.duct⟩
  | other t =>
    obtain ⟨rfl, -, hsame⟩ := turn_other ht
    exact ⟨rfl, fun c hc o ho => (hsame c hc).symm.trans ho⟩

/-- What is known of the connections: a live one began with a handshake, and where eyre has a connection
of a websocket, it is one of the agent, the identity and the url of its handshake. -/
structure Based (a : SocketSys) : Prop where
  sane : Sane a
  nodup : (a.shakes.map Conn.duct).Nodup
  known : ∀ {w c}, a.life w = some c → { c with accepted := false } ∈ a.shakes
  there : ∀ {c}, c ∈ a.shakes → ∀ {o}, a.state.connections.lookup c.duct = some o →
    o.action = .app c.app ∧ o.identity = c.identity ∧ o.inboundRequest.request.url = c.url

/-- A live connection after a sign was alive before it, the same but for being accepted. -/
theorem hear_known {w : ℕ} {c : Conn} (hc : (a.hear duct wid sign).life w = some c) :
    ∃ c', a.life w = some c' ∧ { c with accepted := false } = { c' with accepted := false } := by
  have hite : ∀ {P : Prop} [Decidable P], (if P then none else a.life w) = some c →
      ∃ c', a.life w = some c' ∧ { c with accepted := false } = { c' with accepted := false } := by
    intro P _ h
    split at h
    · exact absurd h.symm (Option.some_ne_none _)
    · exact ⟨c, h, rfl⟩
  rw [hear_life] at hc
  split at hc
  · exact ⟨c, hc, rfl⟩
  · exact hite hc
  · exact hite hc
  · exact hite hc
  · rename_i wid' event
    split at hc
    · cases event with
      | accept =>
        obtain ⟨c', hc', rfl⟩ := Option.map_eq_some_iff.mp hc
        exact ⟨c', hc', rfl⟩
      | message m => exact ⟨c, hc, rfl⟩
      | reject => exact absurd hc.symm (Option.some_ne_none _)
      | disconnect => exact absurd hc.symm (Option.some_ne_none _)
    · exact ⟨c, hc, rfl⟩

/-- **What is known of the connections stays so.** -/
theorem Based.turn (h : Based a) (ht : socketTurn text our a e = some b) : Based b := by
  have hkeep : b.shakes = a.shakes →
      (∀ c ∈ a.shakes, ∀ o, b.state.connections.lookup c.duct = some o → a.state.connections.lookup c.duct = some o) →
      (∀ w c, b.life w = some c → ∃ c', a.life w = some c' ∧ { c with accepted := false } =
        { c' with accepted := false }) →
      Based b := by
    intro hshakes hlookup hlife
    refine ⟨h.sane.turn ht, hshakes ▸ h.nodup, fun hc => ?_, fun hc o ho => ?_⟩
    · obtain ⟨c', hc', he⟩ := hlife _ _ hc
      exact hshakes ▸ he ▸ h.known hc'
    · rw [hshakes] at hc
      exact h.there hc (hlookup _ hc o ho)
  cases e with
  | handshake now duct eny action wid secure address request =>
    obtain ⟨-, hd, ⟨app, o, som, s', -, ho, hreq, hconn, -, rfl⟩ | rfl⟩ := turn_handshake ht
    · refine ⟨h.sane.turn ht, List.nodup_cons.mpr ⟨hd, h.nodup⟩, fun {w c} hc => ?_, fun {c} hc o' ho' => ?_⟩
      · rw [shake_life] at hc
        split at hc
        · exact Option.some.inj hc ▸ List.mem_cons_self
        · exact List.mem_cons_of_mem _ (h.known hc)
      · have hlook : (a.state.connections.insert duct o).lookup c.duct = some o' := hconn ▸ ho'
        rcases List.mem_cons.mp hc with rfl | hc
        · rw [AList.lookup_insert] at hlook
          obtain rfl := Option.some.inj hlook
          exact ⟨ho, rfl, congrArg Request.url hreq⟩
        · have hne : c.duct ≠ duct := fun he => hd (he ▸ List.mem_map_of_mem hc)
          rw [AList.lookup_insert_ne hne] at hlook
          exact h.there hc hlook
    · exact h
  | client duct wid event =>
    obtain ⟨hshakes, hlookup⟩ := turn_shrinks ht fun _ _ _ _ _ _ _ _ => nofun
    obtain ⟨-, -, -, -, -, hlife⟩ := turn_client ht
    refine hkeep hshakes hlookup fun w c hc => ⟨c, ?_, rfl⟩
    rw [hlife] at hc
    split at hc
    · exact absurd hc.symm (Option.some_ne_none _)
    · exact hc
  | watch now duct wid sign =>
    obtain ⟨hshakes, hlookup⟩ := turn_shrinks ht fun _ _ _ _ _ _ _ _ => nofun
    obtain ⟨-, r, -, -, rfl⟩ := turn_watch ht
    exact hkeep hshakes hlookup fun w c hc => hear_known (a := a.give r) hc
  | cancel now duct =>
    obtain ⟨hshakes, hlookup⟩ := turn_shrinks ht fun _ _ _ _ _ _ _ _ => nofun
    obtain ⟨r, -, rfl⟩ := Option.map_eq_some_iff.mp ht
    exact hkeep hshakes hlookup fun w c hc => ⟨c, (Option.filter_eq_some_iff.mp hc).1, rfl⟩
  | born now =>
    obtain ⟨hshakes, hlookup⟩ := turn_shrinks ht fun _ _ _ _ _ _ _ _ => nofun
    obtain ⟨r, -, rfl⟩ := Option.map_eq_some_iff.mp ht
    exact hkeep hshakes hlookup fun w c hc => absurd hc.symm (Option.some_ne_none _)
  | other t =>
    obtain ⟨hshakes, hlookup⟩ := turn_shrinks ht fun _ _ _ _ _ _ _ _ => nofun
    obtain ⟨rfl, -⟩ := turn_other ht
    exact hkeep hshakes hlookup fun w c hc => ⟨c, hc, rfl⟩

theorem based_start : Based .start :=
  ⟨sane_start, List.nodup_nil, fun hc => absurd hc.symm (Option.some_ne_none _), fun hc => absurd hc List.not_mem_nil⟩

/-! ### Messages -/

/-- A poke with a message. -/
def Move.isMessage (m : Move) : Bool :=
  match m.card with
  | .deal _ _ _ _ (.poke (.websocketServerMessage _ _ _)) => true
  | _ => false

variable (our) in
/-- The poke of a connection's agent with a message. -/
def Conn.poke (c : Conn) (path : Path) (m : WebsocketMessage) : Move :=
  dealAs our c.duct (.runWsAppRequest c.wid) c.identity our c.app (.poke (.websocketServerMessage c.wid path m))

variable (text our) in
/-- A message for an open connection is handed to its agent by one poke, behind all moves before, and no
other event hands on a message. -/
def Hears (a : SocketSys) (e : SocketTask) : Prop :=
  ∀ b, socketTurn text our a e = some b → a.log <+: b.log ∧
    match e with
    | .client duct wid (.message m) => ∀ c, a.at duct wid = some c → c.accepted = true →
      ∃ path, (a.news b).filter Move.isMessage = [c.poke our path m]
    | _ => (a.news b).filter Move.isMessage = []

/-- A message is for a connection that eyre has, with a static path as its url. -/
def Reaches (a : SocketSys) : SocketTask → Prop
  | .client duct wid (.message _) => ∀ c, a.at duct wid = some c → c.accepted = true →
    (stap c.url).isSome ∧ duct ∈ a.state.connections
  | _ => True

theorem filter_isMessage_nil (h : ∀ m ∈ moves, m.isMessage = false) : moves.filter Move.isMessage = [] :=
  List.filter_eq_nil_iff.mpr fun m hm hc => Bool.false_ne_true ((h m hm).symm.trans hc)

theorem isMessage_false {m : Move}
    (h : ∀ wire source ship dude task, m.card = .deal wire source ship dude task → ∀ w path x, task ≠ .poke
      (.websocketServerMessage w path x)) :
    m.isMessage = false := by
  unfold Move.isMessage
  split
  · rename_i hc
    exact absurd rfl (h _ _ _ _ _ hc _ _ _)
  · rfl

theorem Ordinary.filter_isMessage {D : Duct → Prop} (h : Ordinary s D moves) : moves.filter Move.isMessage = [] := by
  refine filter_isMessage_nil fun m hm => isMessage_false fun wire source ship dude task hc w path x => ?_
  rw [((h m hm).2 wire source ship dude task hc).2.2.2]
  exact nofun

theorem takeWsWatchResponse_isMessage {r : List Move × ServerState}
    (h : takeWsWatchResponse text our now duct wid sign s = some r) :
    r.1.filter Move.isMessage = [] := by
  unfold takeWsWatchResponse at h
  split at h
  · rw [← Option.some.inj h]
    rfl
  · exact Option.some.inj h ▸ (ordinary_handleGallError _ _ _ _ _ _).filter_isMessage
  · rw [handleWsResponse_moves h]
    rfl
  · exact Option.some.inj h ▸ (ordinary_handleGallError _ _ _ _ _ _).filter_isMessage
  · rw [handleWsResponse_moves h]
    rfl

/-- The moves are added to those before. -/
theorem turn_log (ht : socketTurn text our a e = some b) : a.log <+: b.log := by
  cases e with
  | handshake now duct eny action wid secure address request =>
    obtain ⟨-, -, ⟨app, o, som, s', -, -, -, -, -, rfl⟩ | rfl⟩ := turn_handshake ht
    · exact List.prefix_append _ _
    · exact List.prefix_rfl
  | client duct wid event =>
    exact (turn_client ht).2.1 ▸ List.prefix_append _ _
  | watch now duct wid sign =>
    obtain ⟨-, r, -, hlog, -⟩ := turn_watch ht
    exact hlog ▸ List.prefix_append _ _
  | cancel now duct =>
    obtain ⟨r, -, rfl⟩ := Option.map_eq_some_iff.mp ht
    exact List.prefix_append _ _
  | born now =>
    obtain ⟨r, -, rfl⟩ := Option.map_eq_some_iff.mp ht
    exact List.prefix_append _ _
  | other t => exact (turn_other ht).1 ▸ List.prefix_rfl

/-- The message of a connection that eyre has is handed on if its url is a static path. -/
theorem wsEvent_message {o : OutstandingConnection} {app : String} {m : WebsocketMessage}
    (ho : s.connections.lookup duct = some o) (happ : o.action = .app app) :
    (wsEvent our duct wid (.message m) s).1 = match stap o.inboundRequest.request.url with
      | none => []
      | some path =>
        [dealAs our duct (.runWsAppRequest wid) o.identity our app (.poke (.websocketServerMessage wid path m))] := by
  unfold wsEvent
  cases hst : stap o.inboundRequest.request.url <;> simp [ho, happ, hst]

/-- The other events of a client hand on no message. -/
theorem wsEvent_isMessage (h : ∀ m, event ≠ .message m) : (wsEvent our duct wid event s).1.filter Move.isMessage =
    [] := by
  unfold wsEvent
  split
  · rfl
  · split
    · split
      · rfl
      · split
        · exact absurd rfl (h _)
        · rfl
        · rfl
    · rfl

theorem hears_iff (h : Based a) (ht : socketTurn text our a e = some b) : Hears text our a e ↔ Reaches a e := by
  have hquiet : (∀ b, socketTurn text our a e = some b → (a.news b).filter Move.isMessage = []) →
      ((∀ b, socketTurn text our a e = some b → a.log <+: b.log ∧ (a.news b).filter Move.isMessage = []) ↔ True) :=
    fun hq => iff_of_true (fun b hb => ⟨turn_log hb, hq b hb⟩) trivial
  cases e with
  | handshake now duct eny action wid secure address request =>
    refine hquiet fun b hb => ?_
    obtain ⟨-, -, ⟨app, o, som, s', -, -, -, -, hsom, rfl⟩ | rfl⟩ := turn_handshake hb
    · rw [news_of_log (a := a) rfl, List.filter_append, filter_isMessage_nil]
      · rfl
      · intro m hm
        obtain ⟨wire, date, hw⟩ := hsom m hm
        exact isMessage_false fun _ _ _ _ _ hc => nomatch hw.symm.trans hc
    · rw [news_of_log (List.append_nil _).symm]
      rfl
  | client duct wid event =>
    cases event with
    | message m =>
      -- where eyre has the connection, it is as the handshake left it
      have hnews : ∀ {b'}, socketTurn text our a (.client duct wid (.message m)) = some b' →
          a.news b' = (wsEvent our duct wid (.message m) a.state).1 := fun hb => news_of_log (turn_client hb).2.1
      have hmoves : ∀ c, a.at duct wid = some c → (duct ∉ a.state.connections ∨ stap c.url = none) ∧
          (wsEvent our duct wid (.message m) a.state).1 = [] ∨
          ∃ path, (stap c.url = some path ∧ duct ∈ a.state.connections) ∧
            (wsEvent our duct wid (.message m) a.state).1 = [c.poke our path m] := by
        intro c hat
        obtain ⟨hc, rfl⟩ := at_some.mp hat
        obtain ⟨rfl, -⟩ := h.sane.wid hc
        cases ho : a.state.connections.lookup c.duct with
        | none =>
          refine .inl ⟨.inl (AList.lookup_eq_none.mp ho), ?_⟩
          unfold wsEvent
          rw [ho]
        | some o =>
          obtain ⟨happ, hid, hurl⟩ := h.there (h.known hc) ho
          rw [wsEvent_message ho happ, hurl, hid]
          cases hst : stap c.url with
          | none => exact .inl ⟨.inr rfl, rfl⟩
          | some path =>
            exact .inr ⟨path, ⟨rfl, AList.lookup_isSome.mp (Option.isSome_iff_exists.mpr ⟨o, ho⟩)⟩, rfl⟩
      constructor
      · intro hh c hat hacc
        obtain ⟨path, hpath⟩ := (hh b ht).2 c hat hacc
        rw [hnews ht] at hpath
        rcases hmoves c hat with ⟨-, hnil⟩ | ⟨path', ⟨hst, hin⟩, -⟩
        · rw [hnil] at hpath
          exact absurd hpath (List.cons_ne_nil _ _).symm
        · exact ⟨Option.isSome_iff_exists.mpr ⟨path', hst⟩, hin⟩
      · intro hr b' hb'
        refine ⟨turn_log hb', fun c hat hacc => ?_⟩
        obtain ⟨hst, hin⟩ := hr c hat hacc
        rw [hnews hb']
        rcases hmoves c hat with ⟨hout | hnone, -⟩ | ⟨path, -, hpoke⟩
        · exact absurd hin hout
        · rw [hnone] at hst
          exact absurd hst Bool.false_ne_true
        · exact ⟨path, by rw [hpoke]; rfl⟩
    | disconnect =>
      refine hquiet fun b hb => ?_
      rw [news_of_log (turn_client hb).2.1]
      exact wsEvent_isMessage nofun
    | accept =>
      refine hquiet fun b hb => ?_
      rw [news_of_log (turn_client hb).2.1]
      exact wsEvent_isMessage nofun
    | reject =>
      refine hquiet fun b hb => ?_
      rw [news_of_log (turn_client hb).2.1]
      exact wsEvent_isMessage nofun
  | watch now duct wid sign =>
    refine hquiet fun b hb => ?_
    obtain ⟨-, r, hr, hlog, -⟩ := turn_watch hb
    rw [news_of_log hlog]
    exact takeWsWatchResponse_isMessage hr
  | cancel now duct =>
    refine hquiet fun b hb => ?_
    obtain ⟨⟨ms, s'⟩, hr, rfl⟩ := Option.map_eq_some_iff.mp hb
    rw [news_of_log (a := a) rfl]
    exact (ordinary_cancelRequest hr).filter_isMessage
  | born now =>
    refine hquiet fun b hb => ?_
    obtain ⟨⟨ms, s'⟩, hr, rfl⟩ := Option.map_eq_some_iff.mp hb
    rw [news_of_log (a := a) rfl]
    exact (ordinary_cancelAll hr).filter_isMessage
  | other t =>
    refine hquiet fun b hb => ?_
    obtain ⟨rfl, -⟩ := turn_other hb
    rw [news_of_log (a := a) (b := { a with state := t }) (List.append_nil _).symm]
    rfl

/-- **The messages of a run** each reach the agent of their websocket once, and in order, if and only if each
message for an open websocket is for a connection that eyre has and that has a static path as its url. -/
theorem messages_of_run {es : List SocketTask} (h : Replay.follow (socketTurn text our) .start es = some b) :
    Replay.Along (socketTurn text our) (Hears text our) .start es ↔
      Replay.Along (socketTurn text our) Reaches .start es :=
  Replay.Along.congr Based (fun _ _ _ ha ht => ha.turn ht) (fun _ _ _ ha ht => hears_iff ha ht) based_start h

theorem agentEnds_hears : ∃ b, Replay.follow (socketTurn guestText 1) .start agentEnds = some b ∧
    Replay.Along (socketTurn guestText 1) (Hears guestText 1) .start agentEnds := by
  have h : Replay.follow (socketTurn guestText 1) .start agentEnds = some _ := rfl
  refine
    ⟨_, h, (messages_of_run h).mpr ⟨trivial, fun b hb => ⟨trivial, fun b' hb' =>
      ⟨fun c hc hacc => ?_, fun _ _ => ⟨trivial, fun _ _ => trivial⟩⟩⟩⟩⟩
  obtain rfl := Option.some.inj hb
  obtain rfl := Option.some.inj hb'
  obtain rfl := Option.some.inj hc
  exact ⟨by decide, AList.lookup_isSome.mp rfl⟩

/-- A handshake whose url has a query, and a message once it is open. -/
def queryRun : List SocketTask :=
  [shakeTask "/chat?room=1", .watch 11 3 7 (.fact (some (7, .accept))), .client 3 7 (.message ⟨1, none⟩)]

/-- The message of an open websocket reaches no agent. -/
theorem queryRun_deaf : ∃ b, Replay.follow (socketTurn guestText 1) .start queryRun = some b ∧
    ¬ Replay.Along (socketTurn guestText 1) (Hears guestText 1) .start queryRun := by
  have h : Replay.follow (socketTurn guestText 1) .start queryRun = some _ := rfl
  refine ⟨_, h, fun hp => ?_⟩
  have hmessage := ((hp.2 _ rfl).2 _ rfl).1
  obtain ⟨path, hpath⟩ := (hmessage _ rfl).2 _ rfl rfl
  exact absurd hpath (List.cons_ne_nil _ _).symm

end Eyre
end Ursockets
