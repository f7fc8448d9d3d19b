/-
# Eyre's websockets

The arms of `arvo/eyre.hoon` that a websocket goes through: its handshake, the
client's events, what its agent says to the watch that the handshake opened, and
the ends that it shares with ordinary requests (a cancelled request, an error of
the agent, a new runtime).

A cookie that names no session gives the handshake the guest identity of ship 0,
where a request is turned away. So the deals of a connection are from whom they
should in just the cases that `Vouched` lists.

Key definitions: `wsEvent`, `wsHandshake`, `handleWsResponse`, `takeWsWatchResponse`,
`cancelRequest`, `Guarded`, `Vouched`.
Key theorem: `guarded_iff`.
-/
import Ursockets.Eyre

namespace Ursockets
namespace Eyre

variable (text : Text) (our : Ship) (now : Da) (duct : Duct)

/-! ### The client's side -/

/-- The characters of a knot in a static path (`urs`). -/
def isUrs (c : Char) : Bool :=
  ('a' ≤ c ∧ c ≤ 'z') ∨ ('0' ≤ c ∧ c ≤ '9') ∨ c ∈ ['-', '.', '~', '_']

/-- The knots between the slashes of a text. -/
def knots : List Char → List (List Char)
  | [] => [[]]
  | c :: cs =>
    if c = '/' then [] :: knots cs
    else match knots cs with
      | [] => [[c]]
      | k :: ks => (c :: k) :: ks

/-- `(rush url stap)`: a static path, whose last knot is not empty. -/
def stap (url : String) : Option Path :=
  match url.toList with
  | '/' :: cs =>
    let ks := knots cs
    if ks.all (·.all isUrs) then
      if ks = [[]] then some []
      else if ks.getLast? = some [] then none
      else some (ks.map String.ofList)
    else none
  | _ => none

/-- `+ws-event`. -/
def wsEvent (wid : ℕ) (event : WebsocketEvent) (s : ServerState) : List Move × ServerState :=
  match s.connections.lookup duct with
  | none => ([], s)
  | some conn =>
    match conn.action with
    | .app app =>
      match stap conn.inboundRequest.request.url with
      | none => ([], s)
      | some pat =>
        match event with
        | .message m =>
          ([dealAs our duct (.runWsAppRequest wid) conn.identity our app
            (.poke (.websocketServerMessage wid pat m))], s)
        | .disconnect =>
          ([dealAs our duct (.wsWatchResponse wid) conn.identity our app .leave],
            { s with connections := s.connections.erase duct })
        | _ => ([], s)
    | _ => ([], s)

/-- The moves of a handshake that an agent has been found for. -/
def handshakeMoves (wid : ℕ) (identity : Identity) (app : String) (inbound : InboundRequest) : List Move :=
  [dealAs our duct (.wsWatchResponse wid) identity our app (.watch ["websocket-server", toString wid]),
    dealAs our duct (.runWsAppRequest wid) identity our app (.poke (.websocketHandshake wid inbound))]

/-- `+ws-handshake`, for a request that its bindings lead to `action`. A session that is
not valid gives a guest's identity, that of ship 0. -/
def wsHandshake (eny : Eny) (action : Action) (wid : ℕ) (secure : Bool) (address : ℕ) (request : Request)
    (s : ServerState) : Option (List Move × ServerState) :=
  match action with
  | .app app => do
    let (found, s) ← sessionForRequest text our now duct eny request s
    let (sessionId, identity, som) := match found with
      | .inl invalid => (invalid, Identity.fake 0, [])
      | .inr r => r
    let inbound : InboundRequest := ⟨identity = .ours, secure, address, request⟩
    let connection : OutstandingConnection := ⟨action, inbound, sessionId, identity, none, 0⟩
    some (som ++ handshakeMoves our duct wid identity app inbound,
      { s with connections := s.connections.insert duct connection })
  | _ => some ([], s)

/-! ### The agent's side -/

/-- `+handle-ws-response`. -/
def handleWsResponse (wid : ℕ) (event : WebsocketEvent) (s : ServerState) : Option (List Move × ServerState) := do
  let s := match event with
    | .reject | .disconnect => { s with connections := s.connections.erase duct }
    | _ => s
  let sockets ← match event with
    | .reject | .disconnect => some (s.sockets.erase wid)
    | .accept =>
      match s.connections.lookup duct with
      | none => some s.sockets
      | some o =>
        match o.action with
        | .app app => some (s.sockets.insert wid ⟨app, o.inboundRequest⟩)
        | _ => none
    | .message _ => some s.sockets
  some ([⟨duct, .websocketResponse wid event⟩], { s with sockets := sockets })

/-- `+handle-gall-error`. -/
def handleGallError (tang : String) (s : ServerState) : List Move × ServerState :=
  match s.connections.lookup duct with
  | none => ([], s)
  | some c =>
    let moves1 := match c.action with
      | .app app => [dealAs our duct (.watchResponse duct) c.identity our app .leave]
      | _ => []
    let (moves2, s) := returnStaticDataOnDuct text our now duct 500 "text/html" tang s
    (moves1 ++ moves2, s)

/-- What comes on a watch. A fact is a websocket response for the id that it names, or of
another mark. -/
inductive WatchSign where
  | watchAck (tang : Option String)
  | kick
  | fact (response : Option (ℕ × WebsocketEvent))
  deriving DecidableEq

/-- `+watch-ws-response`, on the wire of `wid`. -/
def takeWsWatchResponse (wid : ℕ) (sign : WatchSign) (s : ServerState) : Option (List Move × ServerState) :=
  match sign with
  | .watchAck none => some ([], s)
  | .watchAck (some tang) => some (handleGallError text our now duct tang s)
  | .kick => handleWsResponse duct wid .disconnect s
  | .fact none => some (handleGallError text our now duct "eyre bad mark" s)
  | .fact (some (wid', event)) => handleWsResponse duct wid' event s

/-! ### Whom a websocket's deals are from -/

/-- There is a session of this identity under the key, and it has not expired. -/
def Live (s : ServerState) (sid : ℕ) (identity : Identity) : Prop :=
  ∃ ses, s.sessions.lookup sid = some ses ∧ ses.identity = identity ∧ now ≤ ses.expiryTime

/-- No session is of this ship, verified. -/
def Unverified (s : ServerState) (who : Ship) : Prop :=
  ∀ sid ses, s.sessions.lookup sid = some ses → ses.identity ≠ .real who

/-- What the source of a websocket's deals may be: our ship, if the request names a live
session of ours, and otherwise the ship of the live session that it names, or one that
is neither ours nor verified. -/
def MaySource (s : ServerState) (named : Option ℕ) (source : Ship) : Prop :=
  (source = our → ∃ sid, named = some sid ∧ Live now s sid .ours) ∧
    (source ≠ our → (∃ sid, named = some sid ∧ Live now s sid (.real source)) ∨ Unverified s source)

/-- Every deal among the moves is from whom it may be. -/
def Guarded (s : ServerState) (named : Option ℕ) (moves : List Move) : Prop :=
  ∀ m ∈ moves, ∀ wire source ship dude task, m.card = .deal wire source ship dude task →
    MaySource our now s named source

/-- The cases where it is so. A request that names no session is given a name that no verified
ship has, one that names a live session has one of ours, or of another ship, or a guest's of
a ship that is not verified, and where it names a session that is not valid, ship 0 is not
ours and not verified. -/
def Vouched (eny : Eny) (s : ServerState) (named : Option ℕ) : Prop :=
  match named with
  | none => ∀ nom, eny.guests.find? (fun nom => our ≠ nom) = some nom → Unverified s nom
  | some sid =>
    match (s.sessions.lookup sid).filter fun ses => now ≤ ses.expiryTime with
    | some ses =>
      match ses.identity with
      | .ours => True
      | .real who => who ≠ our
      | .fake who => who ≠ our ∧ Unverified s who
    | none => 0 ≠ our ∧ Unverified s 0

variable {text our now duct} {eny : Eny} {s s' : ServerState} {named : Option ℕ} {sid wid address : ℕ}
  {ses : Session} {identity : Identity} {app : String} {secure : Bool} {request : Request} {moves : List Move}

theorem live_iff (hs : s.sessions.lookup sid = some ses) (hx : now ≤ ses.expiryTime) :
    Live now s sid identity ↔ ses.identity = identity := by
  unfold Live
  rw [hs]
  exact ⟨fun ⟨_, h1, h2, _⟩ => Option.some.inj h1 ▸ h2, fun h => ⟨ses, rfl, h, hx⟩⟩

theorem not_live (hs : (s.sessions.lookup sid).filter (fun ses => now ≤ ses.expiryTime) = none) :
    ¬ Live now s sid identity := by
  rintro ⟨ses, h1, -, h2⟩
  have hx : ses.expiryTime < now := by simpa [h1] using hs
  exact absurd h2 (not_le.mpr hx)

/-- A source that no live session accounts for. -/
theorem maySource_unnamed {who : Ship} (h : ∀ sid, named = some sid → ∀ i, i = .ours ∨ i = .real who →
    ¬ Live now s sid i) :
    MaySource our now s named who ↔ who ≠ our ∧ Unverified s who := by
  unfold MaySource
  constructor
  · rintro ⟨h1, h2⟩
    have hne : who ≠ our := fun he => by
      obtain ⟨sid, hn, hl⟩ := h1 he
      exact h sid hn _ (.inl rfl) hl
    refine ⟨hne, (h2 hne).resolve_left ?_⟩
    rintro ⟨sid, hn, hl⟩
    exact h sid hn _ (.inr rfl) hl
  · rintro ⟨hne, hu⟩
    exact ⟨fun he => absurd he hne, fun _ => .inr hu⟩

/-- The source of a live session that is named. -/
theorem maySource_live (hs : s.sessions.lookup sid = some ses) (hx : now ≤ ses.expiryTime) :
    MaySource our now s (some sid) (ses.identity.source our) ↔ match ses.identity with
      | .ours => True
      | .real who => who ≠ our
      | .fake who => who ≠ our ∧ Unverified s who := by
  have hl : ∀ i, Live now s sid i ↔ ses.identity = i := fun i => live_iff hs hx
  cases hi : ses.identity with
  | ours => exact iff_of_true ⟨fun _ => ⟨sid, rfl, (hl _).mpr hi⟩, fun h => absurd rfl h⟩ trivial
  | real who =>
    unfold MaySource
    refine ⟨fun ⟨h1, _⟩ he => ?_, fun hne => ⟨fun he => absurd he hne, fun _ => .inl ⟨sid, rfl, (hl _).mpr hi⟩⟩⟩
    obtain ⟨sid', hn, h2⟩ := h1 he
    rw [← Option.some.inj hn, hl, hi] at h2
    exact absurd h2 (by simp)
  | fake who =>
    refine maySource_unnamed fun sid' hn i hor h2 => ?_
    rw [← Option.some.inj hn, hl, hi] at h2
    rcases hor with rfl | rfl <;> exact absurd h2 (by simp)

/-- Who makes a handshake: a guest with a new name, a live session that is named, or
else ship 0. -/
theorem sessionForRequest_source {found : ℕ ⊕ ℕ × Identity × List Move}
    (h : sessionForRequest text our now duct eny request s = some (found, s')) :
    (∀ m ∈ found.elim (fun _ => []) fun r => r.2.2, ∃ wire date, m.card = .wait wire date) ∧
      (MaySource our now s (sessionIdFromRequest text our request)
          ((found.elim (fun _ => Identity.fake 0) fun r => r.2.1).source our) ↔
        Vouched our now eny s (sessionIdFromRequest text our request)) := by
  unfold sessionForRequest at h
  cases hn : sessionIdFromRequest text our request with
  | none =>
    rw [hn] at h
    simp only [Option.map_eq_some_iff, Prod.mk.injEq] at h
    obtain ⟨⟨⟨key, i, som⟩, s1⟩, hstart, rfl, -⟩ := h
    unfold startSession newIdentity at hstart
    simp only [Option.bind_eq_bind, Option.bind_eq_some_iff, Option.map_eq_some_iff, Option.some.injEq,
      Prod.mk.injEq] at hstart
    obtain ⟨-, -, i', ⟨nom, hnom, rfl⟩, ⟨-, rfl, hsom⟩, -⟩ := hstart
    refine ⟨fun m hm => ?_, ?_⟩
    · rw [Sum.elim_inr, ← hsom] at hm
      split at hm
      · exact ⟨_, _, by rw [List.mem_singleton.mp hm]⟩
      · exact absurd hm List.not_mem_nil
    · have hne : our ≠ nom := by simpa using List.find?_some hnom
      refine (maySource_unnamed fun sid h => absurd h (by simp)).trans ?_
      exact ⟨fun hu nom' h' => Option.some.inj (hnom.symm.trans h') ▸ hu.2, fun hv => ⟨hne.symm, hv nom hnom⟩⟩
  | some sid =>
    rw [hn] at h
    unfold Vouched
    by_cases hlive : ∃ ses, s.sessions.lookup sid = some ses ∧ now ≤ ses.expiryTime
    · obtain ⟨ses, hs, hx⟩ := hlive
      simp only [hs, if_neg (not_lt.mpr hx), Option.some.injEq, Prod.mk.injEq] at h
      obtain ⟨rfl, -⟩ := h
      refine ⟨fun m hm => absurd hm List.not_mem_nil, ?_⟩
      dsimp only
      rw [hs, Option.filter_some, if_pos (by simpa using hx)]
      exact maySource_live hs hx
    · have hno : (s.sessions.lookup sid).filter (fun ses => decide (now ≤ ses.expiryTime)) = none := by
        rw [Option.filter_eq_none_iff]
        intro ses hs hx
        exact hlive ⟨ses, hs, by simpa using hx⟩
      have hfound : found = .inl sid := by
        cases hs : s.sessions.lookup sid with
        | none => simp only [hs, Option.some.injEq, Prod.mk.injEq] at h; exact h.1.symm
        | some ses =>
          have hx : ses.expiryTime < now := not_le.mp fun hx => hlive ⟨ses, hs, hx⟩
          simp only [hs, if_pos hx, Option.some.injEq, Prod.mk.injEq] at h
          exact h.1.symm
      subst hfound
      refine ⟨fun m hm => absurd hm List.not_mem_nil, ?_⟩
      dsimp only
      rw [hno]
      exact maySource_unnamed fun sid' hn' i _ => Option.some.inj hn' ▸ not_live hno

theorem guarded_handshakeMoves {som : List Move} {inbound : InboundRequest}
    (hsom : ∀ m ∈ som, ∃ wire date, m.card = .wait wire date) :
    Guarded our now s named (som ++ handshakeMoves our duct wid identity app inbound) ↔
      MaySource our now s named (identity.source our) := by
  constructor
  · intro h
    exact h _ (List.mem_append_right som List.mem_cons_self) _ _ _ _ _ rfl
  · intro h m hm wire source ship dude task hc
    rcases List.mem_append.mp hm with hm | hm
    · obtain ⟨w, d, hw⟩ := hsom m hm
      rw [hw] at hc
      exact absurd hc (by simp)
    · simp only [handshakeMoves, dealAs, List.mem_cons, List.not_mem_nil, or_false] at hm
      rcases hm with rfl | rfl <;> exact (Card.deal.inj hc).2.1 ▸ h

/-- **The deals of a websocket's handshake are from whom they may be in just the cases that
are listed.** -/
theorem guarded_iff (h : wsHandshake text our now duct eny (.app app) wid secure address request s = some (moves, s')) :
    Guarded our now s (sessionIdFromRequest text our request) moves ↔
      Vouched our now eny s (sessionIdFromRequest text our request) := by
  unfold wsHandshake at h
  simp only [Option.bind_eq_bind, Option.bind_eq_some_iff, Option.some.injEq, Prod.mk.injEq] at h
  obtain ⟨⟨found, s1⟩, hfound, rfl, -⟩ := h
  obtain ⟨hsom, hsource⟩ := sessionForRequest_source hfound
  cases found with
  | inl invalid => exact (guarded_handshakeMoves hsom).trans hsource
  | inr r => exact (guarded_handshakeMoves hsom).trans hsource

/-- Texts where every cookie line names the session 5. -/
def fiveText : Text := ⟨fun _ => some [("urbauth-", "")], fun _ => none, fun _ => some 5, fun _ => "", fun _ => ""⟩

/-- A request with no headers but a cookie. -/
def cookieRequest : Request := ⟨"GET", "/app", [("cookie", "urbauth-=0v5")], none⟩

/-- A live session of ours, under the key 5. -/
def fiveState : ServerState := { emptyState with sessions := emptyState.sessions.insert 5 ⟨.ours, 20, []⟩ }

/-- A handshake on ship 1 whose cookie names a live session of its own. -/
theorem own_session_guarded : ∃ moves s',
    wsHandshake fiveText 1 10 0 ⟨[], 0, []⟩ (.app "app") 7 false 0 cookieRequest fiveState = some (moves, s') ∧
      Guarded 1 10 fiveState (sessionIdFromRequest fiveText 1 cookieRequest) moves := by
  have h : wsHandshake fiveText 1 10 0 ⟨[], 0, []⟩ (.app "app") 7 false 0 cookieRequest fiveState = some _ := rfl
  exact ⟨_, _, h, (guarded_iff h).mpr trivial⟩

/-- A handshake on the galaxy 0 whose cookie names no session: its deals are from 0. -/
theorem forged_cookie_not_guarded : ∃ moves s', wsHandshake fiveText 0 10 0 ⟨[], 0, []⟩
    (.app "app") 7 false 0 cookieRequest
      emptyState = some (moves, s') ∧
    ¬ Guarded 0 10 emptyState (sessionIdFromRequest fiveText 0 cookieRequest) moves := by
  refine ⟨_, _, rfl, fun h => ?_⟩
  obtain ⟨sid, -, ses, hs, -⟩ := (h _ List.mem_cons_self _ _ _ _ _ rfl).1 rfl
  exact absurd hs (by simp [emptyState])

end Eyre
end Ursockets
