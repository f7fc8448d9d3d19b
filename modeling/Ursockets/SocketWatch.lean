/-
# The watches of websockets

The handshake of a websocket watches its agent, and the end of the connection should leave that
watch. It is left where the client ends the connection, if eyre still has it and can read its url.
Where the agent ends it no watch is left, and where a request is cancelled or its agent fails, one
on the wire of an ordinary request.

Key definitions: `Leaves`, `Parts`, `Survive`, `Absent`, `Strays`.
Key theorems: `survive_turn`, `leaves_iff`, `watches_of_run`.
-/
import Ursockets.SocketMessage

namespace Ursockets
namespace Eyre

variable {text : Text} {our : Ship} {a b : SocketSys} {e : SocketTask} {s s' : ServerState} {now : Da}
  {duct : Duct} {wid : ℕ}
  {moves : List Move} {event : WebsocketEvent} {sign : WatchSign} {eny : Eny} {action : Action} {secure : Bool}
    {address : ℕ}
  {request : Request}

/-! ### Watches -/

/-- A watch is opened or left. -/
def Move.isWatching (m : Move) : Bool :=
  match m.card with
  | .deal _ _ _ _ (.watch _) => true
  | .deal _ _ _ _ .leave => true
  | _ => false

/-- The watches and leaves on a duct. -/
def watching (duct : Duct) (moves : List Move) : List Move := moves.filter fun m => m.duct = duct ∧ m.isWatching

variable (our) in
/-- The move that opens the watch of a connection. -/
def Conn.watch (c : Conn) : Move :=
  dealAs our c.duct (.wsWatchResponse c.wid) c.identity our c.app (.watch ["websocket-server", toString c.wid])

variable (our) in
/-- The move that leaves the watch of a connection. -/
def Conn.leave (c : Conn) : Move := dealAs our c.duct (.wsWatchResponse c.wid) c.identity our c.app .leave

/-- A connection that a handshake began has not ended. -/
def SocketSys.Alive (a : SocketSys) (c : Conn) : Prop := (a.at c.duct c.wid).isSome

instance (a : SocketSys) (c : Conn) : Decidable (a.Alive c) := inferInstanceAs (Decidable (_ = true))

variable (text our) in
/-- The watch of a connection is opened by its handshake, is left on its wire by the event that ends the
connection, and is neither opened nor left otherwise. -/
def Leaves (a : SocketSys) (e : SocketTask) : Prop :=
  ∀ b, socketTurn text our a e = some b → ∀ c ∈ b.shakes, watching c.duct (a.news b) =
    if c ∉ a.shakes then [c.watch our] else if a.Alive c ∧ ¬ b.Alive c then [c.leave our] else []

/-- A connection is ended by its client, with a static path as its url and while eyre has it, and by nothing else. -/
def Parts (a : SocketSys) : SocketTask → Prop
  | .client duct wid .disconnect => ∀ c, a.at duct wid = some c → (stap c.url).isSome ∧ duct ∈ a.state.connections
  | .watch _ duct wid (.watchAck (some _)) | .watch _ duct wid (.fact none) => a.at duct wid = none
  | .watch _ _ wid .kick => a.life wid = none
  | .watch _ _ _ (.fact (some (w, .reject))) | .watch _ _ _ (.fact (some (w, .disconnect))) => a.life w = none
  | .cancel _ duct => ∀ w c, a.life w = some c → c.duct ≠ duct
  | .born _ => ∀ w, a.life w = none
  | _ => True

/-- No connection ends. -/
def Survive (a b : SocketSys) : Prop := ∀ c ∈ a.shakes, a.Alive c → b.Alive c

theorem alive_iff {c : Conn} : a.Alive c ↔ ∃ c', a.life c.wid = some c' ∧ c'.duct = c.duct := by
  unfold SocketSys.Alive
  rw [Option.isSome_iff_exists]
  exact exists_congr fun _ => at_some

theorem Based.alive (h : Based a) {w : ℕ} {c : Conn} (hc : a.life w = some c) :
    ∃ c0 ∈ a.shakes, a.Alive c0 ∧ c0.duct = c.duct ∧ c0.wid = w :=
  ⟨_, h.known hc, alive_iff.mpr ⟨c, (h.sane.wid hc).1.symm ▸ hc, rfl⟩, rfl, (h.sane.wid hc).1⟩

theorem survive_iff (h : Based a) :
    Survive a b ↔ ∀ w c, a.life w = some c → ∃ c', b.life w = some c' ∧ c'.duct = c.duct := by
  constructor
  · intro hs w c hc
    obtain ⟨c0, hin, halive, hd, rfl⟩ := h.alive hc
    obtain ⟨c', hc', hd'⟩ := alive_iff.mp (hs c0 hin halive)
    exact ⟨c', hc', hd'.trans hd⟩
  · intro hl c _ halive
    obtain ⟨c', hc', hd⟩ := alive_iff.mp halive
    obtain ⟨c'', hc'', hd'⟩ := hl _ _ hc'
    exact alive_iff.mpr ⟨c'', hc'', hd'.trans hd⟩

theorem survive_same (h : Based a) (hl : b.life = a.life) : Survive a b :=
  (survive_iff h).mpr fun _ c hc => ⟨c, hl ▸ hc, rfl⟩

/-- Where the connection of an id is the one that may end. -/
theorem survive_ended (h : Based a) {P : Prop} [Decidable P]
    (hl : ∀ w, b.life w = if w = wid ∧ P then none else a.life w) :
    Survive a b ↔ (P → a.life wid = none) := by
  rw [survive_iff h]
  constructor
  · intro hs hP
    by_contra hne
    obtain ⟨c, hc⟩ := Option.ne_none_iff_exists'.mp hne
    obtain ⟨c', hc', -⟩ := hs wid c hc
    rw [hl, if_pos ⟨rfl, hP⟩] at hc'
    exact Option.some_ne_none _ hc'.symm
  · intro hP w c hc
    refine ⟨c, ?_, rfl⟩
    rw [hl, if_neg]
    · exact hc
    · rintro ⟨rfl, h'⟩
      exact Option.some_ne_none _ (hc.symm.trans (hP h'))

theorem at_none_iff : a.at duct wid = none ↔ ((a.at duct wid).isSome = true → a.life wid = none) := by
  constructor
  · intro hat hsome
    rw [hat] at hsome
    exact absurd hsome Bool.false_ne_true
  · intro h
    by_contra hne
    obtain ⟨c, hc⟩ := Option.ne_none_iff_exists'.mp hne
    exact Option.some_ne_none _ ((at_some.mp hc).1.symm.trans (h (Option.isSome_iff_exists.mpr ⟨c, hc⟩)))

/-- The signs under which connections survive. -/
theorem survive_watch (h : Based a) (r : List Move × ServerState) :
    Survive a ((a.give r).hear duct wid sign) ↔ Parts a (.watch now duct wid sign) := by
  have hlife := hear_life (a := a.give r) duct wid sign
  cases sign with
  | watchAck tang =>
    cases tang with
    | none => exact iff_of_true (survive_same h rfl) trivial
    | some tang => exact (survive_ended h hlife).trans at_none_iff.symm
  | kick =>
    have hl : ∀ w, ((a.give r).hear duct wid .kick).life w = if w = wid ∧ True then none else a.life w := fun w =>
      (hlife w).trans (if_congr (and_iff_left trivial).symm rfl rfl)
    exact (survive_ended h hl).trans (imp_iff_right trivial)
  | fact response =>
    cases response with
    | none => exact (survive_ended h hlife).trans at_none_iff.symm
    | some response =>
      obtain ⟨w0, event⟩ := response
      have hend :
        (∀ w, ((a.give r).hear duct wid (.fact (some (w0, event)))).life w = if w = w0 then none else a.life w) →
          (Survive a ((a.give r).hear duct wid (.fact (some (w0, event)))) ↔ a.life w0 = none) := by
        intro hl
        refine (survive_ended h (P := True) fun w => (hl w).trans ?_).trans (imp_iff_right trivial)
        exact if_congr (and_iff_left trivial).symm rfl rfl
      cases event with
      | accept =>
        refine iff_of_true ((survive_iff h).mpr fun w c hc => ?_) trivial
        rw [hlife]
        dsimp only
        split
        · exact ⟨{ c with accepted := true }, congrArg _ hc, rfl⟩
        · exact ⟨c, hc, rfl⟩
      | message m =>
        refine iff_of_true ((survive_iff h).mpr fun w c hc => ⟨c, ?_, rfl⟩) trivial
        rw [hlife]
        dsimp only
        split <;> exact hc
      | reject => exact hend hlife
      | disconnect => exact hend hlife

/-- **The events under which connections survive**, of those that are no handshake and no client's end. -/
theorem survive_turn (h : Based a) (ht : socketTurn text our a e = some b)
    (hno : ∀ now duct eny action wid secure address request,
      e ≠ .handshake now duct eny action wid secure address request)
    (hend : ∀ duct wid, e ≠ .client duct wid .disconnect) : Survive a b ↔ Parts a e := by
  cases e with
  | handshake now duct eny action wid secure address request => exact absurd rfl (hno _ _ _ _ _ _ _ _)
  | client duct wid event =>
    obtain ⟨-, -, -, -, -, hlife⟩ := turn_client ht
    have hne : event ≠ .disconnect := fun he => hend duct wid (he ▸ rfl)
    refine iff_of_true (survive_same h (funext fun w => (hlife w).trans (if_neg fun h => hne h.2.1))) ?_
    cases event with
    | disconnect => exact absurd rfl hne
    | _ => exact trivial
  | watch now duct wid sign =>
    obtain ⟨-, r, -, -, rfl⟩ := turn_watch ht
    exact survive_watch h r
  | cancel now duct =>
    obtain ⟨r, -, rfl⟩ := Option.map_eq_some_iff.mp ht
    refine (survive_iff h).trans (forall₂_congr fun w c => imp_congr_right fun hc => ?_)
    constructor
    · rintro ⟨c', hc', hd⟩
      exact hd ▸ of_decide_eq_true (Option.filter_eq_some_iff.mp hc').2
    · intro hd
      exact ⟨c, Option.filter_eq_some_iff.mpr ⟨hc, decide_eq_true hd⟩, rfl⟩
  | born now =>
    obtain ⟨r, -, rfl⟩ := Option.map_eq_some_iff.mp ht
    refine (survive_iff h).trans ⟨fun hs w => ?_, fun hnone w c hc => absurd (hc.symm.trans (hnone w))
      (Option.some_ne_none _)⟩
    by_contra hne
    obtain ⟨c, hc⟩ := Option.ne_none_iff_exists'.mp hne
    obtain ⟨c', hc', -⟩ := hs w c hc
    exact Option.some_ne_none _ hc'.symm
  | other t => exact iff_of_true (survive_same h ((turn_other ht).1 ▸ rfl)) trivial

theorem Based.eq_of_duct (h : Based a) {c c' : Conn} (hc : c ∈ a.shakes) (hc' : c' ∈ a.shakes) (hd : c.duct = c'.duct) :
    c = c' := List.inj_on_of_nodup_map h.nodup hc hc' hd

/-- Eyre has no connection of a websocket that has ended. -/
def Absent (a : SocketSys) : Prop := ∀ c ∈ a.shakes, ¬ a.Alive c → c.duct ∉ a.state.connections

variable (our) in
/-- The watches and leaves among the moves are on these ducts, of connections that were there, and are no
leave on the wire of a websocket's watch. -/
def Strays (s : ServerState) (D : Duct → Prop) (moves : List Move) : Prop :=
  ∀ m ∈ moves, m.isWatching = true → D m.duct ∧ m.duct ∈ s.connections ∧ ∀ c : Conn, m ≠ c.leave our

theorem isWatching_deal {m : Move} (h : m.isWatching = true) :
    ∃ wire source ship dude task, m.card = .deal wire source ship dude task := by
  unfold Move.isWatching at h
  split at h
  · rename_i hc
    exact ⟨_, _, _, _, _, hc⟩
  · rename_i hc
    exact ⟨_, _, _, _, _, hc⟩
  · exact absurd h Bool.false_ne_true

theorem Ordinary.strays {D : Duct → Prop} (h : Ordinary s D moves) : Strays our s D moves := by
  intro m hm hw
  obtain ⟨wire, source, ship, dude, task, hc⟩ := isWatching_deal hw
  obtain ⟨hD, hin, rfl, -⟩ := (h m hm).2 wire source ship dude task hc
  refine ⟨hD, hin, ?_⟩
  rintro c rfl
  exact nomatch (Card.deal.inj hc).1

theorem strays_quiet {D : Duct → Prop} (h : ∀ m ∈ moves, m.isWatching = false) : Strays our s D moves :=
  fun m hm hw => absurd ((h m hm).symm.trans hw) Bool.false_ne_true

theorem watching_nil (h : ∀ m ∈ moves, m.isWatching = true → m.duct ≠ duct) : watching duct moves = [] := by
  refine List.filter_eq_nil_iff.mpr fun m hm hc => ?_
  obtain ⟨hd, hw⟩ := of_decide_eq_true hc
  exact h m hm hw hd

/-- Where the leaves are no websocket's, and are on ducts of connections that end, the watches are as they should
just where no connection ends. -/
theorem leaves_iff_survive {D : Duct → Prop} (habs : Absent a) (hs : Strays our a.state D (a.news b))
    (hshakes : b.shakes = a.shakes) (hD : ∀ c ∈ a.shakes, D c.duct → ¬ b.Alive c) :
    (∀ c ∈ b.shakes, watching c.duct (a.news b) =
      if c ∉ a.shakes then [c.watch our] else if a.Alive c ∧ ¬ b.Alive c then [c.leave our] else []) ↔ Survive a b := by
  rw [hshakes]
  constructor
  · intro hall c hc halive
    by_contra hdead
    have hw := hall c hc
    rw [if_neg (not_not_intro hc), if_pos ⟨halive, hdead⟩] at hw
    obtain ⟨hin, hcond⟩ := List.mem_filter.mp (hw ▸ List.mem_cons_self : c.leave our ∈ watching c.duct (a.news b))
    exact (hs _ hin (of_decide_eq_true hcond).2).2.2 c rfl
  · intro hsv c hc
    rw [if_neg (not_not_intro hc), if_neg fun h => h.2 (hsv c hc h.1)]
    refine watching_nil fun m hm hw hd => ?_
    obtain ⟨h1, h2, -⟩ := hs m hm hw
    rw [hd] at h1 h2
    exact habs c hc (fun halive => hD c hc h1 (hsv c hc halive)) h2

/-- The leaves of an event that is no handshake and no client's end. -/
theorem turn_strays (h : Based a) (ht : socketTurn text our a e = some b)
    (hno : ∀ now duct eny action wid secure address request,
      e ≠ .handshake now duct eny action wid secure address request)
    (hend : ∀ duct wid, e ≠ .client duct wid .disconnect) :
    ∃ D, Strays our a.state D (a.news b) ∧ ∀ c ∈ a.shakes, D c.duct → ¬ b.Alive c := by
  cases e with
  | handshake now duct eny action wid secure address request => exact absurd rfl (hno _ _ _ _ _ _ _ _)
  | client duct wid event =>
    refine ⟨fun _ => False, ?_, fun _ _ => False.elim⟩
    rw [news_of_log (turn_client ht).2.1]
    refine strays_quiet fun m hm => ?_
    unfold wsEvent at hm
    split at hm
    · exact absurd hm List.not_mem_nil
    · split at hm
      · split at hm
        · exact absurd hm List.not_mem_nil
        · split at hm
          · exact List.mem_singleton.mp hm ▸ rfl
          · exact absurd rfl (hend duct wid)
          · exact absurd hm List.not_mem_nil
      · exact absurd hm List.not_mem_nil
  | watch now duct wid sign =>
    obtain ⟨⟨c1, hc1, rfl, rfl⟩, r, hr, hlog, rfl⟩ := turn_watch ht
    rw [news_of_log hlog]
    -- an error ends the connection of its duct, and a response leaves no watch
    have herror : ∀ tang, r = handleGallError text our now c1.duct tang a.state →
        (∀ w, ((a.give r).hear c1.duct c1.wid sign).life w = if w = c1.wid ∧
          (a.at c1.duct c1.wid).isSome then none else a.life w) →
        ∃ D, Strays our a.state D r.1 ∧ ∀ c ∈ a.shakes, D c.duct → ¬ ((a.give r).hear c1.duct c1.wid sign).Alive c := by
      intro tang he hlife
      refine ⟨(· = c1.duct), he ▸ (ordinary_handleGallError _ _ _ _ _ _).strays, fun c hc hd halive => ?_⟩
      obtain rfl := h.eq_of_duct hc hc1 hd
      obtain ⟨c', hc', hd'⟩ := alive_iff.mp halive
      rw [hlife] at hc'
      split at hc'
      · exact Option.some_ne_none _ hc'.symm
      · rename_i hnot
        exact hnot ⟨rfl, Option.isSome_iff_exists.mpr ⟨c', at_some.mpr ⟨hc', hd'⟩⟩⟩
    have hquiet : ∀ w ev, handleWsResponse c1.duct w ev a.state = some r →
        ∃ D, Strays our a.state D r.1 ∧ ∀ c ∈ a.shakes, D c.duct → ¬ ((a.give r).hear c1.duct c1.wid sign).Alive c := by
      intro w ev hr'
      refine ⟨fun _ => False, strays_quiet fun m hm => ?_, fun _ _ => False.elim⟩
      rw [handleWsResponse_moves hr'] at hm
      exact List.mem_singleton.mp hm ▸ rfl
    have hlife := hear_life (a := a.give r) c1.duct c1.wid sign
    cases sign with
    | watchAck tang =>
      cases tang with
      | none =>
        refine ⟨fun _ => False, ?_, fun _ _ => False.elim⟩
        exact Option.some.inj hr ▸ strays_quiet fun m hm => absurd hm List.not_mem_nil
      | some tang => exact herror tang (Option.some.inj hr).symm hlife
    | kick => exact hquiet c1.wid .disconnect hr
    | fact response =>
      cases response with
      | none => exact herror _ (Option.some.inj hr).symm hlife
      | some response => exact hquiet response.1 response.2 hr
  | cancel now duct =>
    obtain ⟨⟨ms, s'⟩, hr, rfl⟩ := Option.map_eq_some_iff.mp ht
    rw [news_of_log (a := a) rfl]
    refine ⟨(· = duct), (ordinary_cancelRequest hr).strays, fun c _ hd halive => ?_⟩
    obtain ⟨c', hc', hd'⟩ := alive_iff.mp halive
    exact of_decide_eq_true (Option.filter_eq_some_iff.mp hc').2 (hd'.trans hd)
  | born now =>
    obtain ⟨⟨ms, s'⟩, hr, rfl⟩ := Option.map_eq_some_iff.mp ht
    rw [news_of_log (a := a) rfl]
    refine ⟨fun _ => True, (ordinary_cancelAll hr).strays, fun c _ _ halive => ?_⟩
    obtain ⟨c', hc', -⟩ := alive_iff.mp halive
    exact Option.some_ne_none _ hc'.symm
  | other t =>
    obtain ⟨rfl, -⟩ := turn_other ht
    rw [news_of_log (a := a) (b := { a with state := t }) (List.append_nil _).symm]
    exact ⟨fun _ => False, strays_quiet fun m hm => absurd hm List.not_mem_nil, fun _ _ => False.elim⟩

theorem watching_append (duct : Duct) (ms later : List Move) :
    watching duct (ms ++ later) = watching duct ms ++ watching duct later := List.filter_append _ _

theorem watching_handshakeMoves {identity : Identity} {app : String} {inbound : InboundRequest} :
    watching duct (handshakeMoves our duct wid identity app inbound) =
      [dealAs our duct (.wsWatchResponse wid) identity our app (.watch ["websocket-server", toString wid])] := by
  simp [watching, handshakeMoves, dealAs, Move.isWatching]

theorem watching_handshakeMoves_of_ne {d : Duct} (hd : d ≠ duct) {identity : Identity} {app : String}
    {inbound : InboundRequest} :
    watching d (handshakeMoves our duct wid identity app inbound) = [] := by
  refine watching_nil fun m hm _ => ?_
  simp only [handshakeMoves, dealAs, List.mem_cons, List.not_mem_nil, or_false] at hm
  rcases hm with rfl | rfl <;> exact hd.symm

/-- A handshake opens the watch of its connection and leaves the others. -/
theorem leaves_handshake (h : Based a)
    (ht : socketTurn text our a (.handshake now duct eny action wid secure address request) = some b) :
    (∀ c ∈ a.shakes, a.Alive c → b.Alive c) ∧ ∀ c ∈ b.shakes, watching c.duct (a.news b) =
      if c ∉ a.shakes then [c.watch our] else if a.Alive c ∧ ¬ b.Alive c then [c.leave our] else [] := by
  obtain ⟨hw, hd, ⟨app, o, som, s', -, -, -, -, hsom, rfl⟩ | rfl⟩ := turn_handshake ht
  · have hsome : ∀ m ∈ som, m.isWatching = false := fun m hm => by
      obtain ⟨wire, date, hc⟩ := hsom m hm
      unfold Move.isWatching
      rw [hc]
    have hlives : ∀ c ∈ a.shakes, a.Alive c →
        ((a.give (som ++ handshakeMoves our duct wid o.identity app o.inboundRequest, s')).shake
          ⟨wid, duct, app, o.identity, request.url, false⟩).Alive c := by
      intro c _ halive
      obtain ⟨c', hc', hcd⟩ := alive_iff.mp halive
      refine alive_iff.mpr ⟨c', ?_, hcd⟩
      rw [shake_life, if_neg]
      · exact hc'
      · intro he
        have hin := (h.sane.wid hc').2
        rw [he] at hin
        exact hw hin
    refine ⟨hlives, fun c hc => ?_⟩
    rw [news_of_log (a := a) rfl, watching_append, watching_nil fun m hm hc => absurd
      ((hsome m hm).symm.trans hc) Bool.false_ne_true,
      List.nil_append]
    rcases List.mem_cons.mp hc with rfl | hin
    · rw [watching_handshakeMoves]
      exact (if_pos fun hin => hd (List.mem_map_of_mem hin)).symm
    · have hne : c.duct ≠ duct := fun he => hd (he ▸ List.mem_map_of_mem hin)
      rw [watching_handshakeMoves_of_ne hne]
      exact ((if_neg (not_not_intro hin)).trans (if_neg fun hb => hb.2 (hlives c hin hb.1))).symm
  · refine ⟨fun _ _ halive => halive, fun c hc => ?_⟩
    rw [news_of_log (a := b) (List.append_nil _).symm, if_neg (not_not_intro hc), if_neg fun hb => hb.2 hb.1]
    rfl

/-- What a client's end does, where eyre has the connection. -/
theorem wsEvent_disconnect {o : OutstandingConnection} {app : String}
    (ho : s.connections.lookup duct = some o) (happ : o.action = .app app) :
    wsEvent our duct wid .disconnect s = match stap o.inboundRequest.request.url with
      | none => ([], s)
      | some _ => ([dealAs our duct (.wsWatchResponse wid) o.identity our app .leave],
          { s with connections := s.connections.erase duct }) := by
  unfold wsEvent
  cases hst : stap o.inboundRequest.request.url <;> simp [ho, happ, hst]

/-- A client's end of a connection leaves the others alive. -/
theorem disconnect_others (ht : socketTurn text our a (.client duct wid .disconnect) = some b) {c : Conn}
    (hd : c.duct ≠ duct)
    (halive : a.Alive c) : b.Alive c := by
  obtain ⟨-, -, -, -, -, hlife⟩ := turn_client ht
  obtain ⟨c', hc', hcd⟩ := alive_iff.mp halive
  refine alive_iff.mpr ⟨c', ?_, hcd⟩
  rw [hlife, if_neg]
  · exact hc'
  · rintro ⟨hw, -, hat⟩
    obtain ⟨x, hx⟩ := Option.isSome_iff_exists.mp hat
    obtain ⟨hx1, hx2⟩ := at_some.mp hx
    obtain rfl := Option.some.inj (hx1.symm.trans (hw ▸ hc'))
    exact hd (hcd.symm.trans hx2)

/-- **A client's end leaves the watch of its connection** if and only if eyre has the connection
and its url is a static path. -/
theorem leaves_disconnect (h : Based a) (habs : Absent a)
    (ht : socketTurn text our a (.client duct wid .disconnect) = some b) :
    (∀ c ∈ b.shakes, watching c.duct (a.news b) =
      if c ∉ a.shakes then [c.watch our] else if a.Alive c ∧ ¬ b.Alive c then [c.leave our] else []) ↔
      Parts a (.client duct wid .disconnect) := by
  obtain ⟨⟨c1, hc1, rfl, rfl⟩, hlog, -, hshakes, -, hlife⟩ := turn_client ht
  rw [news_of_log hlog, hshakes]
  have hcases : wsEvent our c1.duct c1.wid .disconnect a.state = ([], a.state) ∧
        (c1.duct ∉ a.state.connections ∨ stap c1.url = none) ∨
      (wsEvent our c1.duct c1.wid .disconnect a.state).1 = [c1.leave our] ∧ c1.duct ∈ a.state.connections ∧
        (stap c1.url).isSome := by
    cases ho : a.state.connections.lookup c1.duct with
    | none =>
      refine .inl ⟨?_, .inl (AList.lookup_eq_none.mp ho)⟩
      unfold wsEvent
      rw [ho]
    | some o =>
      obtain ⟨happ, hid, hurl⟩ := h.there hc1 ho
      rw [wsEvent_disconnect ho happ, hurl, hid]
      cases stap c1.url with
      | none => exact .inl ⟨rfl, .inr rfl⟩
      | some path => exact .inr ⟨rfl, AList.lookup_isSome.mp (Option.isSome_iff_exists.mpr ⟨o, ho⟩), rfl⟩
  have hrest : ∀ c ∈ a.shakes, c ≠ c1 →
      (watching c.duct (wsEvent our c1.duct c1.wid .disconnect a.state).1 =
        if c ∉ a.shakes then [c.watch our] else if a.Alive c ∧ ¬ b.Alive c then [c.leave our] else []) := by
    intro c hc hne
    have hd : c.duct ≠ c1.duct := fun he => hne (h.eq_of_duct hc hc1 he)
    rw [if_neg (not_not_intro hc), if_neg fun hb => hb.2 (disconnect_others ht hd hb.1)]
    rcases hcases with ⟨hnil, -⟩ | ⟨hone, -⟩
    · rw [hnil]
      rfl
    · rw [hone]
      refine watching_nil fun m hm _ he => hd ?_
      obtain rfl := List.mem_singleton.mp hm
      exact he.symm
  have hsplit : ∀ {P : Conn → Prop}, (∀ c ∈ a.shakes, c ≠ c1 → P c) → ((∀ c ∈ a.shakes, P c) ↔ P c1) := by
    intro P hP
    refine ⟨fun hall => hall c1 hc1, fun hone c hc => ?_⟩
    by_cases he : c = c1
    · exact he ▸ hone
    · exact hP c hc he
  refine (hsplit hrest).trans ?_
  rw [if_neg (not_not_intro hc1)]
  by_cases halive : a.Alive c1
  · have hdead : ¬ b.Alive c1 := fun hb => by
      obtain ⟨c', hc', -⟩ := alive_iff.mp hb
      rw [hlife, if_pos ⟨rfl, rfl, halive⟩] at hc'
      exact Option.some_ne_none _ hc'.symm
    have hurl : ∀ c, a.at c1.duct c1.wid = some c → c.url = c1.url := by
      intro c hat
      obtain ⟨hc, hd⟩ := at_some.mp hat
      have he : { c with accepted := false } = c1 := h.eq_of_duct (h.known hc) hc1 hd
      rw [← he]
    rw [if_pos ⟨halive, hdead⟩]
    rcases hcases with ⟨hnil, hout⟩ | ⟨hone, hin, hst⟩
    · rw [hnil]
      refine iff_of_false (fun he => List.cons_ne_nil _ _ he.symm) fun hp => ?_
      obtain ⟨c, hat⟩ := Option.isSome_iff_exists.mp halive
      obtain ⟨hst, hin⟩ := hp c hat
      rcases hout with hout | hnone
      · exact hout hin
      · rw [hurl c hat, hnone] at hst
        exact Bool.false_ne_true hst
    · rw [hone]
      refine iff_of_true (List.filter_cons_of_pos (decide_eq_true ⟨rfl, rfl⟩)) fun c hat =>
        ⟨(hurl c hat).symm ▸ hst, hin⟩
  · have hat : ∀ c, a.at c1.duct c1.wid ≠ some c := fun c hat => halive (Option.isSome_iff_exists.mpr ⟨c, hat⟩)
    rw [if_neg fun hb => halive hb.1]
    refine iff_of_true ?_ fun c h => absurd h (hat c)
    rcases hcases with ⟨hnil, -⟩ | ⟨-, hin, -⟩
    · rw [hnil]
      rfl
    · exact absurd hin (habs c1 hc1 halive)

theorem leaves_iff (h : Based a) (habs : Absent a) (ht : socketTurn text our a e = some b) :
    Leaves text our a e ↔ Parts a e := by
  have hone : Leaves text our a e ↔ ∀ c ∈ b.shakes, watching c.duct (a.news b) =
      if c ∉ a.shakes then [c.watch our] else if a.Alive c ∧ ¬ b.Alive c then [c.leave our] else [] := by
    refine ⟨fun hl => hl b ht, fun hl b' hb' => ?_⟩
    obtain rfl := Option.some.inj (ht.symm.trans hb')
    exact hl
  rw [hone]
  by_cases hshake : ∃ now duct eny action wid secure address request,
    e = .handshake now duct eny action wid secure address request
  · obtain ⟨now, duct, eny, action, wid, secure, address, request, rfl⟩ := hshake
    exact iff_of_true (leaves_handshake h ht).2 trivial
  by_cases hend : ∃ duct wid, e = .client duct wid .disconnect
  · obtain ⟨duct, wid, rfl⟩ := hend
    exact leaves_disconnect h habs ht
  · have hno := fun now duct eny action wid secure address request he => hshake ⟨now, duct, eny, action, wid,
      secure, address, request, he⟩
    have hnoend := fun duct wid he => hend ⟨duct, wid, he⟩
    have hstrays : ∃ D, Strays our a.state D (a.news b) ∧ ∀ c ∈ a.shakes, D c.duct →
      ¬ b.Alive c := turn_strays h ht hno hnoend
    obtain ⟨D, hs, hD⟩ := hstrays
    exact (leaves_iff_survive habs hs (turn_shrinks ht hno).1 hD).trans (survive_turn h ht hno hnoend)

/-- Eyre has no connection of a websocket that has ended, where each end is a client's that it can read. -/
theorem Absent.turn (h : Based a) (habs : Absent a) (hp : Parts a e) (ht : socketTurn text our a e = some b) :
    Absent b := by
  by_cases hshake : ∃ now duct eny action wid secure address request,
    e = .handshake now duct eny action wid secure address request
  · obtain ⟨now, duct, eny, action, wid, secure, address, request, rfl⟩ := hshake
    have hlives := (leaves_handshake h ht).1
    obtain ⟨-, hd, ⟨app, o, som, s', -, -, -, hconn, -, rfl⟩ | rfl⟩ := turn_handshake ht
    · intro c hc hdead hin
      rcases List.mem_cons.mp hc with rfl | hc
      · exact hdead (alive_iff.mpr ⟨_, (shake_life _ _).trans (if_pos rfl), rfl⟩)
      · have hin : c.duct ∈ a.state.connections.insert duct o := hconn ▸ hin
        rcases (AList.mem_insert _).mp hin with he | hin
        · exact hd (he ▸ List.mem_map_of_mem hc)
        · exact habs c hc (fun halive => hdead (hlives c hc halive)) hin
    · exact habs
  have hno := fun now duct eny action wid secure address request he => hshake ⟨now, duct, eny, action, wid, secure,
    address, request, he⟩
  obtain ⟨hshakes, hlookup⟩ := turn_shrinks ht hno
  intro c hc hdead hin
  rw [hshakes] at hc
  obtain ⟨o, ho⟩ := Option.isSome_iff_exists.mp (AList.lookup_isSome.mpr hin)
  have hwas :
    c.duct ∈ a.state.connections := AList.lookup_isSome.mp (Option.isSome_iff_exists.mpr ⟨o, hlookup c hc o ho⟩)
  by_cases halive : a.Alive c
  · by_cases hend : ∃ duct wid, e = .client duct wid .disconnect
    · obtain ⟨duct, wid, rfl⟩ := hend
      obtain ⟨⟨c1, hc1, rfl, rfl⟩, -, hstate, -⟩ := turn_client ht
      have hd : c.duct = c1.duct := by
        by_contra hne
        exact hdead (disconnect_others ht hne halive)
      obtain rfl := h.eq_of_duct hc hc1 hd
      obtain ⟨c', hat⟩ := Option.isSome_iff_exists.mp halive
      obtain ⟨happ, -, hurl⟩ := h.there hc (hlookup c hc o ho)
      obtain ⟨hst, -⟩ := hp c' hat
      obtain ⟨hc', hd'⟩ := at_some.mp hat
      have he : { c' with accepted := false } = c := h.eq_of_duct (h.known hc') hc hd'
      obtain ⟨path, hpath⟩ := Option.isSome_iff_exists.mp hst
      rw [hstate, wsEvent_disconnect (hlookup c hc o ho) happ, hurl, ← congrArg Conn.url he, hpath] at hin
      exact absurd hin fun hin => (AList.mem_erase.mp hin).1 rfl
    · exact hdead ((survive_turn h ht hno fun duct wid he => hend ⟨duct, wid, he⟩).mpr hp c hc halive)
  · exact habs c hc halive hwas

/-- **The watches of a run** are each left once, on the wire that they were opened on and by the
event that ends their connection, if and only if each connection that ends does so by its client,
while eyre has it, and has a static path as its url. -/
theorem watches_of_run {es : List SocketTask} (h : Replay.follow (socketTurn text our) .start es = some b) :
    Replay.Along (socketTurn text our) (Leaves text our) .start es ↔ Replay.Along
      (socketTurn text our) Parts .start es := by
  have habs : Absent SocketSys.start := fun c hc => absurd hc List.not_mem_nil
  refine (Replay.Along.congr_of (fun a => Based a ∧ Absent a) ?_ ?_ ⟨based_start, habs⟩ h).symm
  · rintro a e b ⟨ha, ho⟩ hp ht
    exact ⟨ha.turn ht, ho.turn ha hp ht⟩
  · rintro a e b ⟨ha, ho⟩ ht
    exact (leaves_iff ha ho ht).symm

theorem clientEnds_leaves : ∃ b, Replay.follow (socketTurn guestText 1) .start clientEnds = some b ∧
    Replay.Along (socketTurn guestText 1) (Leaves guestText 1) .start clientEnds := by
  have h : Replay.follow (socketTurn guestText 1) .start clientEnds = some _ := rfl
  refine
    ⟨_, h, (watches_of_run h).mpr ⟨trivial, fun b hb => ⟨trivial, fun b' hb' => ⟨fun c hc => ?_, fun _ _ => trivial⟩⟩⟩⟩
  obtain rfl := Option.some.inj hb
  obtain rfl := Option.some.inj hb'
  obtain rfl := Option.some.inj hc
  exact ⟨by decide, AList.lookup_isSome.mp rfl⟩

/-- No watch is left when the agent ends the connection. -/
theorem agentEnds_watched : ∃ b, Replay.follow (socketTurn guestText 1) .start agentEnds = some b ∧
    ¬ Replay.Along (socketTurn guestText 1) (Leaves guestText 1) .start agentEnds := by
  have h : Replay.follow (socketTurn guestText 1) .start agentEnds = some _ := rfl
  refine ⟨_, h, fun hp => ?_⟩
  have hend := (((hp.2 _ rfl).2 _ rfl).2 _ rfl).1 _ rfl ⟨7, 3, "chat", .fake 9, "/chat", false⟩
  exact absurd (hend (by decide)) (by decide)

end Eyre
end Ursockets
