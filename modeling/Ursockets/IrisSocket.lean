/-
# How iris's websockets end

A websocket is named by the duct of the runtime that it was asked of and by its id, as ids are
given anew after a restart. It ends when the other side rejects or disconnects it, when its agent
does or kicks iris, or when its agent cancels it. Which websockets were
asked for and have ended, whose the entry of an id is, and which watches are open, is kept
beside the vane's state. Each runtime has a duct of its own and tells of the websockets that it
was asked for; signs come on watches that were opened.

Key definitions: `Sys`, `Sys.step`, `Gone`, `Silent`, `Kept`.
Key theorem: `ended_of_run`.
-/
import Ursockets.Iris
import Mathlib.Logic.Function.Basic

namespace Ursockets
namespace Iris

open Eyre (Duct WebsocketEvent WebsocketMessage HttpEvent Request ResponseHeader Octs)

/-! ### The system -/

/-- A websocket: the duct of its runtime and its id. -/
abbrev Sock := Option Duct × ℕ

/-- The vane's state, the ducts of the runtimes so far, the websockets that were asked for, the runtimes
of those that the ids name now, the websockets that have ended, the open watches with their agents, and
the watches that were ever opened. -/
structure Sys where
  state : State
  ducts : List Duct
  given : List Sock
  owner : ℕ → Option Duct
  ended : List Sock
  watches : List (Duct × ℕ × String)
  opened : List (Duct × ℕ)

def Sys.start : Sys := ⟨.new, [], [], fun _ => none, [], [], []⟩

/-- The watches after a move. -/
def watchMove (ws : List (Duct × ℕ × String)) : Move → List (Duct × ℕ × String)
  | ⟨some duct, .deal (.wsWatch wid) app (.watch _)⟩ => (duct, wid, app) :: ws
  | ⟨some duct, .deal (.wsWatch wid) app .leave⟩ => ws.filter fun x => x ≠ (duct, wid, app)
  | _ => ws

/-- The watches that moves open. -/
def opens : Move → Option (Duct × ℕ)
  | ⟨some duct, .deal (.wsWatch wid) _ (.watch _)⟩ => some (duct, wid)
  | _ => none

/-- What the runtime and the agents may do. -/
def Sys.Allowed (a : Sys) : Event → Prop
  | .call duct .born => duct ∉ a.ducts
  | .call duct (.websocketEvent wid _) => a.state.outboundDuct = some duct ∧ (some duct, wid) ∈ a.given
  | .take duct wid _ => (duct, wid) ∈ a.opened
  | _ => True

instance (a : Sys) : DecidablePred a.Allowed := fun e => by
  unfold Sys.Allowed
  split <;> infer_instance

/-- The websocket that an event asks for. -/
def Sys.asks (a : Sys) : Event → Option Sock
  | .call duct (.websocketConnect _ _) =>
    if duct ∈ a.state.connectionByDuct then none else some (a.state.outboundDuct, a.state.nextId)
  | _ => none

/-- The websocket that an event ends. -/
def Sys.endsBy (a : Sys) : Event → Option Sock
  | .call duct (.websocketEvent wid .reject) => some (some duct, wid)
  | .call duct (.websocketEvent wid .disconnect) => some (some duct, wid)
  | .call _ (.cancelWebsocket wid) => if wid ∈ a.state.sockets then some (a.owner wid, wid) else none
  | .take duct wid .kick => some (some duct, wid)
  | .take duct wid .disconnect => some (some duct, wid)
  | _ => none

/-- A kick closes its watch. -/
def Sys.kicked (a : Sys) : Event → List (Duct × ℕ × String)
  | .take duct wid .kick => a.watches.filter fun x => (x.1, x.2.1) ≠ (duct, wid)
  | _ => a.watches

/-- The ducts of the runtimes. -/
def Sys.births (a : Sys) : Event → List Duct
  | .call duct .born => duct :: a.ducts
  | _ => a.ducts

/-- The state after an event, of what the vane does. -/
def Sys.after (a : Sys) (e : Event) (r : List Move × State) : Sys where
  state := r.2
  ducts := a.births e
  given := (a.asks e).toList ++ a.given
  owner := (a.asks e).elim a.owner fun x => Function.update a.owner x.2 x.1
  ended := (a.endsBy e).toList ++ a.ended
  watches := r.1.foldl watchMove (a.kicked e)
  opened := r.1.filterMap opens ++ a.opened

/-- An event. -/
def Sys.step (a : Sys) (e : Event) : Option Sys :=
  if a.Allowed e then
    (turn a.state e).map fun r => a.after e r
  else none

/-! ### What is claimed of the websockets that have ended -/

/-- The entry of an id is this websocket's. -/
def Sys.Holds (a : Sys) (x : Sock) : Prop := x.2 ∈ a.state.sockets ∧ a.owner x.2 = x.1

/-- No websocket that has ended is in the map of sockets, and none is watched. -/
def Gone (a : Sys) : Prop :=
  ∀ x ∈ a.ended, ¬ a.Holds x ∧ ∀ duct app, x.1 = some duct → (duct, x.2, app) ∉ a.watches

/-- Nothing that comes now for a websocket that has ended reaches an agent. -/
def Silent (a : Sys) : Prop :=
  ∀ duct wid event, (some duct, wid) ∈ a.ended → a.Allowed (.call duct (.websocketEvent wid event)) →
    ∀ m ∈ (wsEvent duct wid event a.state).1, ∀ wire app task, m.card ≠ .deal wire app task

/-- What the ends are like that iris carries out: no agent kicks or disconnects a websocket that is in
the map, or disconnects one whose watch is open unless the id names a websocket of the same
agent's; and none is cancelled that is watched. -/
def Kept (a : Sys) : Event → Prop
  | .take duct wid .kick => ¬ a.Holds (some duct, wid)
  | .take duct wid .disconnect =>
    ¬ a.Holds (some duct, wid) ∧ ∀ app, (duct, wid, app) ∈ a.watches →
      ∃ con, a.state.sockets.lookup wid = some con ∧ con.app = app
  | .call _ (.cancelWebsocket wid) =>
    wid ∈ a.state.sockets → ∀ duct app, a.owner wid = some duct → (duct, wid, app) ∉ a.watches
  | _ => True

/-! ### What is always so -/

/-- What every event keeps. -/
structure Sane (a : Sys) : Prop where
  out : ∀ {duct}, a.state.outboundDuct = some duct → duct ∈ a.ducts
  ducts : ∀ {duct wid}, (some duct, wid) ∈ a.given → duct ∈ a.ducts
  below : ∀ {wid}, (a.state.outboundDuct, wid) ∈ a.given → wid < a.state.nextId
  ours : ∀ {wid}, (a.state.outboundDuct, wid) ∈ a.given → wid ∈ a.state.sockets →
    a.owner wid = a.state.outboundDuct
  there : ∀ {wid}, (a.state.outboundDuct, wid) ∈ a.given → wid ∈ a.state.sockets ∨ (a.state.outboundDuct, wid) ∈ a.ended
  owned : ∀ {wid}, wid ∈ a.state.sockets → (a.owner wid, wid) ∈ a.given
  ended : ∀ {x}, x ∈ a.ended → x ∈ a.given
  opened : ∀ {duct wid}, (duct, wid) ∈ a.opened → (some duct, wid) ∈ a.given
  watched : ∀ {duct wid app}, (duct, wid, app) ∈ a.watches → (some duct, wid) ∈ a.given
  led : ∀ {duct wid app con}, (duct, wid, app) ∈ a.watches → a.state.sockets.lookup wid = some con →
    a.owner wid = some duct → con.app = app

theorem sane_start : Sane .start where
  out := fun h => absurd h.symm (Option.some_ne_none _)
  ducts := fun h => absurd h List.not_mem_nil
  below := fun h => absurd h List.not_mem_nil
  ours := fun h => absurd h List.not_mem_nil
  there := fun h => absurd h List.not_mem_nil
  owned := fun h => absurd h (AList.notMem_empty _)
  ended := fun h => absurd h List.not_mem_nil
  opened := fun h => absurd h List.not_mem_nil
  watched := fun h => absurd h List.not_mem_nil
  led := fun h => absurd h List.not_mem_nil

variable {a b : Sys} {e : Event} {s s' : State} {duct : Duct} {wid id : ℕ} {moves : List Move} {data : Option Octs}
  {complete : Bool}

/-! ### Watches -/

/-- Moves that open no watch. -/
def Unopened (moves : List Move) : Prop := ∀ m ∈ moves, opens m = none

theorem opens_undealt {m : Move} (h : ∀ wire app task, m.card ≠ .deal wire app task) : opens m = none := by
  obtain ⟨d, card⟩ := m
  cases card with
  | deal wire app task => exact absurd rfl (h wire app task)
  | _ =>
    cases d with
    | none => rfl
    | some d => rfl

theorem watchMove_undealt {m : Move} (h : ∀ wire app task, m.card ≠ .deal wire app task)
    (ws : List (Duct × ℕ × String)) :
    watchMove ws m = ws := by
  obtain ⟨d, card⟩ := m
  cases card with
  | deal wire app task => exact absurd rfl (h wire app task)
  | _ =>
    cases d with
    | none => rfl
    | some d => rfl

theorem watchMove_response (d : Option Duct) (w : ℕ) (event : WebsocketEvent) (ws : List (Duct × ℕ × String)) :
    watchMove ws ⟨d, .websocketResponse w event⟩ = ws :=
  watchMove_undealt (m := ⟨d, .websocketResponse w event⟩) (fun _ _ _ h => nomatch h) ws

theorem opens_leave (duct : Duct) (wid : ℕ) (app : String) : opens (leaveAgent duct wid app) = none := rfl

theorem unopened_nil : Unopened [] := fun _ hm => absurd hm List.not_mem_nil

theorem unopened_one {m : Move} (h : opens m = none) : Unopened [m] := fun _ hm => List.mem_singleton.mp hm ▸ h

theorem unopened_cons {m : Move} (h : opens m = none) (hms : Unopened moves) : Unopened (m :: moves) :=
  List.forall_mem_cons.mpr ⟨h, hms⟩

/-- A move that opens no watch leaves no more open. -/
theorem watchMove_subset {m : Move} (h : opens m = none) (ws : List (Duct × ℕ × String)) : watchMove ws m ⊆ ws := by
  unfold watchMove
  split
  · exact absurd h (Option.some_ne_none _)
  · exact List.filter_subset_self _
  · exact List.Subset.refl ws

theorem Unopened.watches (h : Unopened moves) (ws : List (Duct × ℕ × String)) :
    moves.foldl watchMove ws ⊆ ws ∧ moves.filterMap opens = [] := by
  induction moves generalizing ws with
  | nil => exact ⟨List.Subset.refl ws, rfl⟩
  | cons m ms ih =>
    obtain ⟨hm, hms⟩ := List.forall_mem_cons.mp h
    obtain ⟨h1, h2⟩ := ih hms (watchMove ws m)
    exact ⟨List.Subset.trans h1 (watchMove_subset hm ws), by rw [List.filterMap_cons_none hm, h2]⟩

theorem unopened_cleanupWs : Unopened (cleanupWs duct wid s).1 := by
  unfold cleanupWs
  split
  · exact unopened_nil
  · exact unopened_one (opens_leave _ _ _)

/-- What is still watched of a websocket once it has been cleaned up: what its entry's agent is not. -/
theorem mem_watches_cleanup {ws : List (Duct × ℕ × String)} {app : String} :
    (duct, wid, app) ∈ (cleanupWs duct wid s).1.foldl watchMove ws ↔
      (duct, wid, app) ∈ ws ∧ ∀ con, s.sockets.lookup wid = some con → con.app ≠ app := by
  unfold cleanupWs
  cases hl : s.sockets.lookup wid with
  | none => exact (and_iff_left fun _ h => absurd h.symm (Option.some_ne_none _)).symm
  | some con =>
    refine List.mem_filter.trans (and_congr_right fun _ => decide_eq_true_iff.trans ?_)
    constructor
    · rintro hne con' hcon' rfl
      exact hne (Option.some.inj hcon' ▸ rfl)
    · intro hne he
      exact hne con rfl (Prod.mk.inj (Prod.mk.inj he).2).2.symm

theorem dispatch_unopened (h : dispatch id data complete s = some (moves, s')) : Unopened moves := by
  unfold dispatch at h
  split at h
  · unfold sendFinished at h
    simp only [Option.bind_eq_bind, Option.bind_eq_some_iff, Option.some.injEq, Prod.mk.injEq] at h
    obtain ⟨-, -, -, -, rfl, -⟩ := h
    exact unopened_one (opens_undealt fun _ _ _ h => nomatch h)
  · unfold recordAndSendProgress at h
    simp only [Option.bind_eq_bind, Option.bind_eq_some_iff, Option.some.injEq, Prod.mk.injEq] at h
    obtain ⟨-, -, -, -, rfl, -⟩ := h
    exact unopened_one (opens_undealt fun _ _ _ h => nomatch h)

theorem receive_unopened {event : HttpEvent} (h : receive id event s = some (moves, s')) : Unopened moves := by
  unfold receive at h
  split at h
  · obtain ⟨rfl, -⟩ := Prod.mk.inj (Option.some.inj h)
    exact unopened_nil
  · split at h
    · dsimp only at h
      split at h
      · unfold handleRedirect at h
        split at h
        · exact dispatch_unopened h
        · split at h
          · exact dispatch_unopened h
          · obtain ⟨rfl, -⟩ := Prod.mk.inj (Option.some.inj h)
            exact unopened_one (opens_undealt fun _ _ _ h => nomatch h)
      · exact dispatch_unopened h
    · exact dispatch_unopened h
    · obtain ⟨rfl, -⟩ := Prod.mk.inj (Option.some.inj h)
      exact unopened_one (opens_undealt fun _ _ _ h => nomatch h)

/-! ### Requests do not touch websockets -/

/-- What a step that is not of the websockets does. -/
structure Aside (s s' : State) (moves : List Move) : Prop where
  sockets : s'.sockets = s.sockets
  outboundDuct : s'.outboundDuct = s.outboundDuct
  nextId : s.nextId ≤ s'.nextId
  unopened : Unopened moves

theorem cleanupConnection_outbound (id : ℕ) (s : State) : (cleanupConnection id s).outboundDuct = s.outboundDuct := by
  unfold cleanupConnection
  split
  · rfl
  · rfl

theorem request_aside (duct : Duct) (req : Request) (config : OutboundConfig) (s : State) :
    Aside s (request duct req config s).2 (request duct req config s).1 := by
  unfold request
  split
  · exact ⟨rfl, rfl, le_refl _, unopened_nil⟩
  · dsimp only
    split
    · exact ⟨rfl, rfl, Nat.le_succ _, unopened_nil⟩
    · exact ⟨rfl, rfl, Nat.le_succ _, unopened_one (opens_undealt fun _ _ _ h => nomatch h)⟩

theorem cancel_aside (duct : Duct) (s : State) : Aside s (cancel duct s).2 (cancel duct s).1 := by
  unfold cancel
  split
  · exact ⟨rfl, rfl, le_refl _, unopened_nil⟩
  · rename_i id _
    obtain ⟨h1, h2⟩ := cleanupConnection_spec id s
    refine ⟨h1, cleanupConnection_outbound id s, h2.ge, ?_⟩
    dsimp only
    split
    · exact unopened_nil
    · exact unopened_one (opens_undealt fun _ _ _ h => nomatch h)

theorem receive_aside {event : HttpEvent} (h : receive id event s = some (moves, s')) : Aside s s' moves := by
  obtain ⟨s₁, hn, hs⟩ := receive_received h
  obtain ⟨hsock, hnext⟩ := (receive_received h).spec
  refine ⟨hsock, ?_, hnext.ge, receive_unopened h⟩
  rcases hs with rfl | rfl
  · exact hn.outboundDuct
  · exact (cleanupConnection_outbound id s₁).trans hn.outboundDuct

/-! ### One event -/

/-- Websockets may go but do not come, and no more of them are watched. -/
structure Fewer (a b : Sys) : Prop where
  sockets : ∀ {w con}, b.state.sockets.lookup w = some con →
    ∃ con', a.state.sockets.lookup w = some con' ∧ con'.app = con.app
  outboundDuct : b.state.outboundDuct = a.state.outboundDuct
  nextId : a.state.nextId ≤ b.state.nextId
  ducts : b.ducts = a.ducts
  given : b.given = a.given
  owner : b.owner = a.owner
  watches : b.watches ⊆ a.watches
  opened : b.opened = a.opened

theorem Fewer.mem (h : Fewer a b) {w : ℕ} (hw : w ∈ b.state.sockets) : w ∈ a.state.sockets := by
  obtain ⟨con, hcon⟩ := Option.isSome_iff_exists.mp (AList.lookup_isSome.mpr hw)
  obtain ⟨con', hcon', -⟩ := h.sockets hcon
  exact AList.lookup_isSome.mp (by rw [hcon']; rfl)

theorem Fewer.holds (h : Fewer a b) {x : Sock} (hx : b.Holds x) : a.Holds x :=
  ⟨h.mem hx.1, (congrFun h.owner x.2).symm.trans hx.2⟩

/-- The websockets that go have ended. -/
theorem Sane.fewer (h : Sane a) (hf : Fewer a b)
    (hgone : ∀ w, w ∈ a.state.sockets → w ∉ b.state.sockets → (a.state.outboundDuct, w) ∈ a.given →
      (a.state.outboundDuct, w) ∈ b.ended)
    (hold : a.ended ⊆ b.ended) (hnew : b.ended ⊆ a.given) : Sane b where
  out := fun hd => by
    rw [hf.ducts]
    exact h.out (hf.outboundDuct.symm.trans hd)
  ducts := fun hx => by
    rw [hf.ducts]
    exact h.ducts (hf.given ▸ hx)
  below := fun hx => by
    rw [hf.outboundDuct, hf.given] at hx
    exact lt_of_lt_of_le (h.below hx) hf.nextId
  ours := fun hx hw => by
    rw [hf.outboundDuct, hf.given] at hx
    rw [hf.outboundDuct, hf.owner]
    exact h.ours hx (hf.mem hw)
  there := @fun w hx => by
    rw [hf.outboundDuct, hf.given] at hx
    rw [hf.outboundDuct]
    by_cases hw : w ∈ b.state.sockets
    · exact .inl hw
    · exact .inr ((h.there hx).elim (fun hin => hgone w hin hw hx) fun he => hold he)
  owned := fun hw => by
    rw [hf.owner, hf.given]
    exact h.owned (hf.mem hw)
  ended := fun hx => hf.given ▸ hnew hx
  opened := fun hx => by
    rw [hf.given]
    exact h.opened (hf.opened ▸ hx)
  watched := fun hx => by
    rw [hf.given]
    exact h.watched (hf.watches hx)
  led := fun hx hl ho => by
    obtain ⟨con', hcon', happ⟩ := hf.sockets hl
    exact happ.symm.trans (h.led (hf.watches hx) hcon' ((congrFun hf.owner _).symm.trans ho))

/-- Those that ended before are still gone. -/
theorem Gone.fewer (hg : Gone a) (hf : Fewer a b) {x : Sock} (hx : x ∈ a.ended) :
    ¬ b.Holds x ∧ ∀ duct app, x.1 = some duct → (duct, x.2, app) ∉ b.watches :=
  ⟨fun hh => (hg x hx).1 (hf.holds hh), fun d app hd hw => (hg x hx).2 d app hd (hf.watches hw)⟩

/-- With one more websocket ended, what is claimed is claimed of it. -/
theorem Gone.cons_iff (hg : Gone a) (hf : Fewer a b) {x : Sock} (hend : b.ended = x :: a.ended) :
    Gone b ↔ ¬ b.Holds x ∧ ∀ duct app, x.1 = some duct → (duct, x.2, app) ∉ b.watches := by
  unfold Gone
  rw [hend]
  refine ⟨fun h => h x List.mem_cons_self, fun h y hy => ?_⟩
  rcases List.mem_cons.mp hy with rfl | hy
  · exact h
  · exact hg.fewer hf hy

theorem Gone.same (hg : Gone a) (hf : Fewer a b) (hend : b.ended = a.ended) :
    Gone b := fun _ hx => hg.fewer hf (hend ▸ hx)

/-- The effect of moves that open no watch, where the websockets and what is kept beside them stay. -/
theorem fewer_of (a : Sys) (s' : State)
    (hs : ∀ w con, s'.sockets.lookup w = some con → ∃ con', a.state.sockets.lookup w = some con' ∧ con'.app = con.app)
    (ho : s'.outboundDuct = a.state.outboundDuct) (hn : a.state.nextId ≤ s'.nextId) {ws : List (Duct × ℕ × String)}
    (hws : ws ⊆ a.watches) (hm : Unopened moves) (ended : List Sock) :
    Fewer a ⟨s', a.ducts, a.given, a.owner, ended, moves.foldl watchMove ws, moves.filterMap opens ++ a.opened⟩ where
  sockets := fun hl => hs _ _ hl
  outboundDuct := ho
  nextId := hn
  ducts := rfl
  given := rfl
  owner := rfl
  watches := List.Subset.trans (hm.watches ws).1 hws
  opened := by rw [(hm.watches ws).2, List.nil_append]

theorem lookup_same {s : State} (w : ℕ) (con : WebsocketConnection) (h : s.sockets.lookup w = some con) :
    ∃ con', s.sockets.lookup w = some con' ∧ con'.app = con.app := ⟨con, h, rfl⟩

/-- What is claimed of an event. -/
def Good (a : Sys) (e : Event) (b : Sys) : Prop := Sane b ∧ (Gone a → (Gone b ↔ Kept a e))

/-- An event where no websocket comes or ends. -/
theorem good_same (h : Sane a) (hf : Fewer a b) (hlook : ∀ w, w ∈ a.state.sockets → w ∈ b.state.sockets)
    (hend : b.ended = a.ended) (hk : Kept a e) : Good a e b := by
  refine ⟨h.fewer hf (fun w hw hno => absurd (hlook w hw) hno) ?_ ?_, fun hg => iff_of_true (hg.same hf hend) hk⟩
  · rw [hend]
    exact List.Subset.refl _
  · rw [hend]
    exact fun x hx => h.ended hx

/-- An event of a request's. -/
theorem good_aside (h : Sane a) {ms : List Move} (ha : Aside a.state s' ms) (hb : a.births e = a.ducts)
    (hq : a.asks e = none)
    (hend : a.endsBy e = none) (hk : a.kicked e = a.watches) (hkept : Kept a e) : Good a e (a.after e (ms, s')) := by
  have hf : Fewer a (a.after e (ms, s')) := by
    unfold Sys.after
    rw [hb, hq, hk]
    exact fewer_of a s' (fun w con hc => ⟨con, ha.sockets ▸ hc, rfl⟩) ha.outboundDuct ha.nextId
      (List.Subset.refl _) ha.unopened _
  have hended : (a.after e (ms, s')).ended = a.ended := by
    unfold Sys.after
    rw [hend]
    rfl
  refine good_same h hf (fun w hw => ?_) hended hkept
  show w ∈ s'.sockets
  rw [ha.sockets]
  exact hw

theorem good_born (h : Sane a) (hd : duct ∉ a.ducts) {r : List Move × State} (hr : call duct .born a.state = some r) :
    Good a (.call duct .born) (a.after (.call duct .born) r) := by
  obtain rfl := Option.some.inj hr
  have hmoves :
    Unopened (a.state.connectionByDuct.entries.map fun e => (⟨some e.1, .httpResponse .cancel⟩ : Move)) := by
    intro m hm
    obtain ⟨e, -, rfl⟩ := List.mem_map.mp hm
    rfl
  obtain ⟨hsub, hno⟩ := hmoves.watches a.watches
  have hnew : ∀ {w}, (some duct, w) ∉ a.given := fun hx => hd (h.ducts hx)
  refine
    ⟨?_, fun hg =>
      iff_of_true (fun x hx => ⟨fun hh => (hg x hx).1 hh, fun d app hxd hw => (hg x hx).2 d app hxd (hsub hw)⟩) trivial⟩
  refine ⟨fun ho => ?_, fun hx => List.mem_cons_of_mem _ (h.ducts hx), fun hx => absurd hx hnew,
    fun hx => absurd hx hnew,
    fun hx => absurd hx hnew, fun hw => h.owned hw, fun hx => h.ended hx, fun hx => ?_, fun hx => h.watched (hsub hx),
    fun hx hl ho => h.led (hsub hx) hl ho⟩
  · exact Option.some.inj ho ▸ List.mem_cons_self
  · refine h.opened ?_
    have hx' : _ ∈ _ ++ a.opened := hx
    rw [hno] at hx'
    exact hx'

theorem good_connect (h : Sane a) {app url : String} {r : List Move × State}
    (hr : call duct (.websocketConnect app url) a.state = some r) :
    Good a (.call duct (.websocketConnect app url)) (a.after (.call duct (.websocketConnect app url)) r) := by
  have hr' : wsConnect duct app url a.state = r := Option.some.inj hr
  unfold wsConnect at hr'
  have hasks : a.asks (.call duct (.websocketConnect app url)) =
      if duct ∈ a.state.connectionByDuct then none else some (a.state.outboundDuct, a.state.nextId) := rfl
  unfold Sys.after
  rw [hasks]
  by_cases hin : duct ∈ a.state.connectionByDuct
  · rw [if_pos hin] at hr' ⊢
    subst hr'
    exact good_same h (fewer_of a a.state lookup_same rfl (le_refl _) (List.Subset.refl _) unopened_nil _)
      (fun w hw => hw) rfl trivial
  · rw [if_neg hin] at hr' ⊢
    subst hr'
    have hfresh : (a.state.outboundDuct, a.state.nextId) ∉ a.given := fun hx => lt_irrefl _ (h.below hx)
    have hself : Function.update a.owner a.state.nextId a.state.outboundDuct a.state.nextId = a.state.outboundDuct :=
      Function.update_self _ _ _
    have hupd : ∀ {w : ℕ}, w ≠ a.state.nextId →
        Function.update a.owner a.state.nextId a.state.outboundDuct w = a.owner w := fun hw =>
          Function.update_of_ne hw _ _
    have hmoves : Unopened [⟨a.state.outboundDuct, .websocketHandshake a.state.nextId url⟩] :=
      unopened_one (opens_undealt fun _ _ _ h => nomatch h)
    obtain ⟨hsub, hopened⟩ := hmoves.watches a.watches
    have hnew : ∀ {w : ℕ}, w ∈ a.state.sockets.insert a.state.nextId ⟨app, duct, a.state.nextId, url, .pending⟩ →
        w ≠ a.state.nextId → w ∈ a.state.sockets := fun hw hne => ((AList.mem_insert _).mp hw).resolve_left hne
    refine ⟨⟨fun ho => h.out ho, fun hx => ?_, fun hx => ?_, @fun w hx hw => ?_, @fun w hx => ?_, @fun w hw => ?_,
      fun hx => List.mem_cons_of_mem _ (h.ended hx), fun hx => ?_, fun hx => List.mem_cons_of_mem _
        (h.watched (hsub hx)),
      @fun d w app' con hx hl ho => ?_⟩, fun hg => iff_of_true (fun x hx => ?_) trivial⟩
    · rcases List.mem_cons.mp hx with he | hx
      · exact h.out (Prod.mk.inj he).1.symm
      · exact h.ducts hx
    · rcases List.mem_cons.mp hx with he | hx
      · exact (Prod.mk.inj he).2 ▸ Nat.lt_succ_self _
      · exact Nat.lt_succ_of_lt (h.below hx)
    · by_cases hwn : w = a.state.nextId
      · rw [hwn]
        exact hself
      · refine (hupd hwn).trans (h.ours ?_ (hnew hw hwn))
        exact (List.mem_cons.mp hx).resolve_left fun he => hwn (Prod.mk.inj he).2
    · rcases List.mem_cons.mp hx with he | hx
      · exact .inl ((AList.mem_insert _).mpr (.inl (Prod.mk.inj he).2))
      · exact (h.there hx).imp (fun hw => (AList.mem_insert _).mpr (.inr hw)) id
    · by_cases hwn : w = a.state.nextId
      · subst hwn
        exact List.mem_cons.mpr (.inl (Prod.ext hself rfl))
      · refine List.mem_cons_of_mem _ ?_
        show (Function.update a.owner _ _ w, w) ∈ a.given
        rw [hupd hwn]
        exact h.owned (hnew hw hwn)
    · refine List.mem_cons_of_mem _ (h.opened ?_)
      have hx' : _ ∈ List.filterMap opens [_] ++ a.opened := hx
      rw [hopened] at hx'
      exact hx'
    · by_cases hwn : w = a.state.nextId
      · subst hwn
        exact absurd (hself.symm.trans ho ▸ h.watched (hsub hx)) hfresh
      · exact h.led (hsub hx) ((AList.lookup_insert_ne hwn).symm.trans hl) ((hupd hwn).symm.trans ho)
    · obtain ⟨hh, hw⟩ := hg x hx
      refine ⟨fun hb => ?_, fun d app' hd hin => hw d app' hd (hsub hin)⟩
      by_cases hxn : x.2 = a.state.nextId
      · have ho : Function.update a.owner a.state.nextId a.state.outboundDuct x.2 = x.1 := hb.2
        rw [hxn, hself] at ho
        have hx' : (a.state.outboundDuct, a.state.nextId) = x := Prod.ext ho hxn.symm
        exact hfresh (hx' ▸ h.ended hx)
      · exact hh ⟨hnew hb.1 hxn, (hupd hxn).symm.trans hb.2⟩

/-- The entry that an end takes out. -/
theorem holds_of_given (h : Sane a) (ho : a.state.outboundDuct = some duct) (hx : (some duct, wid) ∈ a.given) :
    wid ∈ a.state.sockets ↔ a.Holds (some duct, wid) := by
  rw [← ho] at hx ⊢
  exact (and_iff_left_of_imp fun hw => h.ours hx hw).symm

/-- An entry that is taken out. -/
theorem lookup_erased {w : ℕ} {con : WebsocketConnection} (hl : (s.sockets.erase wid).lookup w = some con) :
    w ≠ wid ∧ s.sockets.lookup w = some con := by
  by_cases hw : w = wid
  · rw [hw, AList.lookup_erase] at hl
    exact absurd hl.symm (Option.some_ne_none _)
  · rw [AList.lookup_erase_ne hw] at hl
    exact ⟨hw, hl⟩

theorem good_cancel (h : Sane a) {r : List Move × State} (hr : call duct (.cancelWebsocket wid) a.state = some r) :
    Good a (.call duct (.cancelWebsocket wid)) (a.after (.call duct (.cancelWebsocket wid)) r) := by
  obtain rfl := Option.some.inj hr
  have hends : a.endsBy (.call duct (.cancelWebsocket wid)) =
      if wid ∈ a.state.sockets then some (a.owner wid, wid) else none := rfl
  have hundealt : ∀ wire app task, (⟨a.state.outboundDuct, .cancelRequest wid⟩ : Move).card ≠ .deal wire app task :=
    fun _ _ _ h => nomatch h
  have hwatch : [(⟨a.state.outboundDuct, .cancelRequest wid⟩ : Move)].foldl watchMove a.watches = a.watches :=
    watchMove_undealt hundealt a.watches
  unfold Sys.after
  rw [hends]
  have hf : ∀ ended : List Sock, Fewer a ⟨(wsCancel wid a.state).2, a.ducts, a.given, a.owner, ended,
      [(⟨a.state.outboundDuct, .cancelRequest wid⟩ : Move)].foldl watchMove a.watches,
      [(⟨a.state.outboundDuct, .cancelRequest wid⟩ : Move)].filterMap opens ++ a.opened⟩ := fun ended => by
    refine fewer_of a (wsCancel wid a.state).2 (fun w con hl => ?_) rfl (le_refl _) (List.Subset.refl _)
      (unopened_one (opens_undealt hundealt)) ended
    exact ⟨con, (lookup_erased hl).2, rfl⟩
  by_cases hin : wid ∈ a.state.sockets
  · rw [if_pos hin]
    refine ⟨h.fewer (hf _) (fun w hw hno hx => ?_) (List.subset_cons_self _ _) ?_,
      fun hg => (hg.cons_iff (hf _) rfl).trans ?_⟩
    · by_cases hww : w = wid
      · subst hww
        exact List.mem_cons.mpr (.inl (Prod.ext (h.ours hx hw).symm rfl))
      · exact absurd (AList.mem_erase.mpr ⟨hww, hw⟩) hno
    · exact List.cons_subset.mpr ⟨h.owned hin, fun x hx => h.ended hx⟩
    · refine (and_iff_right fun hh => (AList.mem_erase.mp hh.1).1 rfl).trans ?_
      dsimp only
      rw [show [(⟨a.state.outboundDuct, .cancelRequest wid⟩ : Move)].foldl watchMove a.watches = a.watches from hwatch]
      exact ⟨fun hc _ => hc, fun hk => hk hin⟩
  · rw [if_neg hin]
    refine good_same h (hf _) (fun w hw => ?_) rfl fun hw => absurd hw hin
    exact AList.mem_erase.mpr ⟨fun hww => hin (hww ▸ hw), hw⟩

theorem good_take (h : Sane a) {sign : WatchSign} {r : List Move × State} (hopen : (duct, wid) ∈ a.opened)
    (hr : turn a.state (.take duct wid sign) = some r) :
      Good a (.take duct wid sign) (a.after (.take duct wid sign) r) := by
  obtain ⟨ms, hms, rfl⟩ := Option.map_eq_some_iff.mp hr
  have hgiven : (some duct, wid) ∈ a.given := h.opened hopen
  have hstay : ∀ {ws}, ws ⊆ a.watches → Unopened ms → ∀ ended : List Sock,
      Fewer a ⟨a.state, a.ducts, a.given, a.owner, ended, ms.foldl watchMove ws, ms.filterMap opens ++ a.opened⟩ :=
    fun hws hm ended => fewer_of a a.state lookup_same rfl (le_refl _) hws hm ended
  have hends : ∀ {b : Sys}, Fewer a b → b.state = a.state → b.ended = (some duct, wid) :: a.ended → Sane b :=
    fun hf hst hend => by
      refine h.fewer hf (fun w hw hno _ => absurd (hst ▸ hw) hno) ?_ ?_
      · rw [hend]
        exact List.subset_cons_self _ _
      · rw [hend]
        exact List.cons_subset.mpr ⟨hgiven, fun x hx => h.ended hx⟩
  unfold Sys.after
  cases sign with
  | ack =>
    obtain rfl := Option.some.inj hms
    exact good_same h (hstay (List.Subset.refl _) unopened_nil _) (fun w hw => hw) rfl trivial
  | message m =>
    obtain rfl := Option.some.inj hms
    refine good_same h (hstay (List.Subset.refl _) ?_ _) (fun w hw => hw) rfl trivial
    exact unopened_one (opens_undealt fun _ _ _ h => nomatch h)
  | badFact => exact absurd hms.symm (Option.some_ne_none _)
  | kick =>
    obtain rfl := Option.some.inj hms
    have hsub : (a.watches.filter fun x => (x.1, x.2.1) ≠ (duct, wid)) ⊆ a.watches := List.filter_subset_self _
    have hf := hstay hsub
      unopened_cleanupWs ((some duct, wid) :: a.ended)
    refine ⟨hends hf rfl rfl, fun hg => (hg.cons_iff hf rfl).trans (and_iff_left fun d app hd hw => ?_)⟩
    have hin := (unopened_cleanupWs.watches _).1 hw
    obtain rfl := Option.some.inj hd
    exact of_decide_eq_true (List.mem_filter.mp hin).2 rfl
  | disconnect =>
    obtain rfl := Option.some.inj hms
    have hm :
      Unopened ((cleanupWs duct wid a.state).1 ++ [⟨a.state.outboundDuct, .websocketResponse wid .disconnect⟩]) := by
      intro m hm
      rcases List.mem_append.mp hm with hm | hm
      · exact unopened_cleanupWs m hm
      · exact List.mem_singleton.mp hm ▸ opens_undealt fun _ _ _ h => nomatch h
    have hf := hstay (List.Subset.refl _) hm ((some duct, wid) :: a.ended)
    refine ⟨hends hf rfl rfl, fun hg => (hg.cons_iff hf rfl).trans (and_congr_right fun _ => ?_)⟩
    have hwatch : ∀ app, (duct, wid, app) ∈ List.foldl watchMove a.watches
        ((cleanupWs duct wid a.state).1 ++ [⟨a.state.outboundDuct, .websocketResponse wid .disconnect⟩]) ↔
          (duct, wid, app) ∈ a.watches ∧ ∀ con, a.state.sockets.lookup wid = some con → con.app ≠ app := fun app => by
      rw [List.foldl_append, List.foldl_cons, List.foldl_nil, watchMove_response]
      exact mem_watches_cleanup
    constructor
    · intro hc app hw
      by_contra hno
      refine hc duct app rfl ((hwatch app).mpr ⟨hw, fun con hcon happ => hno ⟨con, hcon, happ⟩⟩)
    · intro hk d app hd hw
      obtain rfl := Option.some.inj hd
      obtain ⟨hin, hne⟩ := (hwatch app).mp hw
      obtain ⟨con, hcon, happ⟩ := hk app hin
      exact hne con hcon happ

/-- The other side's end of a websocket takes its entry out and leaves its watch. -/
theorem good_end (h : Sane a) (ho : a.state.outboundDuct = some duct) (hx : (some duct, wid) ∈ a.given)
    {event : WebsocketEvent}
    (hev : ∀ wc, a.state.sockets.lookup wid = some wc → wsEvent duct wid event a.state =
      (⟨wc.duct, .websocketResponse wc.id event⟩ :: (cleanupWs duct wid a.state).1, (cleanupWs duct wid a.state).2))
    (hend : a.endsBy (.call duct (.websocketEvent wid event)) = some (some duct, wid)) :
    Good a (.call duct (.websocketEvent wid event)) (a.after (.call duct (.websocketEvent wid event))
      (wsEvent duct wid event a.state)) := by
  unfold Sys.after
  rw [hend]
  cases hl : a.state.sockets.lookup wid with
  | none =>
    have hno : wid ∉ a.state.sockets := AList.lookup_eq_none.mp hl
    have hev' : wsEvent duct wid event a.state = ([], a.state) := by
      unfold wsEvent
      rw [hl]
    rw [hev']
    have hf := fewer_of a a.state lookup_same rfl (le_refl _) (List.Subset.refl _) unopened_nil
      ((some duct, wid) :: a.ended)
    have hgone : (some duct, wid) ∈ a.ended := by
      rw [← ho] at hx ⊢
      exact (h.there hx).resolve_left hno
    refine ⟨h.fewer hf (fun w hw hnw => absurd hw hnw) (List.subset_cons_self _ _) ?_,
      fun hg => (hg.cons_iff hf rfl).trans ?_⟩
    · exact List.cons_subset.mpr ⟨hx, fun x hx => h.ended hx⟩
    · exact iff_of_true (hg.fewer hf hgone) trivial
  | some wc =>
    rw [hev wc hl]
    have hm : Unopened (⟨wc.duct, .websocketResponse wc.id event⟩ :: (cleanupWs duct wid a.state).1) :=
      unopened_cons (opens_undealt fun _ _ _ h => nomatch h) unopened_cleanupWs
    have hst : (cleanupWs duct wid a.state).2 = { a.state with sockets := a.state.sockets.erase wid } := by
      unfold cleanupWs
      rw [hl]
    have hf := fewer_of a (cleanupWs duct wid a.state).2 (fun w con hc => ⟨con, (lookup_erased (hst ▸ hc)).2, rfl⟩)
      (hst ▸ rfl) (hst ▸ le_refl _) (List.Subset.refl _) hm ((some duct, wid) :: a.ended)
    have hin : wid ∈ a.state.sockets := AList.lookup_isSome.mp (by rw [hl]; rfl)
    refine ⟨h.fewer hf (fun w hw hno _ => ?_) (List.subset_cons_self _ _) ?_, fun hg => (hg.cons_iff hf rfl).trans ?_⟩
    · by_cases hww : w = wid
      · rw [hww, ho]
        exact List.mem_cons_self
      · refine absurd ?_ hno
        show w ∈ (cleanupWs duct wid a.state).2.sockets
        rw [hst]
        exact AList.mem_erase.mpr ⟨hww, hw⟩
    · exact List.cons_subset.mpr ⟨hx, fun x hx => h.ended hx⟩
    · have howner : a.owner wid = some duct := ((holds_of_given h ho hx).mp hin).2
      have hout : wid ∉ (cleanupWs duct wid a.state).2.sockets := by
        rw [hst]
        exact fun hw => (AList.mem_erase.mp hw).1 rfl
      refine iff_of_true ⟨fun hh => hout hh.1, fun d app hd hw => ?_⟩ trivial
      obtain rfl := Option.some.inj hd
      rw [List.foldl_cons, watchMove_response] at hw
      obtain ⟨hin', hne⟩ := mem_watches_cleanup.mp hw
      exact hne wc hl (h.led hin' hl howner)

/-- A watch is opened for the agent of an entry. -/
theorem Sane.watch (h : Sane a) (wc : WebsocketConnection) (hx : (some duct, wid) ∈ a.given)
    (hl : a.state.sockets.lookup wid = some wc) :
    Sane { a with watches := (duct, wid, wc.app) :: a.watches, opened := (duct, wid) :: a.opened } where
  out := h.out
  ducts := h.ducts
  below := h.below
  ours := h.ours
  there := h.there
  owned := h.owned
  ended := h.ended
  opened := @fun d w hin => by
    rcases List.mem_cons.mp hin with he | hin
    · obtain ⟨hd, hw⟩ := Prod.mk.inj he
      show (some d, w) ∈ a.given
      rw [hd, hw]
      exact hx
    · exact h.opened hin
  watched := @fun d w app hin => by
    rcases List.mem_cons.mp hin with he | hin
    · obtain ⟨hd, he2⟩ := Prod.mk.inj he
      show (some d, w) ∈ a.given
      rw [hd, (Prod.mk.inj he2).1]
      exact hx
    · exact h.watched hin
  led := fun hin hl' ho => by
    rcases List.mem_cons.mp hin with he | hin
    · obtain ⟨hw, happ⟩ := Prod.mk.inj (Prod.mk.inj he).2
      rw [hw, hl] at hl'
      exact (congrArg WebsocketConnection.app (Option.some.inj hl')).symm.trans happ.symm
    · exact h.led hin hl' ho

theorem good_event (h : Sane a) {event : WebsocketEvent} (ho : a.state.outboundDuct = some duct)
    (hx : (some duct, wid) ∈ a.given) :
    Good a (.call duct (.websocketEvent wid event)) (a.after (.call duct (.websocketEvent wid event))
      (wsEvent duct wid event a.state)) := by
  cases event with
  | reject =>
    refine good_end h ho hx (fun wc hl => ?_) rfl
    unfold wsEvent
    rw [hl]
  | disconnect =>
    refine good_end h ho hx (fun wc hl => ?_) rfl
    unfold wsEvent
    rw [hl]
  | message m =>
    unfold Sys.after wsEvent
    cases hl : a.state.sockets.lookup wid with
    | none =>
      have hf := fewer_of a a.state lookup_same rfl (le_refl _) (List.Subset.refl _) unopened_nil a.ended
      exact good_same h hf (fun w hw => hw) rfl trivial
    | some wc =>
      have hm : Unopened [⟨wc.duct, .websocketResponse wc.id (.message m)⟩, pokeAgent duct wid m wc.app] :=
        unopened_cons (opens_undealt fun _ _ _ h => nomatch h) (unopened_one rfl)
      have hf := fewer_of a a.state lookup_same rfl (le_refl _) (List.Subset.refl _) hm a.ended
      exact good_same h hf (fun w hw => hw) rfl trivial
  | accept =>
    unfold Sys.after wsEvent
    cases hl : a.state.sockets.lookup wid with
    | none =>
      have hf := fewer_of a a.state lookup_same rfl (le_refl _) (List.Subset.refl _) unopened_nil a.ended
      exact good_same h hf (fun w hw => hw) rfl trivial
    | some wc =>
      have hf := fewer_of a { a.state with sockets := a.state.sockets.insert wid { wc with status := .accepted } }
        (fun w con hc => ?_) rfl (le_refl _) (List.Subset.refl _) unopened_nil a.ended
      · have hsame : Sane _ ∧ (Gone a → (Gone _ ↔ Kept a (.call duct (.websocketEvent wid .accept)))) :=
          good_same h hf (fun w hw => (AList.mem_insert _).mpr (.inr hw)) rfl trivial
        refine ⟨hsame.1.watch { wc with status := .accepted } hx (AList.lookup_insert _), fun hg => iff_of_true
          (fun x hxe => ?_) trivial⟩
        obtain ⟨hh, hw⟩ := (hsame.2 hg).mpr trivial x hxe
        refine ⟨hh, fun d app hd hin => ?_⟩
        rcases List.mem_cons.mp hin with he | hin
        · obtain ⟨hdd, he2⟩ := Prod.mk.inj he
          have hxw : x = (some duct, wid) := Prod.ext (hdd ▸ hd) (Prod.mk.inj he2).1
          refine (hg x hxe).1 (hxw ▸ (holds_of_given h ho hx).mp ?_)
          exact AList.lookup_isSome.mp (by rw [hl]; rfl)
        · exact hw d app hd hin
      · by_cases hww : w = wid
        · subst hww
          rw [AList.lookup_insert] at hc
          obtain rfl := Option.some.inj hc
          exact ⟨wc, hl, rfl⟩
        · rw [AList.lookup_insert_ne hww] at hc
          exact ⟨con, hc, rfl⟩

/-- **What an event does**: what is claimed of the websockets that have ended stays so if and only if
the event is one that iris carries out. -/
theorem good_step (h : Sane a) (hs : a.step e = some b) : Good a e b := by
  unfold Sys.step at hs
  split at hs
  · rename_i hA
    obtain ⟨r, hr, rfl⟩ := Option.map_eq_some_iff.mp hs
    cases e with
    | take duct wid sign => exact good_take h hA hr
    | call duct task =>
      cases task with
      | born => exact good_born h hA hr
      | request req config =>
        obtain rfl := Option.some.inj hr
        exact good_aside h (request_aside duct req config a.state) rfl rfl rfl rfl trivial
      | cancelRequest =>
        obtain rfl := Option.some.inj hr
        exact good_aside h (cancel_aside duct a.state) rfl rfl rfl rfl trivial
      | receive id event =>
        obtain ⟨ms, s'⟩ := r
        exact good_aside h (receive_aside hr) rfl rfl rfl rfl trivial
      | websocketConnect app url => exact good_connect h hr
      | websocketEvent wid event =>
        obtain rfl := Option.some.inj hr
        exact good_event h hA.1 hA.2
      | cancelWebsocket wid => exact good_cancel h hr
  · exact absurd hs.symm (Option.some_ne_none _)

/-- Where those that have ended are gone, nothing reaches an agent for them. -/
theorem Gone.silent (hg : Gone a) (h : Sane a) : Silent a := by
  rintro duct wid event hend ⟨ho, hx⟩ m hm
  have hno : wid ∉ a.state.sockets := fun hin => (hg _ hend).1 ((holds_of_given h ho hx).mp hin)
  unfold wsEvent at hm
  rw [AList.lookup_eq_none.mpr hno] at hm
  exact absurd hm List.not_mem_nil

theorem gone_start : Gone .start := fun _ hx => absurd hx List.not_mem_nil

/-- **The websockets that have ended, in a run**: in every state none is in the map of sockets or
watched, and nothing that comes reaches an agent for one, if and only if each event of the run is one that iris
carries out. -/
theorem ended_of_run {es : List Event} (h : Replay.follow Sys.step .start es = some b) :
    (∀ n a, Replay.At Sys.step .start es n a → Gone a ∧ Silent a) ↔ Replay.Along Sys.step Kept .start es := by
  refine Replay.Along.iff_all Sane (fun a => Gone a ∧ Silent a) (fun _ _ _ ha hs => (good_step ha hs).1) ?_ sane_start
    ⟨gone_start, gone_start.silent sane_start⟩ h
  intro a e b ha hga hs
  obtain ⟨hb, hgood⟩ := good_step ha hs
  exact (and_iff_left_of_imp fun hg => hg.silent hb).trans (hgood hga.1)

/-- A websocket is accepted, a message comes on it, and the other side ends it. -/
def remoteEnds : List Event :=
  [.call 1 .born, .call 2 (.websocketConnect "chat" "ws://a"), .call 1 (.websocketEvent 0 .accept),
    .call 1 (.websocketEvent 0 (.message ⟨1, none⟩)), .call 1 (.websocketEvent 0 .disconnect)]

theorem remoteEnds_gone : ∃ b, Replay.follow Sys.step .start remoteEnds = some b ∧ b.ended = [(some 1, 0)] ∧
    ∀ n a, Replay.At Sys.step .start remoteEnds n a → Gone a ∧ Silent a := by
  have h : Replay.follow Sys.step .start remoteEnds = some _ := rfl
  exact
    ⟨_, h, rfl, (ended_of_run h).mpr ⟨trivial, fun _ _ => ⟨trivial, fun _ _ => ⟨trivial, fun _ _ => ⟨trivial, fun _ _ =>
    ⟨trivial, fun _ _ => trivial⟩⟩⟩⟩⟩⟩

/-- A websocket is accepted, and its agent ends it. -/
def agentEnds : List Event :=
  [.call 1 .born, .call 2 (.websocketConnect "chat" "ws://a"), .call 1 (.websocketEvent 0 .accept),
    .take 1 0 .disconnect]

/-- A websocket that its agent has ended stays in the map, and a message for it is poked to the agent. -/
theorem agentEnds_stays : ∃ b, Replay.follow Sys.step .start agentEnds = some b ∧ (some 1, 0) ∈ b.ended ∧
    0 ∈ b.state.sockets ∧
    (⟨some 1, .deal .irisWsPoke "chat" (.poke 0 ⟨1, none⟩)⟩ : Move) ∈
      (wsEvent 1 0 (.message ⟨1, none⟩) b.state).1 ∧ ¬ Gone b := by
  have h : Replay.follow Sys.step .start agentEnds = some _ := rfl
  have hin : 0 ∈ (⟨AList.insert 0 ⟨"chat", 2, 0, "ws://a", .accepted⟩ ∅, 1, ∅, ∅, some 1⟩ : State).sockets :=
    AList.lookup_isSome.mp rfl
  exact ⟨_, h, List.mem_cons_self, hin, List.mem_cons_of_mem _ List.mem_cons_self, fun hg =>
    (hg (some 1, 0) List.mem_cons_self).1 ⟨hin, rfl⟩⟩

end Iris
end Ursockets
