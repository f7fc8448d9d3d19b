/-
# What can happen to the channels

Whatever eyre does, its channels and the map from ducts to channels change by a few
edits: a channel is created, its timer is renewed, somebody listens to it or goes, it
is discarded, or something in it changes that leaves it with its listener. Each arm is
a run of such edits (`EditsTo`), with the timers that it sets and cancels, but that a PUT
with a `%delete` loses the moves that were gathered before.

Key definitions: `Channels`, `Change`, `Edit.turn`, `behn`, `EditsTo`, `TimedTo`.
Key theorems: `onPutRequest_timed`, `onGetRequest_timed`, `emitEvent_cases`, `cancelAll_timed`, `discardAll_timed`.
-/
import Ursockets.EyreChannel
import Ursockets.Lib.Replay
import Mathlib.Data.Multiset.AddSub

namespace Ursockets
namespace Eyre

/-! ### Edits -/

/-- The channels and who listens to them. -/
structure Channels where
  session : Map String Channel
  ductToKey : Map Duct String
  deriving DecidableEq

/-- The channel state of a server. -/
def ServerState.channels (s : ServerState) : Channels := ⟨s.session, s.ductToKey⟩

/-- What changes in a channel that keeps its timer or its listener. -/
inductive Change where
  | ack (now : Da) (lastEventId : ℕ)
  | subscribe (requestId : ℕ) (sub : Subscription)
  | unsubscribe (requestId : ℕ)
  | record (requestId : ℕ) (event : ChannelEvent)
  | quit (requestId : ℕ)
  | beat (heartbeat : Timer)

def Change.on : Change → Channel → Channel
  | .ack now n, c => { c with
      events := (pruneEvents ∅ n c.events).2,
      unacked := subtractAckedEvents (pruneEvents ∅ n c.events).1 c.unacked, lastAck := now }
  | .subscribe rid sub, c => { c with subscriptions := c.subscriptions.insert rid sub }
  | .unsubscribe rid, c => { c with subscriptions := c.subscriptions.erase rid, unacked := c.unacked.erase rid }
  | .record rid event, c => c.record rid event
  | .quit rid, c => c.quit rid
  | .beat t, c => { c with heartbeat := some t }

@[simp] theorem Change.on_state (ch : Change) (c : Channel) : (ch.on c).state = c.state := by
  cases ch <;> rfl

/-- An edit of the channels. A channel is parked by a duct that its client leaves. -/
inductive Edit where
  | create (channelId : String) (mode : Mode) (identity : Identity) (t : Timer) (now : Da)
  | change (channelId : String) (ch : Change)
  | renew (channelId : String) (t : Timer)
  | park (channelId : String) (duct : Duct) (t : Timer)
  | listen (channelId : String) (duct : Duct) (beat : Timer)
  | discard (channelId : String)

/-- The ducts, without the one that listens to a channel. -/
def dropListener (ductToKey : Map Duct String) : Timer ⊕ Duct → Map Duct String
  | .inl _ => ductToKey
  | .inr d => ductToKey.erase d

/-- An edit, where it can be made. -/
def Edit.turn (k : Channels) : Edit → Option Channels
  | .create cid mode identity t now =>
    match k.session.lookup cid with
    | none => some { k with session := k.session.insert cid ⟨mode, identity, .inl t, 0, now, [], ∅, ∅, none⟩ }
    | some _ => none
  | .change cid ch => (k.session.lookup cid).map fun c => { k with session := k.session.insert cid (ch.on c) }
  | .renew cid t =>
    match k.session.lookup cid with
    | some c =>
      if c.state.isLeft then some { k with session := k.session.insert cid { c with state := .inl t } } else none
    | none => none
  | .park cid d t =>
    match k.session.lookup cid with
    | some c =>
      if c.state.isRight ∧ k.ductToKey.lookup d = some cid then
        some ⟨k.session.insert cid { c with state := .inl t, heartbeat := none }, k.ductToKey.erase d⟩
      else none
    | none => none
  | .listen cid d beat =>
    if d ∈ k.ductToKey then none
    else (k.session.lookup cid).map fun c =>
      ⟨k.session.insert cid { c with state := .inr d, heartbeat := some beat },
        (dropListener k.ductToKey c.state).insert d cid⟩
  | .discard cid =>
    (k.session.lookup cid).map fun c => ⟨k.session.erase cid, dropListener k.ductToKey c.state⟩

/-- An edit that leaves the events and the subscriptions of the channels that stay, and by which
nobody begins to listen. -/
def Edit.Quiet : Edit → Prop
  | .change _ (.beat _) => True
  | .change _ _ => False
  | .listen _ _ _ => False
  | _ => True

/-- An edit by which nobody begins to listen. -/
def Edit.Loud : Edit → Prop
  | .listen _ _ _ => False
  | _ => True

/-- An edit by which nobody begins to listen but on the duct `d`. -/
def Edit.On (d : Duct) : Edit → Prop
  | .listen _ d' _ => d' = d
  | _ => True

theorem Edit.Quiet.loud {e : Edit} (h : e.Quiet) : e.Loud := by
  cases e with
  | listen _ _ _ => exact h.elim
  | _ => exact trivial

theorem Edit.Loud.on (d : Duct) {e : Edit} (h : e.Loud) : e.On d := by
  cases e with
  | listen _ _ _ => exact h.elim
  | _ => exact trivial

/-- From one state's channels to the other's by edits of a kind. -/
def EditsTo (A : Edit → Prop) (s s' : ServerState) : Prop :=
  ∃ es, (∀ e ∈ es, A e) ∧ Replay.follow Edit.turn s.channels es = some s'.channels

section edits

variable {A B : Edit → Prop} {s s' s'' : ServerState}

theorem EditsTo.refl (h : s'.channels = s.channels) : EditsTo A s s' :=
  ⟨[], fun _ he => absurd he List.not_mem_nil, by rw [h]; rfl⟩

theorem EditsTo.trans (h : EditsTo A s s') (h' : EditsTo A s' s'') : EditsTo A s s'' := by
  obtain ⟨es, ha, h⟩ := h
  obtain ⟨es', ha', h'⟩ := h'
  refine ⟨es ++ es', fun e he => (List.mem_append.mp he).elim (ha e) (ha' e), ?_⟩
  rw [Replay.follow_append, h]
  exact h'

theorem EditsTo.one (e : Edit) (ha : A e) (h : e.turn s.channels = some s'.channels) : EditsTo A s s' :=
  ⟨[e], fun _ he => List.mem_singleton.mp he ▸ ha, by rw [Replay.follow, h]; rfl⟩

theorem EditsTo.mono (hAB : ∀ {e}, A e → B e) (h : EditsTo A s s') : EditsTo B s s' :=
  h.imp fun _ h => ⟨fun e he => hAB (h.1 e he), h.2⟩

end edits

/-! ### Timers -/

/-- A timer that is pending, and the channel that it is of. -/
structure Pend where
  channelId : String
  timer : Timer
  deriving DecidableEq

/-- What a move does to the timers of channels. -/
def behnMove (ts : Multiset Pend) (m : Move) : Multiset Pend :=
  match m.card with
  | .wait (.channelTimeout cid) date => ⟨cid, date, m.duct⟩ ::ₘ ts
  | .rest (.channelTimeout cid) date => ts.erase ⟨cid, date, m.duct⟩
  | _ => ts

/-- What moves do to the timers of channels. -/
def behn (moves : List Move) (ts : Multiset Pend) : Multiset Pend := moves.foldl behnMove ts

theorem behn_append (ms ms' : List Move) (ts : Multiset Pend) : behn (ms ++ ms') ts = behn ms' (behn ms ts) :=
  List.foldl_append

/-- A move that neither sets nor cancels a channel's timeout. -/
def Untimed (m : Move) : Prop := ∀ ts, behnMove ts m = ts

theorem behn_untimed {ms : List Move} (h : ∀ m ∈ ms, Untimed m) (ts : Multiset Pend) : behn ms ts = ts := by
  induction ms with
  | nil => rfl
  | cons m ms ih =>
    rw [behn, List.foldl_cons, h m List.mem_cons_self]
    exact ih fun m' hm => h m' (List.mem_cons_of_mem m hm)

/-- The timers, without the one that a channel waits for. -/
def Channels.rest (k : Channels) (ts : Multiset Pend) (cid : String) : Multiset Pend :=
  match (k.session.lookup cid).map Channel.state with
  | some (.inl t) => ts.erase ⟨cid, t⟩
  | _ => ts

/-- The timers after an edit of channels that are as `k` says. -/
def Edit.timers (k : Channels) (e : Edit) (ts : Multiset Pend) : Multiset Pend :=
  match e with
  | .create cid _ _ t _ => ⟨cid, t⟩ ::ₘ ts
  | .change _ _ => ts
  | .renew cid t => ⟨cid, t⟩ ::ₘ k.rest ts cid
  | .park cid _ t => ⟨cid, t⟩ ::ₘ ts
  | .listen cid _ _ => k.rest ts cid
  | .discard cid => k.rest ts cid

/-- An edit, with the timers. -/
def Edit.timed (p : Channels × Multiset Pend) (e : Edit) : Option (Channels × Multiset Pend) :=
  (e.turn p.1).map fun k => (k, e.timers p.1 p.2)

/-- The moves take the timers along with edits of a kind that lead from one state's
channels to the other's. -/
def TimedTo (A : Edit → Prop) (s : ServerState) (moves : List Move) (s' : ServerState) : Prop :=
  ∀ ts, ∃ es, (∀ e ∈ es, A e) ∧ Replay.follow Edit.timed (s.channels, ts) es = some (s'.channels, behn moves ts)

section timed

variable {A B : Edit → Prop}

theorem TimedTo.refl {s s' : ServerState} {moves : List Move} (h : s'.channels = s.channels)
    (hm : ∀ m ∈ moves, Untimed m) : TimedTo A s moves s' :=
  fun ts => ⟨[], fun _ he => absurd he List.not_mem_nil, by rw [h, behn_untimed hm]; rfl⟩

theorem TimedTo.trans {s s' s'' : ServerState} {ms ms' : List Move} (h : TimedTo A s ms s')
    (h' : TimedTo A s' ms' s'') : TimedTo A s (ms ++ ms') s'' := by
  intro ts
  obtain ⟨es, ha, h⟩ := h ts
  obtain ⟨es', ha', h'⟩ := h' (behn ms ts)
  refine ⟨es ++ es', fun e he => (List.mem_append.mp he).elim (ha e) (ha' e), ?_⟩
  rw [Replay.follow_append, h, behn_append]
  exact h'

theorem TimedTo.one {s s' : ServerState} {moves : List Move} (e : Edit) (ha : A e)
    (h : e.turn s.channels = some s'.channels) (ht : ∀ ts, e.timers s.channels ts = behn moves ts) :
    TimedTo A s moves s' :=
  fun ts => ⟨[e], fun _ he => List.mem_singleton.mp he ▸ ha, by
    rw [Replay.follow, Edit.timed, h, Option.map_some, ht]
    rfl⟩

theorem TimedTo.mono {s s' : ServerState} {moves : List Move} (hAB : ∀ {e}, A e → B e) (h : TimedTo A s moves s') :
    TimedTo B s moves s' :=
  fun ts => (h ts).imp fun _ h => ⟨fun e he => hAB (h.1 e he), h.2⟩

theorem follow_timed {p q : Channels × Multiset Pend} : ∀ {es : List Edit}, Replay.follow Edit.timed p es = some q →
    Replay.follow Edit.turn p.1 es = some q.1
  | [], h => congrArg (Option.map Prod.fst) h
  | e :: es, h => by
    rw [Replay.follow, Option.bind_eq_some_iff] at h
    obtain ⟨b, hb, h⟩ := h
    obtain ⟨k, hk, rfl⟩ := Option.map_eq_some_iff.mp hb
    rw [Replay.follow, hk]
    exact follow_timed h

theorem TimedTo.edits {s s' : ServerState} {moves : List Move} (h : TimedTo A s moves s') : EditsTo A s s' := by
  obtain ⟨es, ha, h⟩ := h 0
  exact ⟨es, ha, follow_timed h⟩

/-- An arm that leaves the channels and their timers. -/
theorem TimedTo.idle {s s₀ s' : ServerState} {ms moves : List Move} (h : some (ms, s₀) = some (moves, s'))
    (hs : s₀.channels = s.channels) (hm : ∀ m ∈ ms, Untimed m) : TimedTo A s moves s' := by
  obtain ⟨rfl, rfl⟩ := Prod.mk.inj (Option.some.inj h)
  exact .refl hs hm

theorem untimed_nil : ∀ m ∈ ([] : List Move), Untimed m := fun _ hm => absurd hm List.not_mem_nil

theorem untimed_one {m : Move} (h : Untimed m) : ∀ m' ∈ [m], Untimed m' := fun _ hm => List.mem_singleton.mp hm ▸ h

theorem TimedTo.congr {s s' : ServerState} {ms ms' : List Move} (h : TimedTo A s ms s')
    (hm : ∀ ts, behn ms' ts = behn ms ts) : TimedTo A s ms' s' := by
  intro ts
  rw [hm]
  exact h ts

end timed

variable {text : Text} {roof : Roof} {our : Ship} {now : Da} {duct : Duct} {s s' : ServerState}
  {moves : List Move} {cid : String} {rid : ℕ} {identity : Identity} {request : Request} {A : Edit → Prop}

/-! ### Responses and requests that are turned away -/

theorem errorConnection_timed (c : OutstandingConnection) :
    (errorConnection our duct c s).2.channels = s.channels ∧ ∀ m ∈ (errorConnection our duct c s).1, Untimed m := by
  refine ⟨rfl, fun m hm => ?_⟩
  unfold errorConnection at hm
  rcases List.mem_cons.mp hm with rfl | hm
  · exact fun _ => rfl
  · split at hm
    · rw [List.mem_singleton.mp hm]
      exact fun _ => rfl
    · exact absurd hm List.not_mem_nil

/-- A response leaves the channels and their timers. -/
theorem handleResponse_timed (text : Text) (our : Ship) (now : Da) (duct : Duct) (e : HttpEvent) (s : ServerState) :
    (handleResponse text our now duct e s).2.channels = s.channels ∧
      ∀ m ∈ (handleResponse text our now duct e s).1, Untimed m := by
  unfold handleResponse
  split
  · exact ⟨rfl, untimed_nil⟩
  · split
    · split
      · exact errorConnection_timed _
      · exact ⟨rfl, untimed_one fun _ => rfl⟩
    · split
      · exact errorConnection_timed _
      · exact ⟨rfl, untimed_one fun _ => rfl⟩
    · exact errorConnection_timed _

theorem returnStatic_timed (code : ℕ) (ty : String) (data : Octs) (s : ServerState) :
    TimedTo A s (returnStaticDataOnDuct text our now duct code ty data s).1
      (returnStaticDataOnDuct text our now duct code ty data s).2 :=
  have h := handleResponse_timed text our now duct _ s
  .refl h.1 h.2

/-! ### Cancelled requests -/

theorem heartbeatCancel_untimed (cid : String) (c : Channel) : ∀ m ∈ heartbeatCancel cid c, Untimed m := by
  intro m hm
  obtain ⟨t, -, rfl⟩ := Option.map_eq_some_iff.mp (Option.mem_toList.mp hm)
  exact fun _ => rfl

/-- The moves set timers and cancel none, so that their order does not matter. -/
def Sets (moves : List Move) : Prop := ∃ new, ∀ ts, behn moves ts = new + ts

theorem sets_untimed (h : ∀ m ∈ moves, Untimed m) : Sets moves :=
  ⟨0, fun ts => (behn_untimed h ts).trans (Multiset.zero_add ts).symm⟩

theorem Sets.idle {s₀ : ServerState} {ms : List Move} (h : some (ms, s₀) = some (moves, s'))
    (hs : s₀.channels = s.channels)
    (hm : ∀ m ∈ ms, Untimed m) : TimedTo Edit.Quiet s moves s' ∧ Sets moves :=
  ⟨.idle h hs hm, (Prod.mk.inj (Option.some.inj h)).1 ▸ sets_untimed hm⟩

theorem onCancelRequest_timed (h : onCancelRequest now duct s = some (moves, s')) :
    TimedTo Edit.Quiet s moves s' ∧ Sets moves := by
  unfold onCancelRequest at h
  split at h
  · exact Sets.idle h rfl untimed_nil
  · rename_i cid hkey
    split at h
    · exact Sets.idle h rfl untimed_nil
    · rename_i c hc
      split at h
      · exact absurd h.symm (Option.some_ne_none _)
      · rename_i d hd
        obtain ⟨rfl, rfl⟩ := Prod.mk.inj (Option.some.inj h)
        have hbehn : ∀ ts, behn (heartbeatCancel cid c ++ [setTimeoutMove duct cid (now + channelTimeout)]) ts =
            ⟨cid, now + channelTimeout, duct⟩ ::ₘ ts := fun ts => by
          rw [behn_append, behn_untimed (heartbeatCancel_untimed cid c)]
          rfl
        refine ⟨.one (.park cid duct ⟨now + channelTimeout, duct⟩) trivial ?_ fun ts => (hbehn ts).symm,
          {⟨cid, now + channelTimeout, duct⟩}, fun ts => (hbehn ts).trans (Multiset.singleton_add _ _).symm⟩
        simp only [Edit.turn, ServerState.channels, hc, hkey, hd, Sum.isRight_inr, and_self, if_true]

theorem cancelRequest_timed (h : cancelRequest our now duct s = some (moves, s')) :
    TimedTo Edit.Quiet s moves s' ∧ Sets moves := by
  unfold cancelRequest at h
  split at h
  · exact Sets.idle h rfl untimed_nil
  · rename_i c hc
    dsimp only at h
    cases hact : c.action <;> rw [hact] at h
    case gen => exact Sets.idle h rfl untimed_nil
    case app => exact Sets.idle h rfl (untimed_one fun _ => rfl)
    case authentication => exact Sets.idle h rfl untimed_nil
    case eauth => exact Sets.idle h rfl untimed_nil
    case logout => exact Sets.idle h rfl untimed_nil
    case channel => exact onCancelRequest_timed (s := { s with connections := s.connections.erase duct }) h
    all_goals exact absurd h.symm (Option.some_ne_none _)

theorem cancelAll_timed : ∀ {ds : List Duct} {s s' : ServerState} {moves : List Move},
    cancelAll our now ds s = some (moves, s') → TimedTo Edit.Quiet s moves s' ∧ Sets moves
  | [], s, s', moves, h => Sets.idle h rfl untimed_nil
  | d :: ds, s, s', moves, h => by
    rw [cancelAll] at h
    simp only [Option.bind_eq_bind, Option.bind_eq_some_iff, Option.some.injEq, Prod.mk.injEq] at h
    obtain ⟨⟨ms, s1⟩, hone, ⟨later, s2⟩, hall, rfl, rfl⟩ := h
    obtain ⟨ht, new, hnew⟩ := cancelRequest_timed hone
    obtain ⟨ht', new', hnew'⟩ := cancelAll_timed hall
    refine ⟨(ht.trans ht').congr fun ts => ?_, new + new', fun ts => ?_⟩
    · rw [behn_append, behn_append, hnew', hnew, hnew, hnew', ← Multiset.add_assoc, ← Multiset.add_assoc,
        Multiset.add_comm new']
    · rw [behn_append, hnew', hnew, Multiset.add_assoc]

/-! ### Discarded channels -/

theorem leaves_untimed (our : Ship) (cid : String) (c : Channel) : ∀ m ∈ c.subscriptions.entries.map (fun e =>
    dealAs our e.2.duc (.channelSubscription cid e.1 e.2.ship e.2.app
      (some (c.identity.source our))) c.identity e.2.ship
      e.2.app .leave), Untimed m := by
  intro m hm
  obtain ⟨e, -, rfl⟩ := List.mem_map.mp hm
  exact fun _ => rfl

/-- A channel that is discarded; its timer is cancelled but if it is what has fired. -/
theorem discardChannel_spec {c : Channel} (our : Ship) (expired : Bool) (hc : s.session.lookup cid = some c) :
    (discardChannel our cid expired s).2.channels = ⟨s.session.erase cid, dropListener s.ductToKey c.state⟩ ∧
      ∀ ts, behn (discardChannel our cid expired s).1 ts = match c.state with
        | .inl t => if expired then ts else ts.erase ⟨cid, t⟩
        | .inr _ => ts := by
  unfold discardChannel
  rw [hc]
  dsimp only
  refine ⟨?_, fun ts => ?_⟩
  · cases c.state <;> rfl
  · rw [behn_append, behn_append, behn_untimed (heartbeatCancel_untimed cid c), behn_untimed (leaves_untimed our cid c)]
    cases c.state with
    | inl t => cases expired <;> rfl
    | inr d => rfl

theorem discardChannel_none (our : Ship) (expired : Bool) (hc : s.session.lookup cid = none) :
    discardChannel our cid expired s = ([], s) := by
  unfold discardChannel
  rw [hc]

theorem discardChannel_gone (our : Ship) (cid : String) (expired : Bool) (s : ServerState) :
    (discardChannel our cid expired s).2.session.lookup cid = none := by
  cases hc : s.session.lookup cid with
  | none => rw [discardChannel_none our expired hc, hc]
  | some c =>
    have h := congrArg Channels.session (discardChannel_spec our expired hc).1
    exact (congrArg (AList.lookup cid) h).trans (AList.lookup_erase _ _)

/-- A channel that somebody listens to is discarded without a move to its timer. -/
theorem discardChannel_untimed (our : Ship) (cid : String) (expired : Bool)
    (hw : ∀ c, s.session.lookup cid = some c → c.state.isRight) :
    ∀ m ∈ (discardChannel our cid expired s).1, Untimed m := by
  cases hc : s.session.lookup cid with
  | none =>
    rw [discardChannel_none our expired hc]
    exact untimed_nil
  | some c =>
    obtain ⟨d, hd⟩ := Sum.isRight_iff.mp (hw c hc)
    unfold discardChannel
    rw [hc]
    dsimp only
    rw [hd, List.append_nil]
    exact fun m hm => (List.mem_append.mp hm).elim (heartbeatCancel_untimed cid c m) (leaves_untimed our cid c m)

theorem discardChannel_turn {c : Channel} (our : Ship) (expired : Bool) (hc : s.session.lookup cid = some c) :
    (Edit.discard cid).turn s.channels = some (discardChannel our cid expired s).2.channels := by
  rw [(discardChannel_spec our expired hc).1]
  exact congrArg (Option.map _) hc

theorem discardChannel_edits (our : Ship) (cid : String) (expired : Bool) (s : ServerState) :
    EditsTo Edit.Quiet s (discardChannel our cid expired s).2 := by
  cases hc : s.session.lookup cid with
  | none => exact .refl (by rw [discardChannel_none our expired hc])
  | some c => exact .one (.discard cid) trivial (discardChannel_turn our expired hc)

theorem discardChannel_timed (our : Ship) (cid : String) (s : ServerState) :
    TimedTo Edit.Quiet s (discardChannel our cid false s).1 (discardChannel our cid false s).2 := by
  cases hc : s.session.lookup cid with
  | none =>
    rw [discardChannel_none our false hc]
    exact .refl rfl untimed_nil
  | some c =>
    refine .one (.discard cid) trivial (discardChannel_turn our false hc) fun ts => ?_
    rw [(discardChannel_spec our false hc).2]
    simp only [Edit.timers, Channels.rest, ServerState.channels, hc, Option.map_some]
    cases c.state <;> rfl

theorem discardAll_timed (our : Ship) : ∀ (cids : List String) (s : ServerState),
    TimedTo Edit.Quiet s (discardAll our cids s).1 (discardAll our cids s).2
  | [], _ => .refl rfl untimed_nil
  | cid :: cids, s => (discardChannel_timed our cid s).trans (discardAll_timed our cids _)

theorem closeSession_timed (sid : ℕ) (all : Bool) (s : ServerState) :
    TimedTo Edit.Quiet s (closeSession our sid all s).1 (closeSession our sid all s).2 := by
  unfold closeSession
  split
  · exact .refl rfl untimed_nil
  · rename_i ses hses
    have hall := discardAll_timed our (endSessions sid all ses s).1 { s with sessions := (endSessions sid all ses s).2 }
    refine TimedTo.trans (s := s) hall ?_
    unfold shutVisitors
    split
    · refine .refl rfl fun m hm => ?_
      obtain ⟨e, -, he⟩ := List.mem_flatMap.mp hm
      obtain ⟨d, -, rfl⟩ := Option.map_eq_some_iff.mp (Option.mem_toList.mp he)
      exact fun _ => rfl
    · exact .refl rfl untimed_nil

/-! ### Commands -/

theorem updateTimeout_timed (now : Da) (duct : Duct) (mode : Mode) (identity : Identity) (cid : String)
    (s : ServerState) :
    TimedTo Edit.Quiet s (updateTimeoutTimerFor now duct mode identity cid [] s).1
      (updateTimeoutTimerFor now duct mode identity cid [] s).2 := by
  unfold updateTimeoutTimerFor
  dsimp only
  split
  · rename_i hc
    refine .one (.create cid mode identity ⟨now + channelTimeout, duct⟩ now) trivial ?_ fun _ => rfl
    simp only [Edit.turn, ServerState.channels, hc]
  · rename_i c hc
    split
    · exact .refl rfl untimed_nil
    · rename_i t hstate
      refine .one (.renew cid ⟨now + channelTimeout, duct⟩) trivial ?_ fun ts => ?_
      · simp only [Edit.turn, ServerState.channels, hc, hstate, Sum.isLeft_inl, if_true]
      · simp only [Edit.timers, Channels.rest, ServerState.channels, hc, hstate, Option.map_some]
        rfl

theorem change_timed (cid : String) (ch : Change) (ha : A (.change cid ch)) {session : Map String Channel}
    (h : jab s.session cid ch.on = some session) (hs : s'.channels = ⟨session, s.ductToKey⟩) : TimedTo A s [] s' := by
  obtain ⟨c, hc, rfl⟩ := Option.map_eq_some_iff.mp h
  refine .one (.change cid ch) ha ?_ fun _ => rfl
  simp only [Edit.turn, ServerState.channels, hc, Option.map_some] at hs ⊢
  exact congrArg some hs.symm

theorem acknowledgeEvents_timed {n : ℕ} (h : acknowledgeEvents now cid n s = some s') : TimedTo Edit.Loud s [] s' := by
  obtain ⟨session, hj, rfl⟩ := Option.map_eq_some_iff.mp h
  exact change_timed cid (.ack now n) trivial hj rfl

variable {source : Ship} {r : ChannelRequest} {l l' : PutLoop}

/-- One request, but a `%delete`: it changes the channel, and adds moves to gall and errors. -/
theorem putStep_timed (hr : r ≠ .delete) (h : putStep our now duct cid source r l = some l') :
    TimedTo Edit.Loud l.state [] l'.state ∧ l'.moves = l.moves ∧
      ((∀ m ∈ l.gallMoves, Untimed m) → ∀ m ∈ l'.gallMoves, Untimed m) := by
  have hadd : ∀ {m : Move}, Untimed m → (∀ m ∈ l.gallMoves, Untimed m) → ∀ m' ∈ m :: l.gallMoves, Untimed m' :=
    fun hm hl m' hm' => (List.mem_cons.mp hm').elim (fun he => he ▸ hm) (hl m')
  unfold putStep at h
  cases r with
  | ack n =>
    obtain ⟨s1, hs, rfl⟩ := Option.map_eq_some_iff.mp h
    exact ⟨acknowledgeEvents_timed hs, rfl, id⟩
  | poke rid ship app mark noun =>
    dsimp only at h
    split at h <;> obtain rfl := Option.some.inj h
    · exact ⟨.refl rfl untimed_nil, rfl, hadd fun _ => rfl⟩
    · exact ⟨.refl rfl untimed_nil, rfl, id⟩
  | pokeJson rid ship app mark json =>
    dsimp only at h
    split at h <;> obtain rfl := Option.some.inj h
    · exact ⟨.refl rfl untimed_nil, rfl, hadd fun _ => rfl⟩
    · exact ⟨.refl rfl untimed_nil, rfl, id⟩
  | subscribe rid ship app path =>
    dsimp only at h
    split at h
    · obtain ⟨session, hs, rfl⟩ := Option.map_eq_some_iff.mp h
      exact ⟨change_timed cid (.subscribe rid ⟨ship, app, path, duct⟩) trivial hs rfl, rfl, hadd fun _ => rfl⟩
    · obtain rfl := Option.some.inj h
      exact ⟨.refl rfl untimed_nil, rfl, id⟩
  | unsubscribe rid sid =>
    dsimp only at h
    split at h
    · split at h
      · obtain rfl := Option.some.inj h
        exact ⟨.refl rfl untimed_nil, rfl, id⟩
      · rename_i c hc
        split at h <;> obtain rfl := Option.some.inj h
        · exact ⟨.refl rfl untimed_nil, rfl, id⟩
        · refine ⟨change_timed cid (.unsubscribe sid) trivial ?_ rfl, rfl, hadd fun _ => rfl⟩
          rw [jab, hc, Option.map_some]
          rfl
    · obtain rfl := Option.some.inj h
      exact ⟨.refl rfl untimed_nil, rfl, id⟩
  | delete => exact absurd rfl hr

theorem putStep_edits (h : putStep our now duct cid source r l = some l') : EditsTo Edit.Loud l.state l'.state := by
  by_cases hr : r = .delete
  · subst hr
    obtain rfl := Option.some.inj h
    exact (discardChannel_edits our cid false l.state).mono Edit.Quiet.loud
  · exact (putStep_timed hr h).1.edits

theorem putLoop_edits : ∀ {rs : List ChannelRequest} {l l' : PutLoop},
    putLoop our now duct cid source rs l = some l' → EditsTo Edit.Loud l.state l'.state
  | [], l, l', h => .refl (congrArg (fun l => l.state.channels) (Option.some.inj h)).symm
  | r :: rs, l, l', h => by
    obtain ⟨l1, h1, h⟩ := Option.bind_eq_some_iff.mp h
    exact (putStep_edits h1).trans (putLoop_edits h)

theorem putLoop_timed : ∀ {rs : List ChannelRequest} {l l' : PutLoop}, .delete ∉ rs →
    putLoop our now duct cid source rs l = some l' → TimedTo Edit.Loud l.state [] l'.state ∧ l'.moves = l.moves ∧
      ((∀ m ∈ l.gallMoves, Untimed m) → ∀ m ∈ l'.gallMoves, Untimed m)
  | [], l, l', _, h => by
    obtain rfl := Option.some.inj h
    exact ⟨.refl rfl untimed_nil, rfl, id⟩
  | r :: rs, l, l', hrs, h => by
    obtain ⟨l1, h1, h⟩ := Option.bind_eq_some_iff.mp h
    obtain ⟨ht, hm, hg⟩ := putStep_timed (fun he => hrs (he ▸ List.mem_cons_self)) h1
    obtain ⟨ht', hm', hg'⟩ := putLoop_timed (fun hd => hrs (List.mem_cons_of_mem r hd)) h
    exact ⟨ht.trans ht', hm'.trans hm, fun hu => hg' (hg hu)⟩

/-- The end of a PUT: its moves, and what it leaves the channels as. -/
theorem putDone_spec (text : Text) (our : Ship) (now : Da) (duct : Duct) (before : ServerState) (l : PutLoop) :
    ∃ http, (∀ m ∈ http, Untimed m) ∧
    ((putDone text our now duct before l).1 = l.gallMoves.reverse ++ http ++ l.moves ∧
        (putDone text our now duct before l).2.channels = l.state.channels ∨
      (putDone text our now duct before l).1 = http ++ l.moves ∧
        (putDone text our now duct before l).2.channels = before.channels) := by
  unfold putDone
  split
  · have h := handleResponse_timed text our now duct (.start ⟨204, []⟩ none true) l.state
    exact ⟨_, h.2, .inl ⟨rfl, h.1⟩⟩
  · unfold returnStaticDataOnDuct
    have h := handleResponse_timed text our now duct
      (.start ⟨400, [("content-type", "text/html"), ("content-length", toString (errorOcts l.errors).length)]⟩
        (some (errorOcts l.errors)) true) before
    exact ⟨_, h.2, .inr ⟨rfl, h.1⟩⟩

theorem putDone_edits (h : EditsTo Edit.Loud s l.state) : EditsTo Edit.Loud s (putDone text our now duct s l).2 := by
  obtain ⟨http, -, ⟨-, hc⟩ | ⟨-, hc⟩⟩ := putDone_spec text our now duct s l
  · exact h.trans (.refl hc)
  · exact .refl hc

theorem onPutRequest_edits (h : onPutRequest text roof our now duct cid identity request s = some (moves, s')) :
    EditsTo Edit.Loud s s' := by
  unfold onPutRequest at h
  split at h
  · obtain ⟨rfl, rfl⟩ := Prod.mk.inj (Option.some.inj h)
    exact (returnStatic_timed _ _ _ _).edits
  · split at h
    · obtain ⟨rfl, rfl⟩ := Prod.mk.inj (Option.some.inj h)
      exact (returnStatic_timed _ _ _ _).edits
    · dsimp only at h
      split at h
      · obtain ⟨rfl, rfl⟩ := Prod.mk.inj (Option.some.inj h)
        exact (returnStatic_timed _ _ _ _).edits
      · obtain ⟨l, hl, hdone⟩ := Option.map_eq_some_iff.mp h
        have hs : s' = (putDone text our now duct _ l).2 := (congrArg Prod.snd hdone).symm
        rw [hs]
        exact ((updateTimeout_timed _ _ _ _ _ _).edits.mono Edit.Quiet.loud).trans (putDone_edits (putLoop_edits hl))

/-- No `%delete` is among the requests of a PUT. -/
def NoDelete (roof : Roof) (request : Request) : Prop :=
  ∀ body reqs, request.body = some body →
    roof.parseChannelRequest (findChannelMode "PUT" request.headerList) body = .ok reqs → .delete ∉ reqs

/-- A PUT whose loop leaves the timers to the moves before it. -/
theorem onPutRequest_timed_of (hloop : ∀ body reqs l, request.body = some body →
      roof.parseChannelRequest (findChannelMode "PUT" request.headerList) body = .ok reqs →
      let r := updateTimeoutTimerFor now duct (findChannelMode "PUT" request.headerList) identity cid [] s
      putLoop our now duct cid (identity.source our) reqs ⟨r.2, [], ∅, r.1⟩ = some l →
      TimedTo Edit.Loud r.2 [] l.state ∧ (∀ ts, behn l.moves ts = behn r.1 ts) ∧ ∀ m ∈ l.gallMoves, Untimed m)
    (h : onPutRequest text roof our now duct cid identity request s = some (moves, s')) :
      TimedTo Edit.Loud s moves s' := by
  unfold onPutRequest at h
  split at h
  · obtain ⟨rfl, rfl⟩ := Prod.mk.inj (Option.some.inj h)
    exact returnStatic_timed _ _ _ _
  · split at h
    · obtain ⟨rfl, rfl⟩ := Prod.mk.inj (Option.some.inj h)
      exact returnStatic_timed _ _ _ _
    · rename_i body hbody
      dsimp only at h
      split at h
      · obtain ⟨rfl, rfl⟩ := Prod.mk.inj (Option.some.inj h)
        exact returnStatic_timed _ _ _ _
      · rename_i reqs hreqs
        obtain ⟨l, hl, hdone⟩ := Option.map_eq_some_iff.mp h
        obtain ⟨ht, hmoves, hgall⟩ := hloop body reqs l hbody hreqs hl
        have hup := (updateTimeout_timed now duct
          (findChannelMode "PUT" request.headerList) identity cid s).mono Edit.Quiet.loud
        obtain ⟨hm, hs⟩ := Prod.ext_iff.mp hdone
        obtain ⟨http, hhttp, ⟨he, hc⟩ | ⟨he, hc⟩⟩ := putDone_spec text our now duct
          (updateTimeoutTimerFor now duct (findChannelMode "PUT" request.headerList) identity cid [] s).2 l
        · rw [hs] at hc
          have he : moves = _ := hm.symm.trans he
          refine ((hup.trans ht).trans (.refl hc untimed_nil)).congr fun ts => ?_
          rw [he, behn_append, behn_append, behn_untimed fun m hm => hgall m (List.mem_reverse.mp hm),
            behn_untimed hhttp, hmoves, List.append_nil, List.append_nil]
        · rw [hs] at hc
          have he : moves = _ := hm.symm.trans he
          refine (hup.trans (.refl hc untimed_nil)).congr fun ts => ?_
          rw [he, behn_append, behn_untimed hhttp, hmoves, List.append_nil]

theorem onPutRequest_timed (hno : NoDelete roof request)
    (h : onPutRequest text roof our now duct cid identity request s = some (moves, s')) :
      TimedTo Edit.Loud s moves s' :=
  onPutRequest_timed_of (fun body reqs _ hbody hreqs hl =>
    have ⟨ht, hmoves, hgall⟩ := putLoop_timed (hno body reqs hbody hreqs) hl
    ⟨ht, fun _ => by rw [hmoves], hgall untimed_nil⟩) h

/-! ### Listening -/

theorem cancelListener_spec (text : Text) (our : Ship) (now : Da) (cid : String) (c : Channel) (s : ServerState) :
    (cancelListener text our now cid c s).2.channels = ⟨s.session, dropListener s.ductToKey c.state⟩ ∧
      ∀ ts, behn (cancelListener text our now cid c s).1 ts = match c.state with
        | .inl t => ts.erase ⟨cid, t⟩
        | .inr _ => ts := by
  unfold cancelListener
  cases c.state with
  | inl t => exact ⟨rfl, fun ts => rfl⟩
  | inr d =>
    have h := handleResponse_timed text our now d .cancel
      { s with ductToKey := s.ductToKey.erase d }
    refine ⟨h.1, fun ts => ?_⟩
    rw [behn_append, behn_untimed (heartbeatCancel_untimed cid c), behn_untimed h.2]

/-- The acknowledgement of a GET leaves the ducts, and of the channel its timer or listener. -/
theorem acknowledge_spec {last : Option ℕ}
    (h : last.elim (some s) (fun n => acknowledgeEvents now cid n s) = some s') :
    s'.ductToKey = s.ductToKey ∧ (∃ es : List Edit, (∀ e ∈ es, e.Loud) ∧ ∀ k ts, k.session = s.session →
      Replay.follow Edit.timed (k, ts) es = some (⟨s'.session, k.ductToKey⟩, ts)) ∧
      ∀ c, s.session.lookup cid = some c →
        ∃ c', s'.session.lookup cid = some c' ∧ c'.state = c.state ∧ c'.mode = c.mode := by
  cases last with
  | none =>
    obtain rfl := Option.some.inj h
    exact ⟨rfl, ⟨[], fun _ he => absurd he List.not_mem_nil, fun k ts hk => by rw [← hk]; rfl⟩,
      fun c hc => ⟨c, hc, rfl, rfl⟩⟩
  | some n =>
    obtain ⟨session, hj, rfl⟩ := Option.map_eq_some_iff.mp h
    obtain ⟨c, hc, rfl⟩ := Option.map_eq_some_iff.mp hj
    refine ⟨rfl, ⟨[.change cid (.ack now n)], fun _ he => List.mem_singleton.mp he ▸ trivial, fun k ts hk => ?_⟩,
      fun c' hc' => ?_⟩
    · simp only [Replay.follow, Edit.timed, Edit.turn, hk, hc, Option.map_some, Option.bind_some]
      rfl
    · obtain rfl : c = c' := Option.some.inj (hc.symm.trans hc')
      exact ⟨_, AList.lookup_insert _, rfl, rfl⟩

/-- **A GET listens, on a duct that nobody listens on.** -/
theorem onGetRequest_timed {sid : ℕ} (hd : duct ∉ s.ductToKey)
    (h : onGetRequest text roof our now duct cid sid identity request s = some (moves, s')) :
      TimedTo (Edit.On duct) s moves s' := by
  unfold onGetRequest at h
  split at h
  · obtain ⟨rfl, rfl⟩ := Prod.mk.inj (Option.some.inj h)
    exact returnStatic_timed _ _ _ _
  · rename_i c hc
    split at h
    · obtain ⟨rfl, rfl⟩ := Prod.mk.inj (Option.some.inj h)
      exact returnStatic_timed _ _ _ _
    · split at h
      · obtain ⟨rfl, rfl⟩ := Prod.mk.inj (Option.some.inj h)
        exact returnStatic_timed _ _ _ _
      · simp only [Option.bind_eq_bind, Option.bind_eq_some_iff, Option.some.injEq, Prod.mk.injEq] at h
        obtain ⟨s1, hack, replay, -, sessions, -, session, hsession, rfl, rfl⟩ := h
        obtain ⟨hcancel, hbehn⟩ := cancelListener_spec text our now cid c s
        obtain ⟨hkey, ⟨es, hloud, hes⟩, hkeep⟩ := acknowledge_spec hack
        obtain ⟨hresp, hhttp⟩ := handleResponse_timed text our now duct
          (.start ⟨200, [("content-type", "text/event-stream"), ("cache-control", "no-cache"),
            ("connection", "keep-alive")]⟩
            (some (replayOcts replay)) false) s1
        have hses : (cancelListener text our now cid c s).2.session = s.session := congrArg Channels.session hcancel
        have hkey' : (cancelListener text our now cid c s).2.ductToKey = dropListener s.ductToKey c.state :=
          congrArg Channels.ductToKey hcancel
        obtain ⟨c', hc', hstate, hmode⟩ := hkeep c (by rw [hses]; exact hc)
        obtain ⟨c'', hc'', rfl⟩ := Option.map_eq_some_iff.mp hsession
        have hrses : (handleResponse text our now duct _ s1).2.session = s1.session := congrArg Channels.session hresp
        have hrkey :
          (handleResponse text our now duct _ s1).2.ductToKey = s1.ductToKey := congrArg Channels.ductToKey hresp
        rw [hrses] at hc''
        obtain rfl : c' = c'' := Option.some.inj (hc'.symm.trans hc'')
        intro ts
        refine ⟨es ++ [.listen cid duct ⟨now + heartbeatTime, duct⟩], fun e he => ?_, ?_⟩
        · rcases List.mem_append.mp he with he | he
          · exact (hloud e he).on duct
          · rw [List.mem_singleton.mp he]
            rfl
        have hbeat : ∀ ts, behnMove ts (setHeartbeatMove duct cid (now + heartbeatTime)) = ts := fun _ => rfl
        rw [Replay.follow_append, hes s.channels ts hses.symm, Option.bind_some, Replay.follow, Edit.timed]
        simp only [Edit.turn, Edit.timers, Channels.rest, ServerState.channels, hc', hd, if_false, Option.map_some,
          Option.bind_some,
          Replay.follow, hstate, hrses, hrkey, hkey, hkey', ← hmode]
        rw [behn, List.foldl_cons, hbeat]
        change _ = some (_, behn _ ts)
        rw [behn_append, behn_untimed hhttp, hbehn]
        cases c.state <;> rfl

/-! ### Events -/

theorem sendEvent_untimed (c : Channel) (id : ℕ) (tape : String) : ∀ m ∈ sendEvent c id tape, Untimed m := by
  unfold sendEvent
  split
  · exact untimed_nil
  · exact untimed_one fun _ => rfl

theorem channelEventToTape_untimed {mode : Mode} {event : ChannelEvent} {said : List Move × String}
    (h : channelEventToTape roof duct mode rid event = some (some said)) : ∀ m ∈ said.1, Untimed m := by
  unfold channelEventToTape channelEventToJson at h
  split at h
  · split at h
    · split at h
      · obtain ⟨j, -, rfl⟩ := Option.map_eq_some_iff.mp (Option.some.inj h)
        exact untimed_nil
      · split at h
        · exact absurd (Option.some.inj h).symm (Option.some_ne_none _)
        · obtain ⟨j, -, hj⟩ := Option.map_eq_some_iff.mp h
          obtain rfl := Option.some.inj hj
          exact untimed_one fun _ => rfl
    · obtain rfl := Option.some.inj (Option.some.inj h)
      exact untimed_nil
  · obtain rfl := Option.some.inj (Option.some.inj h)
    exact untimed_nil

/-- What an event does to its channel, where it is recorded at all: it is recorded if it has
a text, and the subscription is ended if it has none or finds the channel clogged. -/
inductive Emitted (now : Da) (rid : ℕ) (event : ChannelEvent) (c : Channel) : List Change → Prop where
  | recorded : (event.isFact && c.clogged now rid) = false → Emitted now rid event c [.record rid event]
  | clogged : (event.isFact && c.clogged now rid) = true → Emitted now rid event c [.record rid event, .quit rid]
  | unsaid : Emitted now rid event c [.quit rid]

theorem kickSubscription_cases {c : Channel} {ms : List Move} (hms : ∀ m ∈ ms, Untimed m)
    (h : kickSubscription roof our duct cid rid c ms s = some (moves, s')) :
    (∀ m ∈ moves, Untimed m) ∧ rid ∈ c.subscriptions ∧
      s' = { s with session := s.session.insert cid (c.quit rid) } := by
  unfold kickSubscription at h
  simp only [Option.bind_eq_bind, Option.bind_eq_some_iff, Option.some.injEq, Prod.mk.injEq] at h
  obtain ⟨sub, hsub, said, -, p, -, rfl, rfl⟩ := h
  refine ⟨fun m hm => ?_, AList.lookup_isSome.mp (by rw [hsub]; rfl), rfl⟩
  rcases List.mem_append.mp (List.mem_reverse.mp hm) with hm | hm
  · exact sendEvent_untimed _ _ _ m hm
  · exact (List.mem_cons.mp hm).elim (fun he => he ▸ fun _ => rfl) (hms m)

/-- **An event.** Where there is the channel, and its subscription is still there or the
event is a poke's, it does to the channel what `Emitted` says. -/
theorem emitEvent_cases {sign : Sign} (h : emitEvent roof our now duct cid rid sign s = some (moves, s')) :
    (∀ m ∈ moves, Untimed m) ∧
      (s' = s ∨ ∃ c event chs, s.session.lookup cid = some c ∧ (sign.isPokeAck ∨ rid ∈ c.subscriptions) ∧
        signToChannelEvent roof sign c rid = some event ∧ Emitted now rid event c chs ∧
        s' = { s with session := s.session.insert cid (chs.foldl (fun c ch => ch.on c) c) }) := by
  unfold emitEvent at h
  split at h
  · obtain ⟨rfl, rfl⟩ := Prod.mk.inj (Option.some.inj h)
    exact ⟨untimed_one fun _ => rfl, .inl rfl⟩
  · rename_i c hc
    split at h
    · obtain ⟨rfl, rfl⟩ := Prod.mk.inj (Option.some.inj h)
      exact ⟨untimed_nil, .inl rfl⟩
    · rename_i hsub
      have hsub : sign.isPokeAck ∨ rid ∈ c.subscriptions := by
        by_contra hno
        exact hsub (not_or.mp hno)
      split at h
      · obtain ⟨rfl, rfl⟩ := Prod.mk.inj (Option.some.inj h)
        exact ⟨untimed_nil, .inl rfl⟩
      · rename_i event hevent
        split at h
        · exact absurd h.symm (Option.some_ne_none _)
        · obtain ⟨hm, -, hs⟩ := kickSubscription_cases untimed_nil h
          exact ⟨hm, .inr ⟨c, event, _, hc, hsub, hevent, .unsaid, hs⟩⟩
        · rename_i cache tape hsaid
          have hms : ∀ m ∈ sendEvent c c.nextId tape ++ cache, Untimed m := fun m hm =>
            (List.mem_append.mp hm).elim (sendEvent_untimed _ _ _ m) (channelEventToTape_untimed hsaid m)
          dsimp only at h
          split at h
          · rename_i hclog
            obtain ⟨hm, -, hs⟩ := kickSubscription_cases hms h
            exact ⟨hm, .inr ⟨c, event, _, hc, hsub, hevent, .clogged hclog, hs⟩⟩
          · rename_i hclog
            obtain ⟨rfl, rfl⟩ := Prod.mk.inj (Option.some.inj h)
            exact ⟨fun m hm => hms m (List.mem_reverse.mp hm),
              .inr ⟨c, event, _, hc, hsub, hevent, .recorded (Bool.not_eq_true _ ▸ hclog), rfl⟩⟩

theorem changes_timed {c : Channel} (hc : s.session.lookup cid = some c) (chs : List Change) (hne : chs ≠ []) :
    TimedTo Edit.Loud s [] { s with session := s.session.insert cid (chs.foldl (fun c ch => ch.on c) c) } := by
  induction chs generalizing s c with
  | nil => exact absurd rfl hne
  | cons ch chs ih =>
    have hone : TimedTo Edit.Loud s [] { s with session := s.session.insert cid (ch.on c) } := by
      have hj : jab s.session cid ch.on = some (s.session.insert cid (ch.on c)) := by
        rw [jab, hc, Option.map_some]
      exact change_timed cid ch trivial hj rfl
    by_cases hnil : chs = []
    · subst hnil
      exact hone
    · have hrest := ih (s := { s with session := s.session.insert cid (ch.on c) }) (AList.lookup_insert _) hnil
      rw [AList.insert_insert] at hrest
      exact hone.trans hrest

theorem emitEvent_timed {sign : Sign} (h : emitEvent roof our now duct cid rid sign s = some (moves, s')) :
    TimedTo Edit.Loud s moves s' := by
  obtain ⟨hm, rfl | ⟨c, event, chs, hc, -, -, hemit, rfl⟩⟩ := emitEvent_cases h
  · exact .refl rfl hm
  · refine (changes_timed hc chs ?_).congr fun ts => behn_untimed hm ts
    cases hemit <;> exact List.cons_ne_nil _ _

theorem onGallResponse_timed {extra : Option (Ship × String × Option Ship)} {sign : Sign}
    (h : onGallResponse roof our now duct cid rid extra sign s = some (moves, s')) : TimedTo Edit.Loud s moves s' := by
  unfold onGallResponse at h
  split at h
  · exact .idle h rfl (untimed_one fun _ => rfl)
  · exact .idle h rfl (untimed_one fun _ => rfl)
  · exact emitEvent_timed h

theorem onChannelHeartbeat_timed (h : onChannelHeartbeat text our now duct cid s = some (moves, s')) :
    TimedTo Edit.Quiet s moves s' := by
  unfold onChannelHeartbeat at h
  have hresp := handleResponse_timed text our now duct (.continue (some ":\n") false) s
  simp only [Option.bind_eq_bind, Option.bind_eq_some_iff, Option.some.injEq, Prod.mk.injEq] at h
  obtain ⟨session, hs, rfl, rfl⟩ := h
  have hses : (handleResponse text our now duct (.continue (some ":\n") false) s).2.session = s.session :=
    congrArg Channels.session hresp.1
  rw [hses] at hs
  refine (change_timed cid (.beat ⟨now + heartbeatTime, duct⟩) trivial hs ?_).congr fun ts => ?_
  · exact congrArg (Channels.mk session) (congrArg Channels.ductToKey hresp.1)
  · rw [behn_append, behn_untimed hresp.2]
    rfl

end Eyre
end Ursockets
