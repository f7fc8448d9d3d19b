/-
# Runs of the channel system

A server from its start: requests, their ends, timers that fire, events of agents,
restarts of the runtime and ends of sessions, in any order. What the timer vane has
pending is kept beside the state. A request is on a duct of its own: `http.c` puts the
numbers of its server, its connection and the request into it.

Key definitions: `Sys`, `Task`, `turn`, `Listed`, `Booked`, `Timely`.
Key theorems: `ductToKey_inverse`, `timely_of_run`.
-/
import Ursockets.EyrePut
import Mathlib.Data.Multiset.Filter

namespace Ursockets
namespace Eyre

/-! ### Requests -/

section requests

variable {text : Text} {roof : Roof} {our : Ship} {now : Da} {duct : Duct} {s s' : ServerState} {moves : List Move}
  {identity : Identity} {request : Request} {site : ChannelUrl} {eny : Eny} {secure : Bool} {address sid : ℕ}

theorem sessionForRequest_channels {eny : Eny} {found : ℕ ⊕ ℕ × Identity × List Move}
    (h : sessionForRequest text our now duct eny request s = some (found, s')) :
    s'.channels = s.channels ∧ ∀ m ∈ found.elim (fun _ => []) fun r => r.2.2, Untimed m := by
  unfold sessionForRequest at h
  split at h
  · obtain ⟨⟨⟨key, i, som⟩, s1⟩, hstart, hr⟩ := Option.map_eq_some_iff.mp h
    obtain ⟨rfl, rfl⟩ := Prod.mk.inj hr
    unfold startSession at hstart
    simp only [Option.bind_eq_bind, Option.bind_eq_some_iff, Option.some.injEq, Prod.mk.injEq] at hstart
    obtain ⟨-, -, -, -, ⟨-, -, rfl⟩, rfl⟩ := hstart
    refine ⟨rfl, fun m hm => ?_⟩
    rw [Sum.elim_inr] at hm
    split at hm
    · exact untimed_one (fun _ => rfl) m hm
    · exact absurd hm List.not_mem_nil
  · split at h
    · obtain ⟨rfl, rfl⟩ := Prod.mk.inj (Option.some.inj h)
      exact ⟨rfl, untimed_nil⟩
    · split at h <;> obtain ⟨rfl, rfl⟩ := Prod.mk.inj (Option.some.inj h) <;> exact ⟨rfl, untimed_nil⟩

/-- The state of a channel, if it is there. -/
def Channels.stateOf (k : Channels) (cid : String) : Option (Timer ⊕ Duct) := (k.session.lookup cid).map Channel.state

/-- No PUT deletes a channel but one that somebody listens to. -/
def Tidy (roof : Roof) (site : ChannelUrl) (request : Request) (k : Channels) : Prop :=
  request.method ≠ "GET" → ∀ cid, site request.url = some cid →
    NoDelete roof request ∨ ∃ d, k.stateOf cid = some (.inr d)

theorem onPutRequest_tidy {cid : String} (hsite : site request.url = some cid) (hput : request.method ≠ "GET")
    (ht : Tidy roof site request s.channels)
    (h : onPutRequest text roof our now duct cid identity request s = some (moves, s')) :
      TimedTo Edit.Loud s moves s' := by
  rcases ht hput cid hsite with hno | ⟨d, hd⟩
  · exact onPutRequest_timed hno h
  · obtain ⟨c, hc, hst⟩ := Option.map_eq_some_iff.mp hd
    exact onPutRequest_listened hc hst h

theorem handleChannelRequest_edits (hd : duct ∉ s.ductToKey)
    (h : handleChannelRequest text roof our now duct site sid identity request s = some (moves, s')) :
    EditsTo (Edit.On duct) s s' ∧ (Tidy roof site request s.channels → TimedTo (Edit.On duct) s moves s') := by
  unfold handleChannelRequest at h
  split at h
  · obtain ⟨rfl, rfl⟩ := Prod.mk.inj (Option.some.inj h)
    exact ⟨(returnStatic_timed _ _ _ _).edits, fun _ => returnStatic_timed _ _ _ _⟩
  · rename_i cid hsite
    have hput : ∀ {s'}, request.method ≠ "GET" →
        onPutRequest text roof our now duct cid identity request s = some (moves, s') →
        EditsTo (Edit.On duct) s s' ∧ (Tidy roof site request s.channels → TimedTo (Edit.On duct) s moves s') :=
      fun hne h => ⟨(onPutRequest_edits h).mono (Edit.Loud.on duct),
        fun ht => (onPutRequest_tidy hsite hne ht h).mono (Edit.Loud.on duct)⟩
    split at h
    · rename_i hm
      exact hput (by rw [hm]; decide) h
    · split at h
      · exact ⟨(onGetRequest_timed hd h).edits, fun _ => onGetRequest_timed hd h⟩
      · rename_i hm
        split at h
        · exact hput hm h
        · obtain ⟨rfl, rfl⟩ := Prod.mk.inj (Option.some.inj h)
          exact ⟨(returnStatic_timed _ _ _ _).edits, fun _ => returnStatic_timed _ _ _ _⟩

/-- **A request to the channels** edits them, and if it deletes no channel with a timer, its moves
take the timers along. -/
theorem channelRequest_edits (hd : duct ∉ s.ductToKey)
    (h : channelRequest text roof our now duct site eny secure address request s = some (moves, s')) :
    EditsTo (Edit.On duct) s s' ∧ (Tidy roof site request s.channels → TimedTo (Edit.On duct) s moves s') := by
  unfold channelRequest at h
  simp only [Option.bind_eq_bind, Option.bind_eq_some_iff] at h
  obtain ⟨⟨found, s1⟩, hfound, h⟩ := h
  obtain ⟨hc, hsom⟩ := sessionForRequest_channels hfound
  cases found with
  | inl invalid =>
    obtain ⟨hm, hs⟩ := Prod.ext_iff.mp (Option.some.inj h)
    let conn : OutstandingConnection := ⟨.channel, ⟨false, secure, address, request⟩, invalid, .fake 0, none, 0⟩
    have hresp := handleResponse_timed text our now duct
      (.start ⟨401, [("set-cookie", sessionCookieString text our invalid none), ("content-length", "16")]⟩
        (some "bad session auth") true) { s1 with connections := s1.connections.insert duct conn }
    have ht :
      TimedTo (Edit.On duct) s moves s' := .refl ((congrArg ServerState.channels hs.symm).trans (hresp.1.trans hc))
      ((show _ = moves from hm) ▸ hresp.2)
    exact ⟨ht.edits, fun _ => ht⟩
  | inr r =>
    obtain ⟨⟨ms, s2⟩, hreq, hr⟩ := Option.map_eq_some_iff.mp h
    obtain ⟨rfl, rfl⟩ := Prod.mk.inj hr
    have hkey : s1.ductToKey = s.ductToKey := congrArg Channels.ductToKey hc
    let conn : OutstandingConnection :=
      ⟨.channel, ⟨r.2.1 = .ours, secure, address, request⟩, r.1, r.2.1, none, 0⟩
    have hfirst :
      TimedTo (Edit.On duct) s r.2.2 { s1 with connections := s1.connections.insert duct conn } := .refl hc hsom
    have hd1 : duct ∉ s1.ductToKey := by
      rw [hkey]
      exact hd
    obtain ⟨he, ht⟩ := handleChannelRequest_edits
      (s := { s1 with connections := s1.connections.insert duct conn }) hd1 hreq
    refine ⟨hfirst.edits.trans he, fun htidy => hfirst.trans (ht ?_)⟩
    have hsame : ServerState.channels { s1 with connections := s1.connections.insert duct conn } = s.channels := hc
    rw [hsame]
    exact htidy

end requests

variable (text : Text) (our : Ship) (site : ChannelUrl)

/-! ### The system -/

/-- The state, the timers of channels that are pending, and the ducts of requests so far. -/
structure Sys where
  state : ServerState
  timers : Multiset Pend
  used : List Duct

/-- A server that starts. -/
def Sys.start : Sys := ⟨emptyState, 0, []⟩

/-- What happens to the server. What else it does leaves its channels. -/
inductive Task where
  | request (roof : Roof) (now : Da) (duct : Duct) (eny : Eny) (secure : Bool) (address : ℕ) (request : Request)
  | cancelRequest (now : Da) (duct : Duct)
  | wake (now : Da) (timer : Pend) (error : Bool)
  | heartbeat (now : Da) (duct : Duct) (channelId : String)
  | unto (roof : Roof) (now : Da) (duct : Duct) (channelId : String) (requestId : ℕ)
      (extra : Option (Ship × String × Option Ship)) (sign : Sign)
  | born (now : Da)
  | trim
  | closeSession (sessionId : ℕ) (all : Bool)
  | other (state : ServerState)

/-- The moves go out and the state is the new one. -/
def Sys.give (a : Sys) (r : List Move × ServerState) : Sys := { a with state := r.2, timers := behn r.1 a.timers }

/-- One event, which is undone if it crashes. A timer that fires is not pending any more, and if
it comes with an error, it is only logged. -/
def turn (a : Sys) : Task → Option Sys
  | .request roof now duct eny secure address request =>
    if duct ∈ a.used then none
    else (channelRequest text roof our now duct site eny secure address request a.state).map
      (Sys.give { a with used := duct :: a.used })
  | .cancelRequest now duct => (cancelRequest our now duct a.state).map a.give
  | .wake now timer error =>
    if timer ∈ a.timers ∧ timer.timer.date ≤ now then
      let a := { a with timers := a.timers.erase timer }
      some (if error then a else a.give (discardChannel our timer.channelId true a.state))
    else none
  | .heartbeat now duct channelId => (onChannelHeartbeat text our now duct channelId a.state).map a.give
  | .unto roof now duct channelId requestId extra sign =>
    (onGallResponse roof our now duct channelId requestId extra sign a.state).map a.give
  | .born now => (born our now a.state).map a.give
  | .trim => some (a.give (trim our a.state))
  | .closeSession sessionId all => some (a.give (closeSession our sessionId all a.state))
  | .other s => if s.channels = a.state.channels then some { a with state := s } else none

/-! ### Who listens -/

/-- The map from ducts is the inverse of the listening states. -/
def Listed (k : Channels) : Prop :=
  ∀ d cid, k.ductToKey.lookup d = some cid ↔ ∃ c, k.session.lookup cid = some c ∧ c.state = .inr d

theorem state_iff (c : Channel) (d : Duct) : (∃ c', some c = some c' ∧ c'.state = .inr d) ↔ c.state = .inr d :=
  ⟨fun ⟨_, he, hs⟩ => Option.some.inj he ▸ hs, fun hs => ⟨c, rfl, hs⟩⟩

theorem Listed.lookup {k : Channels} {c : Channel} {cid : String} {d : Duct} (h : Listed k)
    (hc : k.session.lookup cid = some c) : k.ductToKey.lookup d = some cid ↔ c.state = .inr d := by
  rw [h d cid, hc, state_iff]

theorem Listed.absent {k : Channels} {cid : String} {d : Duct} (h : Listed k) (hc : k.session.lookup cid = none) :
    k.ductToKey.lookup d ≠ some cid := by
  rw [Ne, h d cid, hc]
  exact fun ⟨_, he, _⟩ => Option.some_ne_none _ he.symm

/-- Who is listened to stays the same for all channels but one. -/
theorem Listed.at {k k' : Channels} (h : Listed k) (cid : String)
    (hs : ∀ x, x ≠ cid → k'.session.lookup x = k.session.lookup x)
    (hd : ∀ d x, x ≠ cid → (k'.ductToKey.lookup d = some x ↔ k.ductToKey.lookup d = some x))
    {o : Option Channel} (ho : k'.session.lookup cid = o)
    (hc : ∀ d, k'.ductToKey.lookup d = some cid ↔ ∃ c, o = some c ∧ c.state = .inr d) : Listed k' := by
  intro d x
  by_cases hx : x = cid
  · rw [hx, ho]
    exact hc d
  · rw [hd d x hx, h d x, hs x hx]

theorem lookup_dropListener {k : Channels} {c : Channel} {cid : String} (h : Listed k)
    (hc : k.session.lookup cid = some c) (d : Duct) (x : String) :
    (dropListener k.ductToKey c.state).lookup d = some x ↔ x ≠ cid ∧ k.ductToKey.lookup d = some x := by
  cases hs : c.state with
  | inl t =>
    refine ⟨fun hl => ⟨fun hx => ?_, hl⟩, And.right⟩
    have hno := (h.lookup hc).mp (hx ▸ hl : k.ductToKey.lookup d = some cid)
    exact absurd (hs.symm.trans hno) Sum.inl_ne_inr
  | inr d' =>
    have hd' : k.ductToKey.lookup d' = some cid := (h.lookup hc).mpr hs
    unfold dropListener
    dsimp only
    by_cases hd : d = d'
    · rw [hd, AList.lookup_erase, hd']
      exact iff_of_false (Option.some_ne_none _).symm fun ⟨h1, h2⟩ => h1 (Option.some.inj h2).symm
    · rw [AList.lookup_erase_ne hd]
      refine ⟨fun hl => ⟨fun hx => hd ?_, hl⟩, And.right⟩
      have hst := (h.lookup hc).mp (hx ▸ hl : k.ductToKey.lookup d = some cid)
      exact (Sum.inr.inj (hs.symm.trans hst)).symm

/-- **Each edit keeps the map from ducts the inverse of the listening states.** -/
theorem Listed.turn {k k' : Channels} {e : Edit} (h : Listed k) (he : e.turn k = some k') : Listed k' := by
  cases e with
  | create cid mode identity t now =>
    unfold Edit.turn at he
    dsimp only at he
    split at he
    · rename_i hc
      obtain rfl := Option.some.inj he
      refine h.at cid (fun x hx => AList.lookup_insert_ne hx) (fun _ _ _ => Iff.rfl) (AList.lookup_insert _) fun d => ?_
      rw [state_iff]
      exact iff_of_false (h.absent hc) Sum.inl_ne_inr
    · exact absurd he.symm (Option.some_ne_none _)
  | change cid ch =>
    obtain ⟨c, hc, rfl⟩ := Option.map_eq_some_iff.mp he
    refine h.at cid (fun x hx => AList.lookup_insert_ne hx) (fun _ _ _ => Iff.rfl) (AList.lookup_insert _) fun d => ?_
    rw [state_iff, ch.on_state]
    exact h.lookup hc
  | renew cid t =>
    unfold Edit.turn at he
    dsimp only at he
    split at he
    · rename_i c hc
      split at he
      · rename_i hl
        obtain rfl := Option.some.inj he
        refine h.at cid (fun x hx => AList.lookup_insert_ne hx) (fun _ _ _ => Iff.rfl) (AList.lookup_insert _)
          fun d => ?_
        rw [state_iff]
        refine iff_of_false (fun hd => ?_) Sum.inl_ne_inr
        rw [(h.lookup hc).mp hd] at hl
        exact absurd hl Bool.false_ne_true
      · exact absurd he.symm (Option.some_ne_none _)
    · exact absurd he.symm (Option.some_ne_none _)
  | park cid d t =>
    unfold Edit.turn at he
    dsimp only at he
    split at he
    · rename_i c hc
      split at he
      · rename_i hl
        obtain rfl := Option.some.inj he
        have hst : c.state = .inr d := (h.lookup hc).mp hl.2
        have hdrop : ∀ d' x, (k.ductToKey.erase d).lookup d' = some x ↔ x ≠ cid ∧ k.ductToKey.lookup d' = some x := by
          have := lookup_dropListener h hc
          rwa [hst] at this
        refine h.at cid (fun x hx => AList.lookup_insert_ne hx) (fun d' x hx => ?_) (AList.lookup_insert _) fun d' => ?_
        · rw [hdrop]
          exact and_iff_right hx
        · rw [state_iff, hdrop]
          exact iff_of_false (fun hx => hx.1 rfl) Sum.inl_ne_inr
      · exact absurd he.symm (Option.some_ne_none _)
    · exact absurd he.symm (Option.some_ne_none _)
  | listen cid d beat =>
    unfold Edit.turn at he
    dsimp only at he
    split at he
    · exact absurd he.symm (Option.some_ne_none _)
    · rename_i hd
      obtain ⟨c, hc, rfl⟩ := Option.map_eq_some_iff.mp he
      have hfree : k.ductToKey.lookup d = none := AList.lookup_eq_none.mpr hd
      have hnew : ∀ d' x, ((dropListener k.ductToKey c.state).insert d cid).lookup d' = some x ↔
          if d' = d then cid = x else x ≠ cid ∧ k.ductToKey.lookup d' = some x := by
        intro d' x
        split
        · rename_i hdd
          rw [hdd, AList.lookup_insert, Option.some.injEq]
        · rename_i hdd
          rw [AList.lookup_insert_ne hdd]
          exact lookup_dropListener h hc d' x
      refine h.at cid (fun x hx => AList.lookup_insert_ne hx) (fun d' x hx => ?_) (AList.lookup_insert _) fun d' => ?_
      · rw [hnew]
        split
        · rename_i hdd
          rw [hdd, hfree]
          exact iff_of_false hx.symm (Option.some_ne_none _).symm
        · exact and_iff_right hx
      · rw [state_iff, hnew]
        split
        · rename_i hdd
          exact iff_of_true rfl (congrArg Sum.inr hdd.symm)
        · rename_i hdd
          exact iff_of_false (fun hx => hx.1 rfl) fun hx => hdd (Sum.inr.inj hx).symm
  | discard cid =>
    obtain ⟨c, hc, rfl⟩ := Option.map_eq_some_iff.mp he
    refine h.at cid (fun x hx => AList.lookup_erase_ne hx) (fun d x hx => ?_) (AList.lookup_erase _ _) fun d => ?_
    · rw [lookup_dropListener h hc]
      exact and_iff_right hx
    · rw [lookup_dropListener h hc]
      exact iff_of_false (fun hx => hx.1 rfl) fun ⟨_, hx, _⟩ => Option.some_ne_none _ hx.symm

theorem Listed.edits {A : Edit → Prop} {s s' : ServerState} (h : Listed s.channels) (he : EditsTo A s s') :
    Listed s'.channels := by
  obtain ⟨es, -, hes⟩ := he
  exact Replay.follow_inv (fun _ k => Listed k) h (fun _ _ _ _ hk ht => hk.turn ht) hes

/-- The ducts that are listened on after an edit were so before, or the edit is of the kind that begins there. -/
theorem Edit.mem_ducts {k k' : Channels} {e : Edit} {d d' : Duct} (hk : e.On d) (he : e.turn k = some k')
    (hd : d' ∈ k'.ductToKey) : d' ∈ k.ductToKey ∨ d' = d := by
  have hdrop : ∀ st, d' ∈ dropListener k.ductToKey st → d' ∈ k.ductToKey := fun st h => by
    cases st with
    | inl t => exact h
    | inr x => exact (AList.mem_erase.mp h).2
  cases e with
  | create cid mode identity t now =>
    unfold Edit.turn at he
    dsimp only at he
    split at he
    · obtain rfl := Option.some.inj he
      exact .inl hd
    · exact absurd he.symm (Option.some_ne_none _)
  | change cid ch =>
    obtain ⟨c, -, rfl⟩ := Option.map_eq_some_iff.mp he
    exact .inl hd
  | renew cid t =>
    unfold Edit.turn at he
    dsimp only at he
    split at he
    · split at he
      · obtain rfl := Option.some.inj he
        exact .inl hd
      · exact absurd he.symm (Option.some_ne_none _)
    · exact absurd he.symm (Option.some_ne_none _)
  | park cid x t =>
    unfold Edit.turn at he
    dsimp only at he
    split at he
    · split at he
      · obtain rfl := Option.some.inj he
        exact .inl (AList.mem_erase.mp hd).2
      · exact absurd he.symm (Option.some_ne_none _)
    · exact absurd he.symm (Option.some_ne_none _)
  | listen cid x beat =>
    unfold Edit.turn at he
    dsimp only at he
    split at he
    · exact absurd he.symm (Option.some_ne_none _)
    · obtain ⟨c, -, rfl⟩ := Option.map_eq_some_iff.mp he
      exact ((AList.mem_insert _).mp hd).elim (fun h => .inr (h.trans hk)) fun h => .inl (hdrop _ h)
  | discard cid =>
    obtain ⟨c, -, rfl⟩ := Option.map_eq_some_iff.mp he
    exact .inl (hdrop _ hd)

theorem EditsTo.mem_ducts {s s' : ServerState} {d d' : Duct} (h : EditsTo (Edit.On d) s s') (hd : d' ∈ s'.ductToKey) :
    d' ∈ s.ductToKey ∨ d' = d := by
  obtain ⟨es, ha, hes⟩ := h
  have hall : ∀ {es : List Edit} {k k' : Channels}, (∀ e ∈ es, e.On d) → Replay.follow Edit.turn k es = some k' →
      d' ∈ k'.ductToKey → d' ∈ k.ductToKey ∨ d' = d := by
    intro es
    induction es with
    | nil => exact fun _ h hd => .inl (Option.some.inj h ▸ hd)
    | cons e es ih =>
      intro k k' ha h hd
      obtain ⟨b, hb, h⟩ := Option.bind_eq_some_iff.mp h
      rcases ih (fun e he => ha e (List.mem_cons_of_mem _ he)) h hd with hd | hd
      · exact Edit.mem_ducts (ha e List.mem_cons_self) hb hd
      · exact .inr hd
  exact hall ha hes hd

/-- The events that are neither a request nor of an agent. -/
def Task.Quiet : Task → Prop
  | .request _ _ _ _ _ _ _ => False
  | .unto _ _ _ _ _ _ _ => False
  | _ => True

theorem turn_quiet {a b : Sys} {e : Task} (hq : e.Quiet) (h : turn text our site a e = some b) :
    EditsTo Edit.Quiet a.state b.state ∧ b.used = a.used := by
  cases e with
  | request roof now duct eny secure address request => exact hq.elim
  | cancelRequest now duct =>
    obtain ⟨r, hr, rfl⟩ := Option.map_eq_some_iff.mp h
    exact ⟨(cancelRequest_timed hr).1.edits, rfl⟩
  | wake now timer error =>
    unfold turn at h
    dsimp only at h
    split at h
    · obtain rfl := Option.some.inj h
      cases error with
      | true => exact ⟨.refl rfl, rfl⟩
      | false => exact ⟨discardChannel_edits our timer.channelId true a.state, rfl⟩
    · exact absurd h.symm (Option.some_ne_none _)
  | heartbeat now duct channelId =>
    obtain ⟨r, hr, rfl⟩ := Option.map_eq_some_iff.mp h
    exact ⟨(onChannelHeartbeat_timed hr).edits, rfl⟩
  | unto roof now duct channelId requestId extra sign => exact hq.elim
  | born now =>
    obtain ⟨r, hr, rfl⟩ := Option.map_eq_some_iff.mp h
    exact ⟨(cancelAll_timed hr).1.edits, rfl⟩
  | trim =>
    obtain rfl := Option.some.inj h
    exact ⟨(discardAll_timed our _ _).edits, rfl⟩
  | closeSession sessionId all =>
    obtain rfl := Option.some.inj h
    exact ⟨(closeSession_timed _ _ _).edits, rfl⟩
  | other s =>
    unfold turn at h
    dsimp only at h
    split at h
    · rename_i hs
      obtain rfl := Option.some.inj h
      exact ⟨.refl hs, rfl⟩
    · exact absurd h.symm (Option.some_ne_none _)

/-- A request that is taken is on a duct that is not used before. -/
theorem turn_request {a b : Sys} {roof : Roof} {now : Da} {duct : Duct} {eny : Eny} {secure : Bool} {address : ℕ}
    {request : Request} (h : turn text our site a (.request roof now duct eny secure address request) = some b) :
    duct ∉ a.used ∧ ∃ r, channelRequest text roof our now duct site eny secure address request a.state = some r ∧
      b = Sys.give { a with used := duct :: a.used } r := by
  unfold turn at h
  dsimp only at h
  split at h
  · exact absurd h.symm (Option.some_ne_none _)
  · rename_i hnew
    obtain ⟨r, hr, rfl⟩ := Option.map_eq_some_iff.mp h
    exact ⟨hnew, r, hr, rfl⟩

/-- What one event does to the channels: nobody begins to listen but on the duct of a request. -/
theorem turn_edits {a b : Sys} {e : Task} (hd : ∀ d ∈ a.state.ductToKey, d ∈ a.used)
    (h : turn text our site a e = some b) :
    (∃ d, EditsTo (Edit.On d) a.state b.state ∧ b.used = d :: a.used) ∨ EditsTo Edit.Loud a.state b.state ∧
      b.used = a.used := by
  by_cases hq : e.Quiet
  · obtain ⟨he, hu⟩ := turn_quiet text our site hq h
    exact .inr ⟨he.mono Edit.Quiet.loud, hu⟩
  · cases e with
    | request roof now duct eny secure address request =>
      obtain ⟨hnew, r, hr, rfl⟩ := turn_request text our site h
      exact .inl ⟨duct, (channelRequest_edits (fun hin => hnew (hd duct hin)) hr).1, rfl⟩
    | unto roof now duct channelId requestId extra sign =>
      obtain ⟨r, hr, rfl⟩ := Option.map_eq_some_iff.mp h
      exact .inr ⟨(onGallResponse_timed hr).edits, rfl⟩
    | _ => exact absurd trivial hq

/-- What every event keeps: the map from ducts is right, and knows only ducts that have been used. -/
def Sys.Right (a : Sys) : Prop := Listed a.state.channels ∧ ∀ d ∈ a.state.ductToKey, d ∈ a.used

theorem right_start : Sys.start.Right :=
  ⟨fun _ _ => iff_of_false (Option.some_ne_none _).symm fun ⟨_, h, _⟩ => Option.some_ne_none _ h.symm,
    fun d h => absurd h (AList.notMem_empty d)⟩

theorem Sys.Right.turn {a b : Sys} {e : Task} (ha : a.Right) (h : turn text our site a e = some b) : b.Right := by
  rcases turn_edits text our site ha.2 h with ⟨d, he, hu⟩ | ⟨he, hu⟩
  · refine ⟨ha.1.edits he, fun d' hd' => ?_⟩
    rw [hu]
    exact (he.mem_ducts hd').elim (fun h => List.mem_cons_of_mem d (ha.2 d' h)) fun h => h ▸ List.mem_cons_self
  · refine ⟨ha.1.edits he, fun d' hd' => ?_⟩
    rw [hu]
    refine ha.2 d' (((he.mono (Edit.Loud.on (d' + 1))).mem_ducts hd').resolve_right (Nat.succ_ne_self d').symm)

variable {text our site}

/-- What the map from ducts is in every run: each duct leads to the channel that listens on it and to
no other, and two channels never share one. -/
theorem ductToKey_inverse {es : List Task} {a : Sys} (h : Replay.follow (turn text our site) .start es = some a) :
    (∀ d cid, a.state.ductToKey.lookup d = some cid ↔ ∃ c, a.state.session.lookup cid = some c ∧ c.state = .inr d) ∧
      (∀ d cid cid' c c', a.state.session.lookup cid = some c → a.state.session.lookup cid' = some c' →
        c.state = .inr d → c'.state = .inr d → cid = cid') ∧
      ∀ d cid, a.state.session.lookup cid = none → a.state.ductToKey.lookup d ≠ some cid := by
  have hr : a.Right := Replay.follow_inv (fun _ b => b.Right) right_start
    (fun _ _ _ _ hb ht => hb.turn text our site ht) h
  refine ⟨hr.1, fun d cid cid' c c' hc hc' hs hs' => ?_, fun d cid hc => hr.1.absent hc⟩
  have h1 := (hr.1.lookup hc).mpr hs
  exact Option.some.inj (h1.symm.trans ((hr.1.lookup hc').mpr hs'))

/-- Texts where a cookie line that is there names the session 5. -/
def guestText : Text :=
  ⟨fun line => if line = "" then none else some [("urbauth-", "")], fun _ => none, fun _ => some 5, fun _ => "",
    fun _ => ""⟩

/-- A guest's PUT, which starts the session 5 and creates a channel, and its GET of the channel. -/
def listenRun : List Task :=
  [.request (roofOf []) 10 3 ⟨[5], 0, [9]⟩ true 0 putRequest,
    .request (roofOf []) 11 4 ⟨[], 0, []⟩ true 0 ⟨"GET", "/~/channel/c", [("cookie", "urbauth-=0v5")], none⟩]

theorem listenRun_inverse : ∃ a, Replay.follow (turn guestText 1 fun _ => some "c") .start listenRun = some a ∧
    a.state.ductToKey.lookup 4 = some "c" ∧ ∃ c, a.state.session.lookup "c" = some c ∧ c.state = .inr 4 := by
  have h : Replay.follow (turn guestText 1 fun _ => some "c") .start listenRun = some _ := rfl
  have hd : _ = some "c" := rfl
  exact ⟨_, h, hd, ((ductToKey_inverse h).1 4 "c").mp hd⟩

/-! ### Timers -/

/-- How often a timer is pending that a channel in this state waits for, or does not. -/
def booked : Option (Timer ⊕ Duct) → Timer → ℕ
  | some (.inl t), t' => if t' = t then 1 else 0
  | _, _ => 0

/-- The timers that are pending are those that channels wait for, each once. -/
def Timely (k : Channels) (ts : Multiset Pend) : Prop := ∀ p, ts.count p = booked (k.stateOf p.channelId) p.timer

theorem Timely.rest {k : Channels} {ts : Multiset Pend} (h : Timely k ts) (cid : String) (p : Pend) :
    (k.rest ts cid).count p = if p.channelId = cid then 0 else ts.count p := by
  obtain ⟨x, t⟩ := p
  have hp : ts.count ⟨x, t⟩ = booked (k.stateOf x) t := h ⟨x, t⟩
  unfold Channels.rest
  by_cases hx : x = cid
  · subst hx
    rw [if_pos rfl, ← Channels.stateOf]
    rcases hst : k.stateOf x with _ | t' | d
    · rw [hp, hst]
      rfl
    · by_cases ht : t = t'
      · subst ht
        rw [Multiset.count_erase_self, hp, hst]
        exact congrArg Nat.pred (if_pos rfl)
      · rw [Multiset.count_erase_of_ne fun he => ht (congrArg Pend.timer he), hp, hst]
        exact if_neg ht
    · rw [hp, hst]
      rfl
  · rw [if_neg hx]
    split
    · exact Multiset.count_erase_of_ne (fun he => hx (congrArg Pend.channelId he)) ts
    · rfl

/-- The timers are right for all channels but one that are as before, and for that one. -/
theorem Timely.at {k k' : Channels} {ts ts' : Multiset Pend} (h : Timely k ts) (cid : String)
    (hk : ∀ x, x ≠ cid → k'.session.lookup x = k.session.lookup x)
    (hts : ∀ p, p.channelId ≠ cid → ts'.count p = ts.count p) {o : Option Channel} (ho : k'.session.lookup cid = o)
    (hc : ∀ t, ts'.count ⟨cid, t⟩ = booked (o.map Channel.state) t) : Timely k' ts' := by
  rintro ⟨x, t⟩
  by_cases hx : x = cid
  · subst hx
    rw [hc, Channels.stateOf, ho]
  · rw [hts _ hx, h ⟨x, t⟩]
    unfold Channels.stateOf
    rw [hk x hx]

theorem count_set {ts : Multiset Pend} {cid : String} {t t' : Timer} (h : ts.count ⟨cid, t'⟩ = 0) :
    (⟨cid, t⟩ ::ₘ ts).count ⟨cid, t'⟩ = booked (some (.inl t)) t' := by
  rw [Multiset.count_cons, h, Nat.zero_add]
  unfold booked
  simp only [Pend.mk.injEq, true_and]

theorem count_set_ne {ts : Multiset Pend} {cid : String} {t : Timer} {p : Pend} (h : p.channelId ≠ cid) :
    (⟨cid, t⟩ ::ₘ ts).count p = ts.count p :=
  Multiset.count_cons_of_ne (fun he => h (congrArg Pend.channelId he)) ts

/-- **Each edit keeps the pending timers those that channels wait for.** -/
theorem Timely.timed {k k' : Channels} {ts ts' : Multiset Pend} {e : Edit} (h : Timely k ts)
    (he : e.timed (k, ts) = some (k', ts')) : Timely k' ts' := by
  obtain ⟨k₁, hturn, heq⟩ := Option.map_eq_some_iff.mp he
  obtain ⟨rfl, rfl⟩ := Prod.mk.inj heq
  have hrest : ∀ {cid p}, p.channelId ≠ cid → (k.rest ts cid).count p = ts.count p := fun hp => by
    rw [h.rest, if_neg hp]
  have hgone : ∀ cid t, (k.rest ts cid).count ⟨cid, t⟩ = 0 := fun cid t => by
    rw [h.rest, if_pos rfl]
  have hnew : ∀ {cid : String} {c : Channel} (x : String), x ≠ cid →
      (k.session.insert cid c).lookup x = k.session.lookup x := fun _ hx => AList.lookup_insert_ne hx
  unfold Edit.turn at hturn
  cases e with
  | create cid mode identity t now =>
    dsimp only at hturn
    split at hturn
    · rename_i hc
      obtain rfl := Option.some.inj hturn
      refine h.at cid hnew (fun p hp => count_set_ne hp) (AList.lookup_insert _) fun t' => count_set ?_
      rw [h ⟨cid, t'⟩, Channels.stateOf, hc]
      rfl
    · exact absurd hturn.symm (Option.some_ne_none _)
  | change cid ch =>
    obtain ⟨c, hc, rfl⟩ := Option.map_eq_some_iff.mp hturn
    refine h.at cid hnew (fun _ _ => rfl) (AList.lookup_insert _) fun t => ?_
    rw [Option.map_some, ch.on_state, Edit.timers, h ⟨cid, t⟩, Channels.stateOf, hc, Option.map_some]
  | renew cid t =>
    dsimp only at hturn
    split at hturn
    · split at hturn
      · obtain rfl := Option.some.inj hturn
        exact h.at cid hnew (fun p hp => (count_set_ne hp).trans (hrest hp)) (AList.lookup_insert _)
          fun t' => count_set (hgone cid t')
      · exact absurd hturn.symm (Option.some_ne_none _)
    · exact absurd hturn.symm (Option.some_ne_none _)
  | park cid d t =>
    dsimp only at hturn
    split at hturn
    · rename_i c hc
      split at hturn
      · rename_i hl
        obtain ⟨d', hd'⟩ := Sum.isRight_iff.mp hl.1
        obtain rfl := Option.some.inj hturn
        refine h.at cid hnew (fun p hp => count_set_ne hp) (AList.lookup_insert _) fun t' => count_set ?_
        rw [h ⟨cid, t'⟩, Channels.stateOf, hc, Option.map_some, hd']
        rfl
      · exact absurd hturn.symm (Option.some_ne_none _)
    · exact absurd hturn.symm (Option.some_ne_none _)
  | listen cid d beat =>
    dsimp only at hturn
    split at hturn
    · exact absurd hturn.symm (Option.some_ne_none _)
    · obtain ⟨c, hc, rfl⟩ := Option.map_eq_some_iff.mp hturn
      exact h.at cid hnew (fun p hp => hrest hp) (AList.lookup_insert _) (hgone cid)
  | discard cid =>
    obtain ⟨c, hc, rfl⟩ := Option.map_eq_some_iff.mp hturn
    exact h.at cid (fun x hx => AList.lookup_erase_ne hx) (fun p hp => hrest hp) (AList.lookup_erase _ _) (hgone cid)

theorem Timely.edits {A : Edit → Prop} {s s' : ServerState} {moves : List Move} {ts : Multiset Pend}
    (h : Timely s.channels ts) (ht : TimedTo A s moves s') : Timely s'.channels (behn moves ts) := by
  obtain ⟨es, -, hes⟩ := ht ts
  exact Replay.follow_inv (fun _ q => Timely q.1 q.2) h (fun _ _ _ _ hq hturn => Timely.timed hq hturn) hes

/-- The events that the timers are right after: no channel that has one is deleted by a PUT, and no
timer fires with an error. -/
def Sparing (site : ChannelUrl) (a : Sys) : Task → Prop
  | .request roof _ _ _ _ _ request => Tidy roof site request a.state.channels
  | .wake _ _ error => error = false
  | _ => True

/-- A timer that is pending is the one that its channel waits for. -/
theorem Timely.waits {k : Channels} {ts : Multiset Pend} {p : Pend} (h : Timely k ts) (hp : p ∈ ts) :
    k.stateOf p.channelId = some (.inl p.timer) := by
  have hpos := Multiset.count_pos.mpr hp
  rw [h p] at hpos
  rcases hst : k.stateOf p.channelId with _ | t | d <;> rw [hst] at hpos
  · exact absurd hpos (Nat.lt_irrefl 0)
  · unfold booked at hpos
    dsimp only at hpos
    split at hpos
    · rename_i ht
      rw [ht]
    · exact absurd hpos (Nat.lt_irrefl 0)
  · exact absurd hpos (Nat.lt_irrefl 0)

/-- A timer fires, and its channel goes with it. -/
theorem Timely.fired {s : ServerState} {ts : Multiset Pend} {p : Pend} (h : Timely s.channels ts) (hp : p ∈ ts) :
    Timely (discardChannel our p.channelId true s).2.channels (behn (discardChannel our p.channelId true s).1
      (ts.erase p)) := by
  have hst := h.waits hp
  obtain ⟨c, hc, hwait⟩ := Option.map_eq_some_iff.mp hst
  obtain ⟨hk, hb⟩ := discardChannel_spec our true hc
  rw [hk, hb, hwait]
  refine h.at p.channelId (fun x hx => AList.lookup_erase_ne hx) (fun q hq => ?_) (AList.lookup_erase _ _) fun t => ?_
  · exact Multiset.count_erase_of_ne (fun he => hq (congrArg Pend.channelId he)) ts
  · show (ts.erase p).count ⟨p.channelId, t⟩ = 0
    by_cases ht : t = p.timer
    · subst ht
      rw [Multiset.count_erase_self, h p, hst]
      exact congrArg Nat.pred (if_pos rfl)
    · rw [Multiset.count_erase_of_ne fun he => ht (congrArg Pend.timer he), h ⟨p.channelId, t⟩, hst]
      exact if_neg ht

theorem Timely.turn {a b : Sys} {e : Task} (ha : a.Right) (ht : Timely a.state.channels a.timers)
    (hs : Sparing site a e)
    (h : turn text our site a e = some b) : Timely b.state.channels b.timers := by
  cases e with
  | request roof now duct eny secure address request =>
    obtain ⟨hnew, r, hr, rfl⟩ := turn_request text our site h
    exact ht.edits ((channelRequest_edits (fun hin => hnew (ha.2 duct hin)) hr).2 hs)
  | cancelRequest now duct =>
    obtain ⟨r, hr, rfl⟩ := Option.map_eq_some_iff.mp h
    exact ht.edits (cancelRequest_timed hr).1
  | wake now timer error =>
    unfold Eyre.turn at h
    dsimp only at h
    split at h
    · rename_i hin
      obtain rfl := Option.some.inj h
      obtain rfl : error = false := hs
      exact ht.fired hin.1
    · exact absurd h.symm (Option.some_ne_none _)
  | heartbeat now duct channelId =>
    obtain ⟨r, hr, rfl⟩ := Option.map_eq_some_iff.mp h
    exact ht.edits (onChannelHeartbeat_timed hr)
  | unto roof now duct channelId requestId extra sign =>
    obtain ⟨r, hr, rfl⟩ := Option.map_eq_some_iff.mp h
    exact ht.edits (onGallResponse_timed hr)
  | born now =>
    obtain ⟨r, hr, rfl⟩ := Option.map_eq_some_iff.mp h
    exact ht.edits (cancelAll_timed hr).1
  | trim =>
    obtain rfl := Option.some.inj h
    exact ht.edits (discardAll_timed our _ _)
  | closeSession sessionId all =>
    obtain rfl := Option.some.inj h
    exact ht.edits (closeSession_timed _ _ _)
  | other s =>
    unfold Eyre.turn at h
    dsimp only at h
    split at h
    · rename_i hsame
      obtain rfl := Option.some.inj h
      exact hsame ▸ ht
    · exact absurd h.symm (Option.some_ne_none _)

/-- A timer that fires is the one that its channel records. -/
def FiresOwn (a : Sys) : Task → Prop
  | .wake _ timer _ => a.state.channels.stateOf timer.channelId = some (.inl timer.timer)
  | _ => True

/-- The timers of a channel that are pending. -/
def Sys.pendingOf (a : Sys) (cid : String) : Multiset Pend := a.timers.filter fun p => p.channelId = cid

/-- The timers that a channel in this state is to have. -/
def ownTimers (cid : String) : Option (Timer ⊕ Duct) → Multiset Pend
  | some (.inl t) => {⟨cid, t⟩}
  | _ => 0

theorem Timely.pendingOf {a : Sys} (h : Timely a.state.channels a.timers) (cid : String) :
    a.pendingOf cid = ownTimers cid (a.state.channels.stateOf cid) := by
  ext ⟨x, t⟩
  unfold Sys.pendingOf
  rw [Multiset.count_filter]
  by_cases hx : x = cid
  · subst hx
    rw [if_pos rfl, h ⟨x, t⟩]
    rcases a.state.channels.stateOf x with _ | t' | d
    · rfl
    · unfold booked ownTimers
      simp only [Multiset.count_singleton, Pend.mk.injEq, true_and]
    · rfl
  · rw [if_neg hx]
    rcases a.state.channels.stateOf cid with _ | t' | d
    · rfl
    · exact (Multiset.count_eq_zero.mpr fun hm => hx (congrArg Pend.channelId (Multiset.mem_singleton.mp hm))).symm
    · rfl

/-- **The timers in a run**, if no PUT deletes a channel that has one and none fires with an error:
a channel that waits has one timer pending, the one that it records, a channel that is
listened to or is not there has none, and a timer that fires is the one that its channel
records, so that it has been set since the channel was created. -/
theorem timers_of_run {es : List Task} (hs : Replay.Along (turn text our site) (Sparing site) .start es) :
    (∀ a, Replay.follow (turn text our site) .start es = some a →
        ∀ cid, a.pendingOf cid = ownTimers cid (a.state.channels.stateOf cid)) ∧
      Replay.Along (turn text our site) (fun a e => (∃ b, turn text our site a e = some b) →
        FiresOwn a e) .start es := by
  have hstep : ∀ a e b, a.Right ∧ Timely a.state.channels a.timers → Sparing site a e → turn text our site a e =
    some b →
      b.Right ∧ Timely b.state.channels b.timers :=
    fun a e b ha hse h => ⟨ha.1.turn text our site h, ha.2.turn ha.1 hse h⟩
  have h0 : Sys.start.Right ∧ Timely Sys.start.state.channels Sys.start.timers :=
    ⟨right_start, fun p => Multiset.count_zero p⟩
  refine ⟨fun a h => (hs.follow_inv _ hstep h0 h).2.pendingOf, hs.of_inv _ hstep (fun a e ha _ => ?_) h0⟩
  rintro ⟨b, h⟩
  cases e with
  | wake now timer error =>
    unfold turn at h
    dsimp only at h
    split at h
    · rename_i hin
      exact ha.2.waits hin.1
    · exact absurd h.symm (Option.some_ne_none _)
  | _ => exact trivial

theorem listenRun_sparing : Replay.Along (turn guestText 1 fun _ => some "c")
    (Sparing fun _ => some "c") .start listenRun := by
  have hno : ∀ r, NoDelete (roofOf []) r := fun r body reqs _ h => by
    obtain rfl := Except.ok.inj h
    exact List.not_mem_nil
  exact ⟨fun _ _ _ => .inl (hno _), fun _ _ => ⟨fun _ _ _ => .inl (hno _), fun _ _ => trivial⟩⟩

theorem listenRun_timers : ∃ a, Replay.follow (turn guestText 1 fun _ => some "c") .start listenRun = some a ∧
    a.state.channels.stateOf "c" = some (.inr 4) ∧ a.pendingOf "c" = 0 := by
  have h : Replay.follow (turn guestText 1 fun _ => some "c") .start listenRun = some _ := rfl
  exact ⟨_, h, rfl, (timers_of_run listenRun_sparing).1 _ h "c"⟩

/-- A PUT that the session 5 sends. -/
def laterPut : Request := ⟨"PUT", "/~/channel/c", [("cookie", "urbauth-=0v5")], some "[]"⟩

/-- A channel is created, deleted and created again. -/
def deleteRun : List Task :=
  [.request (roofOf []) 10 3 ⟨[5], 0, [9]⟩ true 0 putRequest,
    .request (roofOf [.delete]) 11 4 ⟨[], 0, []⟩ true 0 laterPut, .request (roofOf []) 12 5 ⟨[], 0, []⟩ true 0 laterPut]

/-- The first channel's timer is still pending when the second is there, which it discards. -/
theorem deleteRun_timers : (∃ a, Replay.follow (turn guestText 1 fun _ => some "c") .start deleteRun = some a ∧
      a.pendingOf "c" = {⟨"c", 12 + channelTimeout, 5⟩, ⟨"c", 10 + channelTimeout, 3⟩} ∧
      a.state.channels.stateOf "c" = some (.inl ⟨12 + channelTimeout, 5⟩)) ∧
    ∃ a, Replay.follow (turn guestText 1 fun _ => some "c") .start
        (deleteRun ++ [.wake (10 + channelTimeout) ⟨"c", 10 + channelTimeout, 3⟩ false]) = some a ∧
      a.state.channels.stateOf "c" = none :=
  ⟨⟨_, rfl, rfl, rfl⟩, _, rfl, rfl⟩

end Eyre
end Ursockets
