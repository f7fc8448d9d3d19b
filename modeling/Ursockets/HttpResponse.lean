/-
# How a request is responded to

A request of the http server (`vere/io/http.c`) from when it comes until h2o disposes of it: the
effects for its response, its timer, the callbacks of its generator, and what becomes of it when it asks to be
a websocket. What is handed to h2o is kept in order. The request's state says whether a response
has begun, but several places begin one that has no generator.

h2o calls for more of a response when it is through with what it was handed, unless that was the last.

Key definitions: `Hreq`, `hgenSend`, `startRespond`, `continueRespond`, `cancelRespond`, `timerCb`, `Event`, `step`,
`heard`, `Begun`.
Key theorems: `generator_of_run`, `stream_of_run`.
-/
import Mathlib.Algebra.Group.Nat.Defs
import Ursockets.HttpScry

namespace Ursockets
namespace HttpResponse

open HttpScry (Rsat HgenSat)

/-! ### The request -/

/-- `octs`: a length and the bytes of a number, the lowest first. -/
abbrev Octs := ℕ × ℕ

/-- What is in them. -/
def bytes (o : Octs) : List ℕ := (List.range o.1).map fun i => o.2 / 256 ^ i % 256

/-- `_cttp_bod_from_octs`: 2GB max. -/
def bodFromOcts (o : Octs) : Option (List ℕ) := if o.1 < 2 ^ 31 then some (bytes o) else none

/-- `h2o_send_state_t`. -/
inductive SendState where
  | inProgress
  | final
  | error
  deriving DecidableEq

/-- `u3_hgen`: whether it is ready to send, and its bodies: those pending, and those that h2o may still read. -/
structure Hgen where
  red : Bool
  sat : HgenSat
  bod : List (List ℕ)
  nud : List (List ℕ)
  deriving DecidableEq

/-- The state of a websocket session. -/
inductive Hwsat where
  | pending
  | opened
  deriving DecidableEq

/-- `u3_hreq`, with whether its timer runs, whether a peek is under way for it, the state of its session, what was sent
by its generator, the errors sent without one, and the times it was killed in eyre. -/
structure Hreq where
  sat : Rsat
  tim : Bool
  gen : Option Hgen
  peq : Bool
  wsu : Option Hwsat
  sent : List (List ℕ × SendState)
  errors : List ℕ
  kills : ℕ
  deriving DecidableEq

/-- `_http_req_prepare`. -/
def Hreq.new : Hreq := ⟨.init, true, none, false, none, [], [], 0⟩

/-- `h2o_send_error_generic`. -/
def Hreq.sendError (r : Hreq) (status : ℕ) : Hreq := { r with errors := r.errors ++ [status] }

/-- The state that h2o is told. -/
def sendState : HgenSat → SendState
  | .wait => .inProgress
  | .done => .final
  | .fail => .error

/-! ### The generator -/

/-- `_http_hgen_send`. -/
def hgenSend (g : Hgen) (r : Hreq) : Option Hreq :=
  if g.red then
    some { r with
      gen := some { g with red := false, nud := g.bod, bod := [] }
      sent := r.sent ++ [(g.bod.flatten, sendState g.sat)]
      tim := r.tim || g.sat = .wait }
  else none

/-- `_http_hgen_proceed`. -/
def hgenProceed (r : Hreq) : Option Hreq :=
  r.gen.bind fun g =>
    let g := { g with red := true }
    if g.bod ≠ [] ∨ g.sat ≠ .wait then hgenSend g r else some { r with gen := some g }

/-- `_http_hgen_stop`. -/
def hgenStop (r : Hreq) : Option Hreq :=
  r.gen.map fun g => if g.sat = .wait then { r with kills := r.kills + 1 } else r

/-- The bodies of an effect's data. -/
def bods (data : Option Octs) : Option (List (List ℕ)) :=
  match data with
  | none => some []
  | some o => (bodFromOcts o).map fun b => [b]

/-- `_http_start_respond`. -/
def startRespond (data : Option Octs) (complete : Bool) (r : Hreq) : Option Hreq :=
  if r.sat ≠ .plan then some r
  else (bods data).bind fun bod =>
    hgenSend ⟨true, if complete then .done else .wait, bod, []⟩ { r with sat := .ripe, tim := false }

/-- `_http_continue_respond`. It reads through the generator's pointer. -/
def continueRespond (data : Option Octs) (complete : Bool) (r : Hreq) : Option Hreq :=
  if r.sat ≠ .ripe then some r
  else r.gen.bind fun g => (bods data).bind fun bod =>
    let g := { g with sat := if complete then .done else .wait, bod := g.bod ++ bod }
    let r := { r with tim := false, gen := some g }
    if g.red then hgenSend g r else some r

/-- `_http_cancel_respond`. -/
def cancelRespond (r : Hreq) : Option Hreq :=
  match r.sat with
  | .init | .peek => none
  | .plan => some { r.sendError 500 with sat := .ripe, wsu := none }
  | .ripe => r.gen.bind fun g =>
    let g := { g with sat := .fail }
    let r := { r with tim := false, gen := some g }
    if g.red then hgenSend g r else some r

/-- `_http_req_timer_cb`. -/
def timerCb (r : Hreq) : Option Hreq :=
  let r := { r with tim := false }
  match r.sat with
  | .init => none
  | .plan => some { r.sendError 504 with sat := .ripe, kills := r.kills + 1 }
  | .peek => some { r.sendError 504 with peq := false, wsu := none }
  | .ripe => r.gen.bind fun g =>
    let r := if g.sat = .wait then { r with kills := r.kills + 1 } else r
    let g := { g with sat := .fail }
    if g.red then hgenSend g r else some { r with gen := some g }

/-! ### Websockets -/

/-- `_http_ws_handshake`. -/
def wsHandshake (r : Hreq) : Hreq := { r with sat := .plan, wsu := some .pending }

/-- A request that tries to be a websocket and is none (`_http_rec_accept`). -/
def badHandshake (r : Hreq) : Hreq := { r.sendError 400 with sat := .ripe, tim := false }

/-- `_http_ws_accept`, where h2o can make the upgrade or not. -/
def wsAccept (upgrade : Bool) (r : Hreq) : Hreq :=
  if r.wsu = some .pending then
    let r := { r with tim := false, sat := .ripe }
    if upgrade then { r with wsu := some .opened } else { r.sendError 500 with wsu := none }
  else r

/-- `_http_ws_reject`. -/
def wsReject (r : Hreq) : Hreq :=
  if r.wsu = some .pending then { r.sendError 403 with tim := false, sat := .ripe, wsu := none } else r

/-! ### What happens to a request -/

/-- What the request is when it comes: a handshake, a bad one, one for eyre or for a scry, or one that the
cache answers. -/
inductive Arrival where
  | handshake
  | badHandshake
  | dispatch
  | peek
  | cached (data : Option (Option Octs))
  deriving DecidableEq

/-- An answer from a scry: a page, which is all of a response, or an error. -/
def scryRespond (data : Option (Option Octs)) (r : Hreq) : Option Hreq :=
  match data with
  | none => some (r.sendError 500)
  | some page => startRespond page true { r with sat := .plan }

inductive Event where
  | receive (arrival : Arrival)
  | scried (data : Option (Option Octs))
  | start (data : Option Octs) (complete : Bool)
  | continue (data : Option Octs) (complete : Bool)
  | cancel
  | timeout
  | proceed
  | stop
  | accept (upgrade : Bool)
  | reject
  deriving DecidableEq

/-- h2o is handling what it was handed, and there may be more. -/
def Hreq.inFlight (r : Hreq) : Bool :=
  (r.gen.any fun g => ¬ g.red) && (r.sent.getLast?.any fun s => s.2 = .inProgress)

/-- `_http_rec_accept`. -/
def receive (arrival : Arrival) (r : Hreq) : Option Hreq :=
  match arrival with
  | .handshake => some (wsHandshake r)
  | .badHandshake => some (badHandshake r)
  | .dispatch => some { r with sat := .plan }
  | .peek => some { r with sat := .peek, peq := true }
  | .cached data => scryRespond data r

/-- One event, where it can come. It fails where an assertion does, where a null pointer is read, and where a body is
too large. -/
def step (r : Hreq) : Event → Option Hreq
  | .receive arrival => if r = .new then receive arrival r else none
  | .scried data => if r.peq then scryRespond data { r with peq := false } else none
  | .start data complete => startRespond data complete r
  | .continue data complete => continueRespond data complete r
  | .cancel => cancelRespond r
  | .timeout => if r.tim then timerCb r else none
  | .proceed => if r.inFlight then hgenProceed r else none
  | .stop => hgenStop r
  | .accept upgrade => some (wsAccept upgrade r)
  | .reject => some (wsReject r)

/-! ### The generator's pointer -/

/-- A response that has begun has a generator. -/
def Generated (r : Hreq) : Prop := r.sat = .ripe → r.gen.isSome

/-- A continue, a cancel or the timer reads through the generator's pointer while it is null. -/
def ReadsNull (r : Hreq) (e : Event) : Prop :=
  ((∃ data complete, e = .continue data complete) ∨ e = .cancel ∨ e = .timeout) ∧ r.sat = .ripe ∧ r.gen = none

/-- What begins no response without a generator: no bad handshake, no timeout or cancel before a response starts, and no
accept or reject of a handshake for which none was started. -/
def Begun (r : Hreq) : Event → Prop
  | .receive .badHandshake => False
  | .timeout => r.sat ≠ .plan
  | .cancel => r.sat ≠ .plan
  | .accept _ => r.wsu = some .pending → r.gen.isSome
  | .reject => r.wsu = some .pending → r.gen.isSome
  | _ => True

/-- There is no generator before a response has begun. -/
def Late (r : Hreq) : Prop := r.gen.isSome → r.sat = .ripe

variable {r r' : Hreq} {e : Event} {g : Hgen} {data : Option Octs} {complete : Bool} {es : List Event}

theorem hgenSend_spec (h : hgenSend g r = some r') : r'.sat = r.sat ∧ r'.gen.isSome ∧ r'.wsu = r.wsu := by
  unfold hgenSend at h
  split at h
  · obtain rfl := Option.some.inj h
    exact ⟨rfl, rfl, rfl⟩
  · exact absurd h.symm (Option.some_ne_none _)

theorem startRespond_spec (h : startRespond data complete r = some r') :
    r' = r ∧ r.sat ≠ .plan ∨ r.sat = .plan ∧ r'.sat = .ripe ∧ r'.gen.isSome := by
  unfold startRespond at h
  split at h
  · rename_i hs
    exact .inl ⟨(Option.some.inj h).symm, hs⟩
  · rename_i hs
    obtain ⟨bod, -, hsend⟩ := Option.bind_eq_some_iff.mp h
    obtain ⟨h1, h2, -⟩ := hgenSend_spec hsend
    exact .inr ⟨not_not.mp hs, h1, h2⟩

/-- A generator that is there stays, and so does the request's state. -/
theorem send_or_keep (h : (if g.red then hgenSend g r else some r) = some r') (hg : r.gen.isSome) :
    r'.sat = r.sat ∧ r'.gen.isSome := by
  split at h
  · obtain ⟨h1, h2, -⟩ := hgenSend_spec h
    exact ⟨h1, h2⟩
  · obtain rfl := Option.some.inj h
    exact ⟨rfl, hg⟩

theorem continueRespond_spec (h : continueRespond data complete r = some r') :
    r' = r ∨ r.sat = .ripe ∧ r.gen.isSome ∧ r'.sat = .ripe ∧ r'.gen.isSome := by
  unfold continueRespond at h
  split at h
  · exact .inl (Option.some.inj h).symm
  · rename_i hs
    obtain ⟨g, hg, h⟩ := Option.bind_eq_some_iff.mp h
    obtain ⟨bod, -, h⟩ := Option.bind_eq_some_iff.mp h
    obtain ⟨h1, h2⟩ := send_or_keep h rfl
    exact .inr ⟨not_not.mp hs, by rw [hg]; rfl, h1.trans (not_not.mp hs), h2⟩

theorem scryRespond_spec {data : Option (Option Octs)} (h : scryRespond data r = some r') :
    r'.sat = r.sat ∧ r'.gen = r.gen ∨ r'.sat = .ripe ∧ r'.gen.isSome := by
  unfold scryRespond at h
  split at h
  · obtain rfl := Option.some.inj h
    exact .inl ⟨rfl, rfl⟩
  · rcases startRespond_spec h with ⟨-, hne⟩ | ⟨-, h1, h2⟩
    · exact absurd rfl hne
    · exact .inr ⟨h1, h2⟩

theorem wsAccept_spec (upgrade : Bool) (r : Hreq) :
    r.wsu = some .pending ∧ (wsAccept upgrade r).sat = .ripe ∧ (wsAccept upgrade r).gen = r.gen ∨
      r.wsu ≠ some .pending ∧ wsAccept upgrade r = r := by
  unfold wsAccept
  split
  · rename_i hw
    refine .inl ⟨hw, ?_⟩
    dsimp only
    split
    · exact ⟨rfl, rfl⟩
    · exact ⟨rfl, rfl⟩
  · rename_i hw
    exact .inr ⟨hw, rfl⟩

theorem wsReject_spec (r : Hreq) :
    r.wsu = some .pending ∧ (wsReject r).sat = .ripe ∧ (wsReject r).gen = r.gen ∨
      r.wsu ≠ some .pending ∧ wsReject r = r := by
  unfold wsReject
  split
  · rename_i hw
    exact .inl ⟨hw, rfl, rfl⟩
  · rename_i hw
    exact .inr ⟨hw, rfl⟩

/-- **What an event does to the state and the generator.** -/
theorem step_late (hl : Late r) (h : step r e = some r') : Late r' ∧ (Generated r → (Generated r' ↔ Begun r e)) := by
  have hboth : r'.sat = .ripe ∧ r'.gen.isSome → (Begun r e ↔ True) → Late r' ∧
    (Generated r → (Generated r' ↔ Begun r e)) :=
    fun h hb => ⟨fun _ => h.1, fun _ => iff_of_true (fun _ => h.2) (hb.mpr trivial)⟩
  have hsame : r'.sat = r.sat ∧ r'.gen = r.gen → (Begun r e ↔ True) → Late r' ∧
    (Generated r → (Generated r' ↔ Begun r e)) := by
    rintro ⟨hs, hg⟩ hb
    refine ⟨fun h => ?_, fun hgen => iff_of_true (fun h => ?_) (hb.mpr trivial)⟩
    · rw [hs]
      exact hl (hg ▸ h)
    · rw [hg]
      exact hgen (hs ▸ h)
  have hquiet : r'.gen = none → r'.sat ≠ .ripe → (Begun r e ↔ True) → Late r' ∧
    (Generated r → (Generated r' ↔ Begun r e)) := by
    intro hg hs hb
    refine ⟨fun h => ?_, fun _ => iff_of_true (fun h => absurd h hs) (hb.mpr trivial)⟩
    rw [hg] at h
    exact absurd h Bool.false_ne_true
  have hlost : r'.gen = none → r'.sat = .ripe → ¬ Begun r e → Late r' ∧ (Generated r → (Generated r' ↔ Begun r e)) := by
    intro hg hs hb
    refine ⟨fun _ => hs, fun _ => iff_of_false (fun h => ?_) hb⟩
    have hsome := h hs
    rw [hg] at hsome
    exact Bool.false_ne_true hsome
  have hpending : r.wsu = some .pending → r'.sat = .ripe → r'.gen = r.gen →
      (Begun r e ↔ (r.wsu = some .pending → r.gen.isSome)) → Late r' ∧ (Generated r → (Generated r' ↔ Begun r e)) := by
    intro hw hs hg hb
    refine ⟨fun _ => hs, fun _ => ?_⟩
    rw [hb]
    unfold Generated
    rw [hg]
    exact ⟨fun h _ => h hs, fun h _ => h hw⟩
  have hnone : r.sat = .plan → r.gen = none := fun hs => by
    by_contra hg
    exact absurd (hs.symm.trans (hl (Option.isSome_iff_ne_none.mpr hg))) (by decide)
  cases e with
  | receive arrival =>
    have hr : (if r = .new then receive arrival r else none) = some r' := h
    split at hr
    · rename_i hnew
      subst hnew
      cases arrival with
      | handshake =>
        obtain rfl := Option.some.inj hr
        exact hquiet rfl (by decide) Iff.rfl
      | badHandshake =>
        obtain rfl := Option.some.inj hr
        exact hlost rfl rfl id
      | dispatch =>
        obtain rfl := Option.some.inj hr
        exact hquiet rfl (by decide) Iff.rfl
      | peek =>
        obtain rfl := Option.some.inj hr
        exact hquiet rfl (by decide) Iff.rfl
      | cached data =>
        rcases scryRespond_spec hr with hs | hb
        · exact hsame hs Iff.rfl
        · exact hboth hb Iff.rfl
    · exact absurd hr.symm (Option.some_ne_none _)
  | scried data =>
    have hr : (if r.peq then scryRespond data { r with peq := false } else none) = some r' := h
    split at hr
    · rcases scryRespond_spec hr with hs | hb
      · exact hsame hs Iff.rfl
      · exact hboth hb Iff.rfl
    · exact absurd hr.symm (Option.some_ne_none _)
  | start data complete =>
    rcases startRespond_spec h with ⟨rfl, -⟩ | ⟨-, hb⟩
    · exact hsame ⟨rfl, rfl⟩ Iff.rfl
    · exact hboth hb Iff.rfl
  | «continue» data complete =>
    rcases continueRespond_spec h with rfl | ⟨-, -, hb⟩
    · exact hsame ⟨rfl, rfl⟩ Iff.rfl
    · exact hboth hb Iff.rfl
  | cancel =>
    have hr : cancelRespond r = some r' := h
    unfold cancelRespond at hr
    split at hr
    · exact absurd hr.symm (Option.some_ne_none _)
    · exact absurd hr.symm (Option.some_ne_none _)
    · rename_i hs
      obtain rfl := Option.some.inj hr
      exact hlost (hnone hs) rfl fun hb => hb hs
    · rename_i hs
      obtain ⟨g, hg, hr⟩ := Option.bind_eq_some_iff.mp hr
      obtain ⟨h1, h2⟩ := send_or_keep hr rfl
      exact hboth ⟨h1.trans hs, h2⟩ (iff_of_true (fun hp => by rw [hs] at hp; exact absurd hp (by decide)) trivial)
  | timeout =>
    have hr : (if r.tim then timerCb r else none) = some r' := h
    split at hr
    · unfold timerCb at hr
      dsimp only at hr
      split at hr
      · exact absurd hr.symm (Option.some_ne_none _)
      · rename_i hs
        obtain rfl := Option.some.inj hr
        exact hlost (hnone hs) rfl fun hb => hb hs
      · rename_i hs
        obtain rfl := Option.some.inj hr
        exact hsame ⟨rfl, rfl⟩ (iff_of_true (fun hp => by rw [hs] at hp; exact absurd hp (by decide)) trivial)
      · rename_i hs
        obtain ⟨g, hg, hr⟩ := Option.bind_eq_some_iff.mp hr
        have hb :
          Begun r .timeout ↔ True := iff_of_true (fun hp => by rw [hs] at hp; exact absurd hp (by decide)) trivial
        split at hr
        · obtain ⟨h1, h2, -⟩ := hgenSend_spec hr
          refine hboth ⟨h1.trans ?_, h2⟩ hb
          split
          · exact hs
          · exact hs
        · obtain rfl := Option.some.inj hr
          refine hboth ⟨?_, rfl⟩ hb
          dsimp only
          split
          · exact hs
          · exact hs
    · exact absurd hr.symm (Option.some_ne_none _)
  | proceed =>
    have hr : (if r.inFlight then hgenProceed r else none) = some r' := h
    split at hr
    · unfold hgenProceed at hr
      obtain ⟨g, hg, hr⟩ := Option.bind_eq_some_iff.mp hr
      have hs : r.sat = .ripe := hl (by rw [hg]; rfl)
      dsimp only at hr
      split at hr
      · obtain ⟨h1, h2, -⟩ := hgenSend_spec hr
        exact hboth ⟨h1.trans hs, h2⟩ Iff.rfl
      · obtain rfl := Option.some.inj hr
        exact hboth ⟨hs, rfl⟩ Iff.rfl
    · exact absurd hr.symm (Option.some_ne_none _)
  | stop =>
    obtain ⟨g, hg, rfl⟩ := Option.map_eq_some_iff.mp (h : hgenStop r = some r')
    refine hsame ?_ Iff.rfl
    split
    · exact ⟨rfl, rfl⟩
    · exact ⟨rfl, rfl⟩
  | accept upgrade =>
    have hr : wsAccept upgrade r = r' := Option.some.inj h
    rcases wsAccept_spec upgrade r with ⟨hw, hs, hg⟩ | ⟨hw, he⟩
    · exact hpending hw (hr ▸ hs) (hr ▸ hg) Iff.rfl
    · have hrr : r' = r := hr.symm.trans he
      exact hsame ⟨congrArg Hreq.sat hrr, congrArg Hreq.gen hrr⟩ (iff_of_true (fun hp => absurd hp hw) trivial)
  | reject =>
    have hr : wsReject r = r' := Option.some.inj h
    rcases wsReject_spec r with ⟨hw, hs, hg⟩ | ⟨hw, he⟩
    · exact hpending hw (hr ▸ hs) (hr ▸ hg) Iff.rfl
    · have hrr : r' = r := hr.symm.trans he
      exact hsame ⟨congrArg Hreq.sat hrr, congrArg Hreq.gen hrr⟩ (iff_of_true (fun hp => absurd hp hw) trivial)

theorem late_new : Late .new := fun h => absurd h Bool.false_ne_true

theorem generated_new : Generated .new := fun h => absurd h (by decide)

/-- **The generator's pointer in a run**: in every state it is valid if a response has begun, and
nothing that comes then reads through it while it is null, if and only if no event of the run
begins a response without a generator. -/
theorem generator_of_run (h : Replay.follow step .new es = some r) :
    (∀ n a, Replay.At step .new es n a → Generated a ∧ ∀ e, ¬ ReadsNull a e) ↔ Replay.Along step Begun .new es := by
  have hreads : ∀ a : Hreq, Generated a → ∀ e, ¬ ReadsNull a e := by
    rintro a ha e ⟨-, hs, hg⟩
    have hsome := ha hs
    rw [hg] at hsome
    exact Bool.false_ne_true hsome
  refine Replay.Along.iff_all Late (fun a => Generated a ∧ ∀ e, ¬ ReadsNull a e)
    (fun a e b ha hs => (step_late ha hs).1) ?_
    late_new ⟨generated_new, hreads _ generated_new⟩ h
  intro a e b ha hga hs
  exact (and_iff_left_of_imp fun hb => hreads b hb).trans ((step_late ha hs).2 hga.1)

/-- A response starts, its request times out, and it is cancelled. -/
def timedRun : List Event := [.receive .dispatch, .start (some (2, 0x4241)) false, .timeout, .cancel]

theorem timedRun_generated : ∃ r, Replay.follow step .new timedRun = some r ∧
    ∀ n a, Replay.At step .new timedRun n a → Generated a ∧ ∀ e, ¬ ReadsNull a e := by
  have h : Replay.follow step .new timedRun = some _ := rfl
  refine
    ⟨_, h, (generator_of_run h).mpr ⟨trivial, fun a ha =>
      ⟨trivial, fun b hb => ⟨?_, fun c hc => ⟨?_, fun _ _ => trivial⟩⟩⟩⟩⟩
  all_goals
    obtain rfl := Option.some.inj ha
    obtain rfl := Option.some.inj hb
  · exact show Rsat.ripe ≠ Rsat.plan by decide
  · obtain rfl := Option.some.inj hc
    exact show Rsat.ripe ≠ Rsat.plan by decide

/-- A request times out before its response starts, and then a part of the response comes: the
generator's null pointer is read. -/
theorem timeout_reads_null : ∃ r, Replay.follow step .new [.receive .dispatch, .timeout] = some r ∧ r.sat = .ripe ∧
    r.gen = none ∧
    ReadsNull r (.continue (some (1, 0x43)) true) ∧ step r (.continue (some (1, 0x43)) true) = none :=
  ⟨_, rfl, rfl, rfl, ⟨.inl ⟨_, _, rfl⟩, rfl, rfl⟩, rfl⟩

/-! ### The stream of a response -/

/-- The bytes that the effect brings. -/
def Event.body : Event → List ℕ
  | .start data _ | .continue data _ => (data.map bytes).getD []
  | _ => []

/-- The effects for a response, and h2o's calls for more of it. -/
def Event.Streams : Event → Prop
  | .start _ _ | .continue _ _ | .proceed => True
  | _ => False

/-- The body is not too large. -/
def Event.Fits : Event → Prop
  | .start data _ | .continue data _ => ∀ o, data = some o → o.1 < 2 ^ 31
  | _ => True

/-- What the kernel said of a response: the start and the continues after it, and whether the last of them marks it
complete. -/
structure Heard where
  begun : Bool
  bytes : List ℕ
  complete : Bool

/-- A continue before the start, and another start, are not taken. -/
def hear (hd : Heard) (e : Event) : Heard :=
  match e with
  | .start _ complete => if hd.begun then hd else ⟨true, e.body, complete⟩
  | .continue _ complete => if hd.begun then ⟨true, hd.bytes ++ e.body, complete⟩ else hd
  | _ => hd

def heard (es : List Event) : Heard := es.foldl hear ⟨false, [], false⟩

/-- The bytes handed to h2o. -/
def Hreq.handed (r : Hreq) : List ℕ := (r.sent.map Prod.fst).flatten

/-- The bytes still pending. -/
def Hreq.queued (r : Hreq) : List ℕ := (r.gen.map fun g => g.bod.flatten).getD []

/-- The last of the response was handed to h2o. -/
def Hreq.Finished (r : Hreq) : Prop := ∃ x ∈ r.sent, x.2 = .final

/-- A request that was dispatched to eyre. -/
def planned : Hreq := { Hreq.new with sat := .plan }

/-- A response that has begun: what was heard is handed to h2o or pending, the last that was sent
is `s`, and a generator that is ready has nothing to send. -/
structure Flow (hd : Heard) (r : Hreq) (g : Hgen) (l : List (List ℕ × SendState)) (s : List ℕ × SendState) : Prop where
  begun : hd.begun = true
  sat : r.sat = .ripe
  gen : r.gen = some g
  done : g.sat = if hd.complete then .done else .wait
  sent : r.sent = l ++ [s]
  bytes : r.handed ++ g.bod.flatten = hd.bytes
  before : ∀ x ∈ l, x.2 = .inProgress
  last : s.2 = .inProgress ∨ s.2 = .final ∧ g.red = false
  idle : g.red = true → g.sat = .wait ∧ g.bod = []

variable {k : Heard} {l : List (List ℕ × SendState)} {s : List ℕ × SendState}

theorem heard_append (es : List Event) (e : Event) : heard (es ++ [e]) = hear (heard es) e := by
  unfold heard
  rw [List.foldl_append]
  rfl

theorem bods_eq (h : ∀ o, data = some o → o.1 < 2 ^ 31) :
    ∃ bod, bods data = some bod ∧ bod.flatten = (data.map bytes).getD [] := by
  cases data with
  | none => exact ⟨[], rfl, rfl⟩
  | some o =>
    refine ⟨[bytes o], ?_, List.append_nil _⟩
    unfold bods bodFromOcts
    dsimp only
    rw [if_pos (h o rfl)]
    rfl

theorem bods_some {bod : List (List ℕ)} (h : bods data = some bod) : ∀ o, data = some o → o.1 < 2 ^ 31 := by
  rintro o rfl
  by_contra hlt
  unfold bods bodFromOcts at h
  dsimp only at h
  rw [if_neg hlt] at h
  exact absurd h.symm (Option.some_ne_none _)

/-- What is sent when the generator is ready: all that is pending, and the flag tells whether the
response is complete. -/
theorem hgenSend_flow (hred : g.red = true) (hb : k.begun = true) (hs : r.sat = .ripe)
    (hd' : g.sat = if k.complete then .done else .wait) (hbytes : r.handed ++ g.bod.flatten = k.bytes)
    (hl : ∀ x ∈ r.sent, x.2 = .inProgress) :
    ∃ r' g' x, hgenSend g r = some r' ∧ Flow k r' g' r.sent x ∧ g'.bod = [] ∧
      x.2 = if k.complete then .final else .inProgress := by
  have hstate : sendState g.sat = if k.complete then .final else .inProgress := by
    rw [hd']
    split
    · rfl
    · rfl
  have hflat : (r.sent.map Prod.fst).flatten ++ g.bod.flatten = k.bytes := hbytes
  unfold hgenSend
  rw [if_pos hred]
  refine ⟨_, _, _, rfl, ⟨hb, hs, rfl, hd', rfl, ?_, hl, ?_, fun h => absurd h Bool.false_ne_true⟩, rfl, hstate⟩
  · unfold Hreq.handed
    rw [List.map_append, List.flatten_append, ← hflat]
    simp
  · dsimp only
    rw [hstate]
    split
    · exact .inr ⟨rfl, rfl⟩
    · exact .inl rfl

theorem Flow.queued (hf : Flow k r g l s) : r.handed ++ r.queued = k.bytes := by
  unfold Hreq.queued
  rw [hf.gen]
  exact hf.bytes

theorem Flow.inFlight_iff (hf : Flow k r g l s) : r.inFlight = true ↔ g.red = false ∧ s.2 = .inProgress := by
  unfold Hreq.inFlight
  rw [hf.gen, hf.sent, List.getLast?_append]
  simp

/-- A generator that is ready has sent nothing last. -/
theorem Flow.all_inProgress (hf : Flow k r g l s) (h : s.2 = .inProgress) : ∀ x ∈ r.sent, x.2 = .inProgress := by
  intro x hx
  rw [hf.sent] at hx
  rcases List.mem_append.mp hx with hx | hx
  · exact hf.before x hx
  · obtain rfl := List.mem_singleton.mp hx
    exact h

theorem Flow.finished_iff (hf : Flow k r g l s) : r.Finished ↔ s.2 = .final := by
  constructor
  · rintro ⟨x, hx, hfin⟩
    rcases hf.last with h | h
    · exact absurd ((hf.all_inProgress h x hx).symm.trans hfin) (by decide)
    · exact h.1
  · intro h
    exact ⟨s, by rw [hf.sent]; exact List.mem_append_right _ (List.mem_singleton_self _), h⟩

/-- An effect, or h2o's call, either sends nothing, or all that is pending; nothing is sent after the last. -/
def Sends (k : Heard) (r : Hreq) (s : List ℕ × SendState) (r' : Hreq) (g' : Hgen) (s' : List ℕ × SendState) : Prop :=
  r'.sent = r.sent ∧ s' = s ∨ s.2 = .inProgress ∧ g'.bod = [] ∧ r'.sent = r.sent ++ [s'] ∧
    s'.2 = if k.complete then .final else .inProgress

/-- **A response begins** with what the start brings. -/
theorem start_flow (h : step planned (.start data complete) = some r') :
    ∃ g' s', Flow (hear ⟨false, [], false⟩ (.start data complete)) r' g' [] s' ∧ g'.bod = [] ∧
      s'.2 = if complete then .final else .inProgress := by
  have hr : startRespond data complete planned = some r' := h
  unfold startRespond at hr
  rw [if_neg (show ¬ planned.sat ≠ .plan from not_not.mpr rfl)] at hr
  obtain ⟨bod, hbod, hr⟩ := Option.bind_eq_some_iff.mp hr
  obtain ⟨bod', hbod', hflat⟩ := bods_eq (bods_some hbod)
  obtain rfl := Option.some.inj (hbod.symm.trans hbod')
  obtain ⟨b, g', x, hsend, hflow, hnil, hx⟩ := hgenSend_flow
    (g := ⟨true, if complete then .done else .wait, bod, []⟩) (r := { planned with sat := .ripe, tim := false })
    (k := hear ⟨false, [], false⟩ (.start data complete)) rfl rfl rfl rfl hflat (fun x hx => absurd hx List.not_mem_nil)
  obtain rfl := Option.some.inj (hsend.symm.trans hr)
  exact ⟨g', x, hflow, hnil, hx⟩

/-- **A response that has begun goes on** with what an event brings. -/
theorem step_flow (hf : Flow k r g l s) (he : e.Streams) (h : step r e = some r') :
    ∃ g' l' s', Flow (hear k e) r' g' l' s' ∧ Sends (hear k e) r s r' g' s' := by
  cases e with
  | start data complete =>
    have hr : startRespond data complete r = some r' := h
    unfold startRespond at hr
    rw [if_pos (by rw [hf.sat]; decide)] at hr
    obtain rfl := Option.some.inj hr
    have hhear : hear k (.start data complete) = k := if_pos hf.begun
    rw [hhear]
    exact ⟨g, l, s, hf, .inl ⟨rfl, rfl⟩⟩
  | «continue» data complete =>
    have hr : continueRespond data complete r = some r' := h
    unfold continueRespond at hr
    rw [if_neg (by rw [hf.sat]; decide), hf.gen, Option.bind_some] at hr
    obtain ⟨bod, hbod, hr⟩ := Option.bind_eq_some_iff.mp hr
    obtain ⟨bod', hbod', hflat⟩ := bods_eq (bods_some hbod)
    obtain rfl := Option.some.inj (hbod.symm.trans hbod')
    have hhear : hear k (.continue data complete) = ⟨true, k.bytes ++ (data.map bytes).getD [], complete⟩ :=
      if_pos hf.begun
    have hbytes : r.handed ++ (g.bod ++ bod).flatten = k.bytes ++ (data.map bytes).getD [] := by
      calc r.handed ++ (g.bod ++ bod).flatten
          = (r.handed ++ g.bod.flatten) ++ bod.flatten := by rw [List.flatten_append, List.append_assoc]
        _ = k.bytes ++ (data.map bytes).getD [] := by rw [hf.bytes, hflat]
    rw [hhear]
    dsimp only at hr
    split at hr
    · rename_i hred
      have hip : s.2 = .inProgress := hf.last.resolve_right fun h => Bool.false_ne_true (h.2.symm.trans hred)
      obtain ⟨b, g', x, hsend, hflow, hnil, hx⟩ := hgenSend_flow
        (g := { g with sat := if complete then .done else .wait, bod := g.bod ++ bod })
        (r := { r with tim := false,
                         gen := some { g with sat := if complete then .done else .wait, bod := g.bod ++ bod } })
        (k := ⟨true, k.bytes ++ (data.map bytes).getD [], complete⟩) hred rfl hf.sat rfl hbytes (hf.all_inProgress hip)
      obtain rfl := Option.some.inj (hsend.symm.trans hr)
      refine ⟨g', r.sent, x, hflow, .inr ⟨hip, hnil, hflow.sent, hx⟩⟩
    · rename_i hred
      obtain rfl := Option.some.inj hr
      exact ⟨_, l, s, ⟨rfl, hf.sat, rfl, rfl, hf.sent, hbytes, hf.before, hf.last, fun h => absurd h hred⟩,
        .inl ⟨rfl, rfl⟩⟩
  | proceed =>
    have hr : (if r.inFlight then hgenProceed r else none) = some r' := h
    have hhear : hear k .proceed = k := rfl
    rw [hhear]
    split at hr
    · rename_i hfl
      obtain ⟨-, hip⟩ := hf.inFlight_iff.mp hfl
      unfold hgenProceed at hr
      rw [hf.gen, Option.bind_some] at hr
      dsimp only at hr
      split at hr
      · obtain ⟨b, g', x, hsend, hflow, hnil, hx⟩ := hgenSend_flow (g := { g with red := true }) (r := r) (k := k)
          rfl hf.begun hf.sat hf.done hf.bytes (hf.all_inProgress hip)
        obtain rfl := Option.some.inj (hsend.symm.trans hr)
        exact ⟨g', r.sent, x, hflow, .inr ⟨hip, hnil, hflow.sent, hx⟩⟩
      · rename_i hno
        obtain ⟨hnil, hwait⟩ := not_or.mp hno
        obtain rfl := Option.some.inj hr
        exact ⟨{ g with red := true }, l, s, ⟨hf.begun, hf.sat, rfl, hf.done, hf.sent, hf.bytes, hf.before, .inl hip,
          fun _ => ⟨not_not.mp hwait, not_not.mp hnil⟩⟩, .inl ⟨rfl, rfl⟩⟩
    · exact absurd hr.symm (Option.some_ne_none _)
  | receive _ => exact he.elim
  | scried _ => exact he.elim
  | cancel => exact he.elim
  | timeout => exact he.elim
  | stop => exact he.elim
  | accept _ => exact he.elim
  | reject => exact he.elim

/-- The assertion that the generator is ready does not fail. -/
theorem Flow.step_some (hf : Flow k r g l s) (he : e.Streams) (hfit : e.Fits) (hp : e = .proceed → r.inFlight) :
    (step r e).isSome := by
  cases e with
  | start data complete =>
    show (startRespond data complete r).isSome
    unfold startRespond
    rw [if_pos (by rw [hf.sat]; decide)]
    rfl
  | «continue» data complete =>
    obtain ⟨bod, hbod, -⟩ := bods_eq hfit
    show (continueRespond data complete r).isSome
    unfold continueRespond
    rw [if_neg (by rw [hf.sat]; decide), hf.gen, Option.bind_some, hbod, Option.bind_some]
    dsimp only
    split
    · rename_i hred
      unfold hgenSend
      rw [if_pos hred]
      rfl
    · rfl
  | proceed =>
    show (if r.inFlight then hgenProceed r else none).isSome
    rw [if_pos (hp rfl)]
    unfold hgenProceed
    rw [hf.gen, Option.bind_some]
    dsimp only
    split
    · rfl
    · rfl
  | receive _ => exact he.elim
  | scried _ => exact he.elim
  | cancel => exact he.elim
  | timeout => exact he.elim
  | stop => exact he.elim
  | accept _ => exact he.elim
  | reject => exact he.elim

/-- A complete response that h2o is still reading is finished by its next call. -/
theorem Flow.finishes (hf : Flow k r g l s) (hc : k.complete = true) : r.Finished ∨
    r.inFlight ∧ ∃ b x, step r .proceed = some b ∧ b.handed = k.bytes ∧ b.sent = r.sent ++ [x] ∧ x.2 = .final := by
  have hdone : g.sat = .done := by rw [hf.done, if_pos hc]
  have hred : g.red = false := by
    by_contra h
    exact absurd (hdone.symm.trans (hf.idle (Bool.not_eq_false _ ▸ h)).1) (by decide)
  rcases hf.last with hip | ⟨hfin, -⟩
  · have hfl := hf.inFlight_iff.mpr ⟨hred, hip⟩
    obtain ⟨b, g', x, hsend, hflow, hnil, hx⟩ := hgenSend_flow (g := { g with red := true }) (r := r) (k := k)
      rfl hf.begun hf.sat hf.done hf.bytes (hf.all_inProgress hip)
    have hstep : step r .proceed = some b := by
      show (if r.inFlight then hgenProceed r else none) = some b
      rw [if_pos hfl]
      unfold hgenProceed
      rw [hf.gen, Option.bind_some]
      dsimp only
      rw [if_pos (.inr (by rw [hdone]; decide))]
      exact hsend
    have hall : b.handed = k.bytes := by
      have hb := hflow.bytes
      rw [hnil, List.flatten_nil, List.append_nil] at hb
      exact hb
    rw [if_pos hc] at hx
    exact .inr ⟨hfl, b, x, hstep, hall, hflow.sent, hx⟩
  · exact .inl (hf.finished_iff.mpr hfin)

/-- What is known of a response, by what was heard. -/
def Streaming (es : List Event) (r : Hreq) : Prop :=
  r = planned ∧ heard es = ⟨false, [], false⟩ ∨ ∃ g l s, Flow (heard es) r g l s ∧
    (s.2 = .final → ∃ fs a, fs <+: es ∧ (heard fs).complete = true ∧ r.handed = (heard fs).bytes ∧
      Replay.follow step planned fs = some a ∧ a.sent = r.sent)

theorem streaming_step (hr : Replay.follow step planned es = some r) (hst : Streaming es r) (he : e.Streams)
    (h : step r e = some r') : Streaming (es ++ [e]) r' := by
  have hfollow : Replay.follow step planned (es ++ [e]) = some r' := by
    rw [Replay.follow_append, hr, Option.bind_some, Replay.follow, h, Option.bind_some]
    rfl
  -- the response is finished now
  have hnow : ∀ {g' l' s'}, Flow (heard (es ++ [e])) r' g' l' s' → g'.bod = [] →
      (s'.2 = if (heard (es ++ [e])).complete then .final else .inProgress) → s'.2 = .final →
      ∃ fs a, fs <+: es ++ [e] ∧ (heard fs).complete = true ∧ r'.handed = (heard fs).bytes ∧
        Replay.follow step planned fs = some a ∧ a.sent = r'.sent := by
    intro g' l' s' hflow hnil hflag hfin
    have hc : (heard (es ++ [e])).complete = true := by
      by_contra hc
      rw [if_neg hc, hfin] at hflag
      exact absurd hflag (by decide)
    have hall := hflow.bytes
    rw [hnil, List.flatten_nil, List.append_nil] at hall
    exact ⟨es ++ [e], r', List.prefix_rfl, hc, hall, hfollow, rfl⟩
  rcases hst with ⟨rfl, hno⟩ | ⟨g, l, s, hf, hfs⟩
  · cases e with
    | start data complete =>
      obtain ⟨g', s', hflow, hnil, hflag⟩ := start_flow h
      rw [← hno, ← heard_append] at hflow
      have hc : (heard (es ++ [.start data complete])).complete = complete := by
        rw [heard_append, hno]
        rfl
      rw [← hc] at hflag
      exact .inr ⟨g', [], s', hflow, hnow hflow hnil hflag⟩
    | «continue» data complete =>
      have hr : continueRespond data complete planned = some r' := h
      obtain rfl := Option.some.inj hr
      refine .inl ⟨rfl, ?_⟩
      rw [heard_append, hno]
      rfl
    | proceed => exact absurd (h : none = some r').symm (Option.some_ne_none _)
    | receive _ => exact he.elim
    | scried _ => exact he.elim
    | cancel => exact he.elim
    | timeout => exact he.elim
    | stop => exact he.elim
    | accept _ => exact he.elim
    | reject => exact he.elim
  · obtain ⟨g', l', s', hflow, hsends⟩ := step_flow hf he h
    rw [← heard_append] at hflow hsends
    refine .inr ⟨g', l', s', hflow, fun hfin => ?_⟩
    rcases hsends with ⟨hsame, rfl⟩ | ⟨-, hnil, -, hflag⟩
    · obtain ⟨fs, a, hpre, hc, hall, hfol, hsent⟩ := hfs hfin
      refine ⟨fs, a, hpre.trans (List.prefix_append _ _), hc, ?_, hfol, hsent.trans hsame.symm⟩
      unfold Hreq.handed
      rw [hsame]
      exact hall
    · exact hnow hflow hnil hflag hfin

theorem streaming_of_run (hes : ∀ e ∈ es, e.Streams) (h : Replay.follow step planned es = some r) : Streaming es r := by
  refine (Replay.follow_inv (fun es r => (∀ e ∈ es, e.Streams) → Replay.follow step planned es = some r ∧
    Streaming es r)
    (fun _ => ⟨rfl, .inl ⟨rfl, rfl⟩⟩) ?_ h hes).2
  intro es b e c hI hstep hes
  obtain ⟨hb, hstream⟩ := hI fun x hx => hes x (List.mem_append_left _ hx)
  have he : e.Streams := hes e (List.mem_append_right _ (List.mem_singleton_self _))
  refine ⟨?_, streaming_step hb hstream he hstep⟩
  rw [Replay.follow_append, hb, Option.bind_some, Replay.follow, hstep, Option.bind_some]
  rfl

/-- **The stream of a response**: what was handed to h2o and what is pending are the body of the
start and the bodies of the continues after it, in order and each once. The last flag is passed
once, with the last that is sent, when all that was heard by then is handed over and the response
is marked complete. A complete response is finished, or the next call from h2o finishes it.
Nothing fails but a body that is too large. -/
theorem stream_of_run (hes : ∀ e ∈ es, e.Streams) (h : Replay.follow step planned es = some r) :
    r.handed ++ r.queued = (heard es).bytes ∧
      (∀ x ∈ r.sent.dropLast, x.2 = .inProgress) ∧ (∀ x ∈ r.sent, x.2 = .inProgress ∨ x.2 = .final) ∧
      (r.Finished → ∃ fs a, fs <+: es ∧ (heard fs).complete = true ∧ r.handed = (heard fs).bytes ∧
        Replay.follow step planned fs = some a ∧ a.sent = r.sent) ∧
      ((heard es).complete = true → r.Finished ∨ r.inFlight ∧
        ∃ b x, step r .proceed = some b ∧ b.handed = (heard es).bytes ∧ b.sent = r.sent ++ [x] ∧ x.2 = .final) ∧
      ∀ e : Event, e.Streams → e.Fits → (e = .proceed → r.inFlight) → (step r e).isSome := by
  rcases streaming_of_run hes h with ⟨rfl, hno⟩ | ⟨g, l, s, hf, hfs⟩
  · rw [hno]
    refine ⟨rfl, fun x hx => absurd hx List.not_mem_nil, fun x hx => absurd hx List.not_mem_nil, ?_,
      fun h => absurd h Bool.false_ne_true, ?_⟩
    · rintro ⟨x, hx, -⟩
      exact absurd hx List.not_mem_nil
    · intro e he hfit hp
      cases e with
      | start data complete =>
        obtain ⟨bod, hbod, -⟩ := bods_eq hfit
        show (startRespond data complete planned).isSome
        unfold startRespond
        rw [if_neg (show ¬ planned.sat ≠ .plan from not_not.mpr rfl), hbod]
        rfl
      | «continue» data complete => rfl
      | proceed => exact absurd (hp rfl) Bool.false_ne_true
      | receive _ => exact he.elim
      | scried _ => exact he.elim
      | cancel => exact he.elim
      | timeout => exact he.elim
      | stop => exact he.elim
      | accept _ => exact he.elim
      | reject => exact he.elim
  · refine ⟨hf.queued, ?_, ?_, fun h => hfs (hf.finished_iff.mp h), hf.finishes, fun e => hf.step_some⟩
    · rw [hf.sent, List.dropLast_concat]
      exact hf.before
    · intro x hx
      rw [hf.sent] at hx
      rcases List.mem_append.mp hx with hx | hx
      · exact .inl (hf.before x hx)
      · obtain rfl := List.mem_singleton.mp hx
        exact hf.last.imp_right And.left

/-- A response in three parts, the last two of which come before h2o calls. -/
def partedRun : List Event :=
  [.start (some (1, 0x41)) false, .continue (some (1, 0x42)) false, .continue (some (1, 0x43)) true, .proceed]

theorem partedRun_stream : ∃ r, Replay.follow step planned partedRun = some r ∧ r.handed = [0x41, 0x42, 0x43] ∧
    r.handed ++ r.queued = (heard partedRun).bytes := by
  have h : Replay.follow step planned partedRun = some _ := rfl
  have hes : ∀ e ∈ partedRun, e.Streams := by
    unfold partedRun
    simp [Event.Streams]
  exact ⟨_, h, by decide, (stream_of_run hes h).1⟩

/-- A continue that comes before the start is not taken: its byte is never handed to h2o. -/
theorem continue_before_start :
    ∃ r, Replay.follow step planned [.continue (some (1, 0x41)) false, .start (some (1, 0x42)) true] = some r ∧
      r.Finished ∧ r.handed = [0x42] ∧
      [Event.continue (some (1, 0x41)) false, .start (some (1, 0x42)) true].flatMap Event.body = [0x41, 0x42] :=
  ⟨_, rfl, ⟨([0x42], .final), List.mem_singleton_self _, rfl⟩, rfl, rfl⟩

end HttpResponse
end Ursockets
