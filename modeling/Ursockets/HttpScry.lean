/-
# A request that is answered by a scry

A request for a path under `/_~_/` is answered by a scry and not by an event
(`vere/io/http.c`). While the scry is under way two records point at each
other, the request and the peek record; the pier gives the answer to a
callback, a timer may run out first, and the client may go away, which frees
the request.

The timer takes the request out of the peek record and the callback reads
through that pointer before it looks whether it is null; and a request that is
freed leaves its address in the peek record. So the records are handled as they
should in just the runs where the answer comes before both.

Key definitions: `Hreq`, `Preq`, `httpScryCb`, `httpReqTimerCb`, `step`, `Sound`, `InTime`.
Key theorem: `sound_iff`.
-/
import Ursockets.Lib.Replay

namespace Ursockets
namespace HttpScry

variable {π β : Type}

/-! ### The records -/

/-- `u3_rsat`. -/
inductive Rsat where
  | init
  | plan
  | peek
  | ripe
  deriving DecidableEq

/-- `u3_hgen`'s state. -/
inductive HgenSat where
  | wait
  | done
  | fail
  deriving DecidableEq

/-- `u3_hgen`: `red` says that it may send. -/
structure Hgen where
  red : Bool
  sat : HgenSat
  deriving DecidableEq

/-- `u3_hreq`. `peq` says whether its pointer to the peek record is set, and
`tim` whether its timer runs; `auth` is what `_http_req_is_auth` finds in it and
`httq` whether it is a request that eyre can be told of. -/
structure Hreq where
  sat : Rsat
  tim : Bool
  peq : Bool
  gen : Option Hgen
  auth : Bool
  httq : Bool
  deriving DecidableEq

/-- `u3_preq`. `req` says whether its pointer to the request is set. -/
structure Preq (π : Type) where
  req : Bool
  pax : π
  las : Bool
  deriving DecidableEq

/-- What eyre answers to a scry: nothing, an answer without a page, or a page
with the flag that says whether it is for authenticated requests only. -/
inductive Answer (β : Type) where
  | nul
  | bare
  | page (auth : Bool) (payload : β)
  deriving DecidableEq

/-- What is sent on a request. -/
inductive Response (β : Type) where
  | badRequest
  | unauthorized
  | failed
  | timeout
  | start (payload : β)
  deriving DecidableEq

/-- The records, each `none` once it is freed; the responses sent, the times the
peek record was freed, the cancellations planned and the cache of answers. -/
structure World (π β : Type) where
  req : Option Hreq
  peq : Option (Preq π)
  sent : List (Response β)
  freed : ℕ
  kills : ℕ
  nax : List ((Bool × π) × Answer β)
  deriving DecidableEq

/-- Where the code reads or writes what is not there, or fails an assertion. The
first two are of the scry's callback. -/
inductive Fault where
  | nullRequest
  | freedRequest
  | nullPeek
  | freedPeek
  | assert
  deriving DecidableEq

def World.send (w : World π β) (r : Response β) : World π β := { w with sent := w.sent ++ [r] }

/-! ### The functions -/

/-- `_http_hgen_send`. What is sent here belongs to a response that has begun. -/
def httpHgenSend (r : Hreq) (g : Hgen) (w : World π β) : Except Fault (World π β) :=
  if g.red then
    .ok { w with req := some { r with gen := some { g with red := false }, tim := r.tim || g.sat = .wait } }
  else .error .assert

/-- `_http_start_respond`, with all of the response. -/
def httpStartRespond (r : Hreq) (payload : β) (w : World π β) : Except Fault (World π β) :=
  if r.sat = .plan then
    httpHgenSend { r with sat := .ripe, tim := false } ⟨true, .done⟩ (w.send (.start payload))
  else .ok w

/-- `_http_scry_respond`. -/
def httpScryRespond (r : Hreq) (nun : Answer β) (w : World π β) : Except Fault (World π β) :=
  match nun with
  | .nul => .ok (w.send (if r.httq then .failed else .badRequest))
  | .bare => .ok (w.send .failed)
  | .page auth payload =>
    if auth && !r.auth then .ok (w.send .unauthorized)
    else httpStartRespond { r with sat := .plan } payload { w with req := some { r with sat := .plan } }

/-- `_http_scry_cb`. Whether the request is authenticated is read from it before
the pointer is looked at. -/
def httpScryCb (nun : Answer β) (w : World π β) : Except Fault (World π β) := do
  let peq ← w.peq.elim (.error .freedPeek) .ok
  let req ← if peq.req then w.req.elim (.error .freedRequest) .ok else .error .nullRequest
  let w ←
    if peq.req then
      if req.sat = .peek then
        let req := { req with peq := false }
        httpScryRespond req nun { w with req := some req }
      else .error .assert
    else .ok w
  let nax := if peq.las = false ∧ nun matches .bare | .page _ _ then ((req.auth, peq.pax), nun) :: w.nax else w.nax
  .ok { w with nax := nax, peq := none, freed := w.freed + 1 }

/-- `_http_req_kill`. -/
def httpReqKill (w : World π β) : World π β := { w with kills := w.kills + 1 }

/-- `_http_req_timer_cb`. -/
def httpReqTimerCb (req : Hreq) (w : World π β) : Except Fault (World π β) :=
  match req.sat with
  | .init => .error .assert
  | .plan => .ok (World.send { httpReqKill w with req := some { req with sat := .ripe } } .timeout)
  | .peek =>
    if req.peq then do
      let peq ← w.peq.elim (.error .freedPeek) .ok
      .ok (World.send { w with peq := some { peq with req := false } } .timeout)
    else .error .nullPeek
  | .ripe =>
    match req.gen with
    | none => .error .assert
    | some gen =>
      let w := if gen.sat = .wait then httpReqKill w else w
      let gen := { gen with sat := .fail }
      if gen.red then httpHgenSend { req with gen := some gen } gen w
      else .ok { w with req := some { req with gen := some gen } }

/-- `_http_req_done`: `_http_req_close`, and the request's memory goes with its
pool. The peek record is not told. -/
def httpReqDone (req : Hreq) (w : World π β) : World π β :=
  let w := if req.sat = .plan then httpReqKill w else w
  { w with req := none }

/-! ### Runs -/

/-- What can come: the pier has the scry's answer, the timer runs out, or the
client is gone and the request is disposed of. -/
inductive Event (β : Type) where
  | complete (nun : Answer β)
  | timeout
  | disconnect
  deriving DecidableEq

/-- The records, whether the pier still owes the answer, and the fault. -/
structure State (π β : Type) where
  w : World π β
  owed : Bool
  fault : Option Fault
  deriving DecidableEq

/-- What a function did: its world, or the fault in the world before it. -/
def State.after (s : State π β) : Except Fault (World π β) → State π β
  | .ok w => { s with w := w }
  | .error f => { s with fault := some f }

/-- One event, where it can come: the pier answers once, the timer is of one
shot and runs only while the request is there, and a request is freed once. -/
def step (s : State π β) (e : Event β) : Option (State π β) :=
  if s.fault.isSome then none
  else match e with
    | .complete nun => if s.owed then some ({ s with owed := false }.after (httpScryCb nun s.w)) else none
    | .timeout => s.w.req.bind fun req =>
      if req.tim then
        some (s.after (httpReqTimerCb { req with tim := false } { s.w with req := some { req with tim := false } }))
      else none
    | .disconnect => s.w.req.map fun req => { s with w := httpReqDone req s.w }

/-- `_http_req_dispatch` has asked the pier: the two records point at each other. -/
def peeked (auth httq las : Bool) (pax : π) (nax : List ((Bool × π) × Answer β)) : State π β :=
  ⟨⟨some ⟨.peek, true, true, none, auth, httq⟩, some ⟨true, pax, las⟩, [], 0, 0, nax⟩, true, none⟩

/-- The callback has touched no request that was not there, the request has one
response at most, and the peek record is freed once if the answer has come, and
before that not. -/
structure Sound (s : State π β) : Prop where
  live : s.fault ≠ some .nullRequest ∧ s.fault ≠ some .freedRequest
  one : s.w.sent.length ≤ 1
  freed : s.w.freed = if s.owed then 0 else 1

/-- The answer, if it comes, comes before the timer runs out and before the client
is gone. -/
def InTime (es : List (Event β)) : Prop :=
  ∀ as nun bs, es = as ++ .complete nun :: bs → .timeout ∉ as ∧ .disconnect ∉ as

/-! ### What a run leads to -/

variable {s t : State π β} {es : List (Event β)} {e : Event β}

theorem inTime_concat (h : InTime es) (he : ∀ nun, e = .complete nun → .timeout ∉ es ∧ .disconnect ∉ es) :
    InTime (es ++ [e]) := by
  intro as nun bs heq
  rcases List.eq_nil_or_concat bs with rfl | ⟨bs', b, rfl⟩
  · obtain ⟨rfl, hlast⟩ := List.append_inj' heq rfl
    exact he nun (List.singleton_inj.mp hlast)
  · rw [List.concat_eq_append, ← List.cons_append, ← List.append_assoc] at heq
    exact h as nun bs' (List.append_inj' heq rfl).1

/-- While the answer is owed: the peek record points at the request, which has it
too, unless the timer has run out, and the request is there unless the client has
gone. -/
structure Waiting (es : List (Event β)) (s : State π β) : Prop where
  none : ∀ nun, .complete nun ∉ es
  owed : s.owed = true
  fault : s.fault = .none
  freed : s.w.freed = 0
  peq : ∃ p, s.w.peq = some p ∧ (p.req = true ↔ .timeout ∉ es)
  sent : s.w.sent.length = if s.w.peq.any (·.req) then 0 else 1
  req : .disconnect ∉ es → ∃ r, s.w.req = some r ∧ r.sat = .peek ∧ r.peq = true ∧ (r.tim = true ↔ .timeout ∉ es)
  gone : .disconnect ∈ es → s.w.req = Option.none

/-- After an answer in time: one response, and a request that is there has been
answered in full, or has no peek record and a timer that runs. -/
structure Answered (es : List (Event β)) (s : State π β) : Prop where
  inTime : InTime es
  owed : s.owed = false
  fault : s.fault = none ∨ s.fault = some .nullPeek
  freed : s.w.freed = 1
  sent : s.w.sent.length = 1
  req : ∀ r, s.w.req = some r → r.sat = .ripe ∧ r.tim = false ∨ r.sat = .peek ∧ r.peq = false

/-- After an answer that came late. -/
structure Broken (es : List (Event β)) (s : State π β) : Prop where
  late : ¬ InTime es
  fault : s.fault = some .nullRequest ∨ s.fault = some .freedRequest

theorem inTime_nil : InTime ([] : List (Event β)) := fun _ _ _ h => by simp at h

theorem waiting_peeked {auth httq las : Bool} {pax : π} {nax : List ((Bool × π) × Answer β)} :
    Waiting [] (peeked auth httq las pax nax) where
  none _ := List.not_mem_nil
  owed := rfl
  fault := rfl
  freed := rfl
  peq := ⟨_, rfl, by simp⟩
  sent := rfl
  req _ := ⟨_, rfl, rfl, rfl, by simp⟩
  gone h := absurd h List.not_mem_nil

/-- The response to a request that the callback finds: one is sent, and the request
is left answered in full or without a peek record. -/
theorem httpScryRespond_spec (r : Hreq) (nun : Answer β) (w : World π β) (hr : r.sat = .peek) (hp : r.peq = false)
    (hw : w.req = some r) : ∃ w', httpScryRespond r nun w = .ok w' ∧ w'.sent.length = w.sent.length + 1 ∧
      w'.freed = w.freed ∧ ∀ r', w'.req = some r' → r'.sat = .ripe ∧ r'.tim = false ∨ r'.sat = .peek ∧
        r'.peq = false := by
  have herr : ∀ a : Response β, (w.send a).sent.length = w.sent.length + 1 ∧ (w.send a).freed = w.freed ∧
      ∀ r', (w.send a).req = some r' → r'.sat = .ripe ∧ r'.tim = false ∨ r'.sat = .peek ∧ r'.peq = false := by
    intro a
    refine ⟨by simp [World.send], rfl, fun r' h' => .inr ?_⟩
    rw [show (w.send a).req = w.req from rfl, hw, Option.some.injEq] at h'
    exact h' ▸ ⟨hr, hp⟩
  unfold httpScryRespond
  split
  · exact ⟨_, rfl, herr _⟩
  · exact ⟨_, rfl, herr _⟩
  · rename_i auth payload
    by_cases ha : (auth && !r.auth) = true
    · rw [if_pos ha]
      exact ⟨_, rfl, herr _⟩
    · rw [if_neg ha]
      refine ⟨_, rfl, by simp [World.send], rfl, fun r' h' => .inl ?_⟩
      simp only [Option.some.injEq] at h'
      subst h'
      exact ⟨rfl, rfl⟩

/-- **The callback on records that point at each other**: it answers the request
and frees the peek record. -/
theorem httpScryCb_spec (nun : Answer β) {w : World π β} {p : Preq π} {r : Hreq} (hp : w.peq = some p)
    (hpr : p.req = true) (hr : w.req = some r) (hsat : r.sat = .peek) : ∃ w', httpScryCb nun w = .ok w' ∧
      w'.sent.length = w.sent.length + 1 ∧ w'.freed = w.freed + 1 ∧
      ∀ r', w'.req = some r' → r'.sat = .ripe ∧ r'.tim = false ∨ r'.sat = .peek ∧ r'.peq = false := by
  obtain ⟨sat, tim, peq, gen, auth, httq⟩ := r
  obtain rfl : sat = .peek := hsat
  obtain ⟨wreq, wpeq, sent, freed, kills, nax⟩ := w
  obtain rfl : wpeq = some p := hp
  obtain rfl : wreq = some _ := hr
  obtain ⟨w', hw', hsent, hfreed, hreq⟩ := httpScryRespond_spec ⟨.peek, tim, false, gen, auth, httq⟩ nun
    ⟨some ⟨.peek, tim, false, gen, auth, httq⟩, some p, sent, freed, kills, nax⟩ rfl rfl rfl
  unfold httpScryCb
  simp only [hpr, Option.elim_some, if_true, bind, Except.bind]
  rw [hw']
  exact ⟨_, rfl, hsent, congrArg (· + 1) hfreed, hreq⟩

/-- **The callback after the timer, or after the client has gone.** -/
theorem httpScryCb_late {nun : Answer β} {w : World π β} {p : Preq π} (hp : w.peq = some p)
    (h : p.req = false ∨ w.req = none) :
    httpScryCb nun w = .error .nullRequest ∨ httpScryCb nun w = .error .freedRequest := by
  unfold httpScryCb
  by_cases hpr : p.req = true
  · have hw : w.req = none := h.resolve_left (by simp [hpr])
    exact .inr (by simp only [hp, hpr, hw, Option.elim_some, Option.elim_none, if_true, bind, Except.bind])
  · exact .inl (by simp only [hp, if_neg hpr, Option.elim_some, bind, Except.bind])

/-- **Each event, while the answer is owed.** -/
theorem step_waiting (hw : Waiting es s) (h : step s e = some t) :
    Waiting (es ++ [e]) t ∨ Answered (es ++ [e]) t ∨ Broken (es ++ [e]) t := by
  obtain ⟨p, hp, hreq⟩ := hw.peq
  have hin : InTime es := fun as nun bs heq => absurd (heq ▸ by simp) (hw.none nun)
  unfold step at h
  rw [if_neg (by simp [hw.fault])] at h
  cases e with
  | complete nun =>
    simp only [hw.owed, if_true, Option.some.injEq] at h
    subst h
    by_cases hlate : .timeout ∈ es ∨ .disconnect ∈ es
    · have hdead : p.req = false ∨ s.w.req = none := by
        rcases hlate with ht | hd
        · exact .inl (by simpa using mt hreq.mp (not_not.mpr ht))
        · exact .inr (hw.gone hd)
      have hnot : ¬ InTime (es ++ [.complete nun]) := fun hi => by
        obtain ⟨h1, h2⟩ := hi es nun [] rfl
        exact hlate.elim h1 h2
      rcases httpScryCb_late hp hdead with hc | hc
      · exact .inr (.inr ⟨hnot, .inl (by rw [hc]; rfl)⟩)
      · exact .inr (.inr ⟨hnot, .inr (by rw [hc]; rfl)⟩)
    · obtain ⟨ht, hd⟩ := not_or.mp hlate
      obtain ⟨r, hr, hsat, -, -⟩ := hw.req hd
      obtain ⟨w', hc, hsent, hfreed, hr'⟩ := httpScryCb_spec nun hp (hreq.mpr ht) hr hsat
      rw [hc]
      have hnone : s.w.sent.length = 0 := by rw [hw.sent, hp, Option.any_some, if_pos (hreq.mpr ht)]
      exact .inr (.inl ⟨inTime_concat hin fun _ _ => ⟨ht, hd⟩, rfl, .inl hw.fault,
        by rw [State.after, hfreed, hw.freed], by rw [State.after, hsent, hnone], hr'⟩)
  | timeout =>
    rw [Option.bind_eq_some_iff] at h
    obtain ⟨r, hr, h⟩ := h
    have hd : .disconnect ∉ es := fun hd => by rw [hw.gone hd] at hr; exact Option.some_ne_none r hr.symm
    obtain ⟨r', hr', hsat, hpeq, htim⟩ := hw.req hd
    obtain rfl : r = r' := Option.some.inj (hr.symm.trans hr')
    by_cases hrun : r.tim = true
    · have ht := htim.mp hrun
      have hreq' := hreq.mpr ht
      rw [if_pos hrun, Option.some.injEq] at h
      subst h
      have hnone : s.w.sent.length = 0 := by rw [hw.sent, hp, Option.any_some, if_pos hreq']
      have hcb : httpReqTimerCb { r with tim := false } { s.w with req := some { r with tim := false } } =
          .ok (World.send
            { s.w with req := some { r with tim := false }, peq := some { p with req := false } } .timeout) := by
        unfold httpReqTimerCb
        simp only [hsat, hpeq, hp, if_true, Option.elim_some, bind, Except.bind]
      rw [hcb]
      exact .inl ⟨fun nun => by simp [hw.none nun], hw.owed, hw.fault, hw.freed, ⟨_, rfl, by simp⟩,
        by simp [State.after, World.send, hnone],
        fun _ => ⟨_, rfl, hsat, hpeq, by simp⟩, fun hm => absurd hm (by simp [hd])⟩
    · rw [if_neg hrun] at h
      exact absurd h (by simp)
  | disconnect =>
    rw [Option.map_eq_some_iff] at h
    obtain ⟨r, hr, rfl⟩ := h
    have hd : .disconnect ∉ es := fun hd => by rw [hw.gone hd] at hr; exact Option.some_ne_none r hr.symm
    obtain ⟨r', hr', hsat, -, -⟩ := hw.req hd
    obtain rfl : r = r' := Option.some.inj (hr.symm.trans hr')
    have hdone : httpReqDone r s.w = { s.w with req := none } := by
      unfold httpReqDone
      rw [hsat, if_neg (by decide)]
    rw [hdone]
    exact .inl ⟨fun nun => by simp [hw.none nun], hw.owed, hw.fault, hw.freed, ⟨p, hp, by simp [hreq]⟩, hw.sent,
      fun hm => absurd (List.mem_append_right es (List.mem_singleton_self _)) hm, fun _ => rfl⟩

/-- **Each event after an answer in time.** -/
theorem step_answered (ha : Answered es s) (h : step s e = some t) : Answered (es ++ [e]) t := by
  have hfault : s.fault.isSome = false := by
    unfold step at h
    by_cases hf : s.fault.isSome = true
    · rw [if_pos hf] at h
      exact absurd h.symm (Option.some_ne_none t)
    · simpa using hf
  unfold step at h
  rw [hfault, if_neg Bool.false_ne_true] at h
  have hin : (∀ nun, e ≠ .complete nun) → InTime (es ++ [e]) := fun hne =>
    inTime_concat ha.inTime fun nun he => absurd he (hne nun)
  cases e with
  | complete nun =>
    simp only [ha.owed, Bool.false_eq_true, if_false] at h
    exact absurd h.symm (Option.some_ne_none t)
  | timeout =>
    rw [Option.bind_eq_some_iff] at h
    obtain ⟨r, hr, h⟩ := h
    by_cases hrun : r.tim = true
    · rw [if_pos hrun, Option.some.injEq] at h
      subst h
      rcases ha.req r hr with ⟨-, htim⟩ | ⟨hsat, hpeq⟩
      · exact absurd (hrun.symm.trans htim) (by decide)
      -- the answer went out as an error, and the timer was left running
      · have hcb : httpReqTimerCb { r with tim := false } { s.w with req := some { r with tim := false } } =
            .error .nullPeek := by
          unfold httpReqTimerCb
          simp only [hsat, hpeq, Bool.false_eq_true, if_false]
        rw [hcb]
        exact ⟨hin (by simp), ha.owed, .inr rfl, ha.freed, ha.sent, ha.req⟩
    · rw [if_neg hrun] at h
      exact absurd h.symm (Option.some_ne_none t)
  | disconnect =>
    rw [Option.map_eq_some_iff] at h
    obtain ⟨r, hr, rfl⟩ := h
    have hdone : (httpReqDone r s.w).req = none ∧ (httpReqDone r s.w).sent = s.w.sent ∧
        (httpReqDone r s.w).freed = s.w.freed := by
      unfold httpReqDone
      dsimp only
      split <;> exact ⟨rfl, rfl, rfl⟩
    obtain ⟨hnone, hsent, hfreed⟩ := hdone
    exact ⟨hin (by simp), ha.owed, ha.fault, hfreed.trans ha.freed, hsent ▸ ha.sent,
      fun r' hr' => by rw [hnone] at hr'; exact absurd hr'.symm (Option.some_ne_none r')⟩

variable {auth httq las : Bool} {pax : π} {nax : List ((Bool × π) × Answer β)}

theorem run_cases (h : Replay.follow step (peeked auth httq las pax nax) es = some s) :
    Waiting es s ∨ Answered es s ∨ Broken es s := by
  refine Replay.follow_inv (fun es s => Waiting es s ∨ Answered es s ∨ Broken es s) (.inl waiting_peeked) ?_ h
  rintro es s e t (hw | ha | hb) ht
  · exact step_waiting hw ht
  · exact .inr (.inl (step_answered ha ht))
  · have hf : s.fault.isSome = true := by rcases hb.fault with h | h <;> rw [h] <;> rfl
    unfold step at ht
    rw [if_pos hf] at ht
    exact absurd ht.symm (Option.some_ne_none t)

/-- **The records of a request and its scry are handled as they should in just the
runs where the answer, if it comes, comes before the timer runs out and before the
client is gone.** -/
theorem sound_iff (h : Replay.follow step (peeked auth httq las pax nax) es = some s) : Sound s ↔ InTime es := by
  rcases run_cases h with hw | ha | hb
  · refine iff_of_true ⟨by simp [hw.fault], ?_, by rw [hw.owed]; exact hw.freed⟩ fun as nun bs heq =>
      absurd (heq ▸ by simp) (hw.none nun)
    rw [hw.sent]
    split <;> decide
  · refine iff_of_true ⟨?_, ha.sent.le, by rw [ha.owed]; exact ha.freed⟩ ha.inTime
    rcases ha.fault with hf | hf <;> rw [hf] <;> exact ⟨by decide, by decide⟩
  · refine iff_of_false (fun hs => ?_) hb.late
    rcases hb.fault with hf | hf
    · exact hs.live.1 hf
    · exact hs.live.2 hf

/-- A page in time, and the client goes. -/
theorem page_in_time_sound : ∃ s : State ℕ ℕ,
    Replay.follow step (peeked true true false 0 []) [.complete (.page true 7), .disconnect] = some s ∧ Sound s := by
  have hin : InTime [.complete (.page true (7 : ℕ)), .disconnect] :=
    have hone : InTime ([] ++ [Event.complete (Answer.page true 7)]) := inTime_concat inTime_nil (by simp)
    inTime_concat hone (by simp)
  have hrun : Replay.follow step (peeked true true false 0 []) [.complete (.page true 7), .disconnect] =
      some ⟨⟨none, none, [.start 7], 1, 0, [((true, 0), .page true 7)]⟩, false, none⟩ := rfl
  exact ⟨_, hrun, (sound_iff hrun).mpr hin⟩

/-- The timer runs out and then the answer comes: the callback reads through the
null pointer. -/
theorem late_answer_not_sound : ∃ s : State ℕ ℕ,
    Replay.follow step (peeked true true false 0 []) [.timeout, .complete (.page true 7)] = some s ∧ ¬ Sound s :=
  ⟨_, rfl, fun h => h.live.1 rfl⟩

end HttpScry
end Ursockets
