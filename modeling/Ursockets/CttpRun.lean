/-
# The runs of the http client

Every order of effects, of the resolver's and h2o's callbacks, and of what the sockets bring. A
session has planned one terminal event when it is gone and none before, and it is accepted before
its messages. A request is freed once; but a handshake request is freed while the resolver or h2o
still holds it, and so is an ordinary one that is cancelled twice.

Key definitions: `CellOk`, `SesOk`, `Inv`, `Story`, `Safe`, `Waited`.
Key theorems: `step_kept`, `story_of_run`, `safe_of_run`.
-/
import Ursockets.Cttp

namespace Ursockets
namespace HttpClient

/-! ### The invariant -/

/-- A request in memory is held by the resolver or by h2o's client, one that was freed was freed
once, and there is nothing about an address that was not allocated. -/
structure CellOk (allocated : Prop) (x : Cell) : Prop where
  new : ¬ allocated → x = .new
  freed : allocated → x.req = none → x.frees = 1
  live : ∀ r, x.req = some r → x.frees = 0 ∧
    (x.dns = true ∧ x.cli = none ∧ r.cli = false ∧ (r.sat = .addr ∨ r.sat = .quit ∧ r.wsu = none) ∨
      x.dns = false ∧ x.cli.isSome ∧ r.cli = true ∧ r.sat = .ripe)

/-- What a session that is gone has planned. -/
inductive Story : List WsEvent → Prop
  | reject : Story [.reject]
  | disconnect : Story [.disconnect]
  | accept (msgs : List WsEvent) (hm : ∀ e ∈ msgs, e.isMessage = true) : Story (.accept :: msgs ++ [.disconnect])

/-- A session waits for its handshake and has planned nothing, or is open and was accepted. -/
inductive Lives : Cws → List WsEvent → Prop
  | pending (c : Cws) (p : ℕ) (hs : c.sat = .pending) (hc : c.ceq = some p) (hk : c.sok = false) (hw : c.wslOn = false)
      (he : c.cloEv = false) (ho : c.cloOn = false) : Lives c []
  | opened (c : Cws) (msgs : List WsEvent) (hs : c.sat = .opened ∨ c.sat = .closing) (hq : c.Quiet)
      (hm : ∀ e ∈ msgs, e.isMessage = true) : Lives c (.accept :: msgs)

structure SesOk (started : Prop) (y : Session) : Prop where
  new : ¬ started → y = .new
  gone : started → y.cws = none → Story y.said
  live : ∀ c, y.cws = some c → Lives c y.said

/-- A handshake request and its session know each other. -/
structure Inv (s : Cttp) : Prop where
  cell : ∀ p, CellOk (p < s.reqs) (s.mem p)
  ses : ∀ w, SesOk (w < s.sessions) (s.ses w)
  link : ∀ p w, (s.mem p).req.bind Creq.wsu = some w ↔ (s.ses w).cws.bind Cws.ceq = some p

/-- Every callback that is outstanding holds a request that is in memory. -/
def Held (s : Cttp) : Prop := ∀ p, (s.mem p).dns = true ∨ (s.mem p).cli.isSome → (s.mem p).req.isSome

/-- What frees no request that is still held: a session is not closed while its request's name is being resolved, and no
request is cancelled that is a handshake or was cancelled before. -/
def Waited (s : Cttp) : Event → Prop
  | .cancelRequest num => ∀ p r, creqFind num s = some p → (s.mem p).req = some r → r.wsu = none ∧ r.sat ≠ .quit
  | .websocketDisconnect wid _ => ∀ w c p r, wsFind wid s = some w → (s.ses w).cws = some c → c.ceq = some p →
      (s.mem p).req = some r → r.sat ≠ .addr
  | _ => True

variable {s s' : Cttp} {p w : ℕ} {x : Cell} {y : Session} {r : Creq} {c : Cws} {e : Event} {es : List Event}

theorem inv_init : Inv .init :=
  ⟨fun _ => ⟨fun _ => rfl, fun h => absurd h (Nat.not_lt_zero _), fun _ h => absurd h.symm (Option.some_ne_none _)⟩,
    fun _ => ⟨fun _ => rfl, fun h => absurd h (Nat.not_lt_zero _), fun _ h => absurd h.symm (Option.some_ne_none _)⟩,
    fun _ _ => iff_of_false (fun h => absurd h.symm (Option.some_ne_none _))
      (fun h => absurd h.symm (Option.some_ne_none _))⟩

theorem held_init : Held .init := fun _ h => h.elim (fun h => absurd h Bool.false_ne_true)
    (fun h => absurd h Bool.false_ne_true)

/-- A request and a session are written, whose links agree. -/
theorem Inv.write (hI : Inv s) (hx : CellOk (p < s.reqs) x) (hy : SesOk (w < s.sessions) y)
    (hp : ∀ v, v ≠ w → (x.req.bind Creq.wsu = some v ↔ (s.mem p).req.bind Creq.wsu = some v))
    (hw : ∀ q, q ≠ p → (y.cws.bind Cws.ceq = some q ↔ (s.ses w).cws.bind Cws.ceq = some q))
    (hpw : x.req.bind Creq.wsu = some w ↔ y.cws.bind Cws.ceq = some p) : Inv ((s.put p x).say w y) := by
  constructor
  · intro q
    by_cases hq : q = p
    · subst hq
      simpa using hx
    · simpa [hq] using hI.cell q
  · intro v
    by_cases hv : v = w
    · subst hv
      simpa using hy
    · simpa [hv] using hI.ses v
  · intro q v
    by_cases hq : q = p
    · subst hq
      by_cases hv : v = w
      · subst hv
        simpa using hpw
      · simpa [hv, hp v hv] using hI.link q v
    · by_cases hv : v = w
      · subst hv
        simpa [hq, hw q hq] using hI.link q v
      · simpa [hq, hv] using hI.link q v

/-- A request is written that has the session it had. -/
theorem Inv.put (hI : Inv s) (hx : CellOk (p < s.reqs) x) (hwsu : x.req.bind Creq.wsu = (s.mem p).req.bind Creq.wsu) :
    Inv (s.put p x) := by
  have h := hI.write (w := s.sessions) (y := s.ses s.sessions) hx (hI.ses _) (fun v _ => by rw [hwsu])
    (fun q _ => Iff.rfl)
    (by rw [hwsu]; exact hI.link p _)
  rwa [Cttp.say_self (by rfl)] at h

/-- A session is written that has the request it had. -/
theorem Inv.say (hI : Inv s) (hy : SesOk (w < s.sessions) y) (hceq : y.cws.bind Cws.ceq = (s.ses w).cws.bind Cws.ceq) :
    Inv (s.say w y) := by
  have h := hI.write (p := s.reqs) (x := s.mem s.reqs) (hI.cell _) hy (fun v _ => Iff.rfl) (fun q _ => by rw [hceq])
    (by rw [hceq]; exact hI.link _ w)
  rwa [Cttp.put_self rfl] at h

/-- The session of a handshake request waits for it. -/
theorem Inv.waits (hI : Inv s) (hr : (s.mem p).req = some r) (hw : r.wsu = some w) :
    ∃ c, Waits s w p c ∧ (s.ses w).said = [] ∧ c.cloEv = false ∧ c.cloOn = false := by
  have h := (hI.link p w).mp (by rw [hr]; exact hw)
  obtain ⟨c, hc, hceq⟩ := Option.bind_eq_some_iff.mp h
  have hl := (hI.ses w).live c hc
  generalize hsaid : (s.ses w).said = l at hl
  cases hl with
  | pending p hs hp hk hw he ho => exact ⟨c, ⟨hc, hceq, hw⟩, rfl, he, ho⟩
  | opened msgs hs hq hm =>
    rw [hq.ceq] at hceq
    exact absurd hceq.symm (Option.some_ne_none _)

theorem Inv.allocated (hI : Inv s) (hr : (s.mem p).req = some r) : p < s.reqs := by
  by_contra hlt
  rw [(hI.cell p).new hlt] at hr
  exact absurd hr.symm (Option.some_ne_none _)

theorem Inv.started (hI : Inv s) (hc : (s.ses w).cws = some c) : w < s.sessions := by
  by_contra hlt
  rw [(hI.ses w).new hlt] at hc
  exact absurd hc.symm (Option.some_ne_none _)

/-- Who holds a request that was written. -/
theorem Held.put_iff (hh : Held s) : Held (s.put p x) ↔ (x.dns = true ∨ x.cli.isSome → x.req.isSome) := by
  constructor
  · intro h
    have hp := h p
    rwa [Cttp.put_mem] at hp
  · intro h q
    by_cases hq : q = p
    · subst hq
      rw [Cttp.put_mem]
      exact h
    · rw [Cttp.put_mem_ne hq]
      exact hh q

theorem held_say : Held (s.say w y) ↔ Held s := Iff.rfl

/-- A request that is over leaves the invariant. -/
theorem cellOk_over (halloc : Prop) (ha : halloc) (hn : x.req = none) (hf : x.frees = 1) : CellOk halloc x :=
  ⟨fun h => absurd ha h, fun _ _ => hf, fun _ hr => absurd (hn.symm.trans hr).symm (Option.some_ne_none _)⟩

/-- **An ordinary request is freed.** -/
theorem Inv.freed (hI : Inv s) (hr : (s.mem p).req = some r) (hwsu : r.wsu = none) (hn : x.req = none)
    (hf : x.frees = (s.mem p).frees + 1) : Inv (s.put p x) := by
  refine hI.put (cellOk_over _ (hI.allocated hr) hn ?_) ?_
  · rw [hf, ((hI.cell p).live r hr).1]
  · rw [hn, hr]
    exact hwsu.symm

/-- **A handshake request is freed with its session**, which has planned how it ended. -/
theorem Inv.freed_both (hI : Inv s) (hr : (s.mem p).req = some r) (hwsu : r.wsu = some w) (hn : x.req = none)
    (hf : x.frees = (s.mem p).frees + 1) (hy : y.cws = none) (hs : Story y.said) : Inv ((s.put p x).say w y) := by
  obtain ⟨c, hw, -, -⟩ := hI.waits hr hwsu
  refine hI.write (cellOk_over _ (hI.allocated hr) hn ?_) ?_ ?_ ?_ ?_
  · rw [hf, ((hI.cell p).live r hr).1]
  · exact ⟨fun h => absurd (hI.started hw.cws) h, fun _ _ => hs,
      fun c hc => absurd (hy.symm.trans hc).symm (Option.some_ne_none _)⟩
  · intro v hv
    rw [hn, hr]
    exact iff_of_false (fun h => absurd h.symm (Option.some_ne_none _))
      fun h => hv (Option.some.inj (hwsu.symm.trans h)).symm
  · intro q hq
    rw [hy, hw.cws]
    exact iff_of_false (fun h => absurd h.symm (Option.some_ne_none _))
      fun h => hq (Option.some.inj (hw.ceq.symm.trans h)).symm
  · rw [hn, hy]
    exact iff_of_false (fun h => absurd h.symm (Option.some_ne_none _)) (fun h => absurd h.symm (Option.some_ne_none _))

theorem held_over (hh : Held s) (hn : x.req = none) : Held (s.put p x) ↔ x.dns = false ∧ x.cli = none := by
  rw [hh.put_iff, hn]
  cases x.dns <;> cases x.cli <;> simp

/-- What a step that ends well has kept; nothing is left that holds a freed request unless `B`. -/
def Kept (s s' : Cttp) (B : Prop) : Prop := Inv s' ∧ (Held s → (Held s' ↔ B))

/-! ### The requests -/

/-- The request that is written over the one at the address: it has the same session and was freed as often. -/
structure Over (s : Cttp) (p : ℕ) (r : Creq) (x : Cell) (u : Creq) : Prop where
  old : (s.mem p).req = some r
  new : x.req = some u
  wsu : u.wsu = r.wsu
  frees : x.frees = (s.mem p).frees

variable {u : Creq}

theorem Over.waits (hI : Inv s) (ho : Over s p r x u) (hw : u.wsu = some w) : ∃ c, Waits (s.put p x) w p c := by
  obtain ⟨c, hwait, -, -⟩ := hI.waits ho.old (ho.wsu ▸ hw)
  exact ⟨c, ⟨hwait.cws, hwait.ceq, hwait.off⟩⟩

theorem failWebsocket_kept (hI : Inv s) (ho : Over s p r x u) (hw : u.wsu = some w) :
    ∃ s', failWebsocket p (s.put p x) = some s' ∧ Kept s s' (x.dns = false ∧ x.cli = none) := by
  obtain ⟨c, hwait⟩ := ho.waits hI hw
  obtain ⟨-, -, hnil, -, -⟩ := hI.waits ho.old (ho.wsu ▸ hw)
  have h := failWebsocket_eq hwait (by rw [Cttp.put_mem]; exact ho.new) hw
  rw [Cttp.put_mem, Cttp.put_put, Cttp.put_ses, hnil] at h
  refine ⟨_, h, hI.freed_both ho.old (ho.wsu ▸ hw) rfl ?_ rfl .reject, fun hh => ?_⟩
  · show x.frees + 1 = _
    rw [ho.frees]
  · exact held_over hh (x := x.over) rfl

theorem creqFail_kept (hI : Inv s) (ho : Over s p r x u) :
    ∃ s', creqFail p (s.put p x) = some s' ∧ Kept s s' (x.dns = false ∧ x.cli = none) := by
  unfold creqFail
  rw [Cttp.put_mem, ho.new, Option.bind_some]
  cases hw : u.wsu with
  | some w =>
    rw [if_pos (show (some w).isSome = true from rfl)]
    exact failWebsocket_kept hI ho hw
  | none =>
    rw [if_neg (by decide)]
    have h := creqFree_eq (s := (s.put p x).receive p 504) (p := p) (r := u) (by simp [Cttp.receive, ho.new])
    refine ⟨_, h, ?_⟩
    simp only [Cttp.receive, Cttp.put_put, Cttp.put_mem]
    refine ⟨hI.freed ho.old (ho.wsu ▸ hw) rfl ?_, fun hh => held_over hh rfl⟩
    show x.frees + 1 = _
    rw [ho.frees]

/-- A request that its callback finds in order goes on. -/
theorem live_kept (hI : Inv s) (ho : Over s p r x u)
    (hx : x.dns = true ∧ x.cli = none ∧ u.cli = false ∧ (u.sat = .addr ∨ u.sat = .quit ∧ u.wsu = none) ∨
      x.dns = false ∧ x.cli.isSome ∧ u.cli = true ∧ u.sat = .ripe) : Kept s (s.put p x) True := by
  refine ⟨hI.put ⟨fun h => absurd (hI.allocated ho.old) h, fun _ hn => ?_, fun q hq => ?_⟩ ?_, fun hh => ?_⟩
  · exact absurd (hn.symm.trans ho.new).symm (Option.some_ne_none _)
  · obtain rfl := Option.some.inj (ho.new.symm.trans hq)
    refine ⟨?_, hx⟩
    rw [ho.frees]
    exact ((hI.cell p).live r ho.old).1
  · rw [ho.new, ho.old]
    exact ho.wsu
  · rw [hh.put_iff, ho.new]
    exact iff_of_true (fun _ => rfl) trivial

theorem creqConnect_kept (hI : Inv s) (ho : Over s p r x u) (hs : u.sat = .conn) (hip : u.ipf = true)
    (hd : x.dns = false)
    (hc : x.cli = none) (sync : Bool) : ∃ s', creqConnect p sync (s.put p x) = some s' ∧ Kept s s' True := by
  unfold creqConnect
  rw [Cttp.put_mem, ho.new, Option.bind_some, if_pos ⟨hs, hip⟩]
  cases sync with
  | true =>
    rw [if_pos rfl, Cttp.put_put]
    exact ⟨_, rfl, live_kept hI ⟨ho.old, rfl, ho.wsu, ho.frees⟩ (.inr ⟨hd, rfl, rfl, rfl⟩)⟩
  | false =>
    rw [if_neg (by decide)]
    have hcb : creqOnConnect p false (s.put p x) = some (s.put p { x with req := some { u with sat := .quit } }) := by
      unfold creqOnConnect
      rw [Cttp.put_mem, ho.new, Option.bind_some, if_neg (by decide), hs]
      simp [Cttp.setReq]
    rw [hcb, Option.bind_some]
    obtain ⟨s', h, hI', hh⟩ := creqFail_kept hI (x := { x with req := some { u with sat := .quit } })
      (u := { u with sat := .quit }) ⟨ho.old, rfl, ho.wsu, ho.frees⟩
    exact ⟨s', h, hI', fun h => (hh h).trans (iff_true_intro ⟨hd, hc⟩)⟩

theorem creqStart_kept (hI : Inv s) (ho : Over s p r x u) (hcli : u.cli = false) (hd : x.dns = false)
    (hc : x.cli = none)
    (sync : Bool) : ∃ s', creqStart p sync (s.put p x) = some s' ∧ Kept s s' True := by
  unfold creqStart
  rw [Cttp.put_mem, ho.new, Option.bind_some]
  unfold Cttp.setReq
  rw [Cttp.put_mem, Cttp.put_put, Cttp.put_put]
  split
  · rename_i hip
    exact creqConnect_kept hI (x := { x with req := some { u with sat := .conn } }) (u := { u with sat := .conn })
      ⟨ho.old, rfl, ho.wsu, ho.frees⟩ rfl hip hd hc sync
  · have hov : Over s p r { x with req := some { u with sat := .addr } } { u with sat := .addr } :=
      ⟨ho.old, rfl, ho.wsu, ho.frees⟩
    unfold creqResolve
    rw [Cttp.put_mem, Option.bind_some, if_pos rfl, Cttp.put_put]
    split
    · exact ⟨_, rfl, live_kept hI ⟨ho.old, rfl, ho.wsu, ho.frees⟩ (.inl ⟨rfl, hc, hcli, .inl rfl⟩)⟩
    · obtain ⟨s', h, hI', hh⟩ := creqFail_kept hI hov
      exact ⟨s', h, hI', fun h => (hh h).trans (iff_true_intro ⟨hd, hc⟩)⟩

/-! ### The sessions -/

/-- **What wslay comes to keeps the invariant.** -/
theorem outcome_kept {h : Handled} (hI : Inv s) (hc : (s.ses w).cws = some c) (hq : c.Quiet) (ho : Outcome s w c h s') :
    Kept s s' True := by
  have hl := (hI.ses w).live c hc
  generalize hsaid : (s.ses w).said = l at hl
  cases hl with
  | pending p hs hp hk hw he hclo =>
    rw [hq.ceq] at hp
    exact absurd hp.symm (Option.some_ne_none _)
  | opened before hs hq' hbefore =>
    cases ho with
    | lives handled msgs hh hm =>
      refine ⟨hI.say ⟨fun h => absurd (hI.started hc) h, fun _ hn => ?_, fun d hd => ?_⟩ ?_, fun h => iff_true_intro h⟩
      · exact absurd hn (Option.some_ne_none _)
      · obtain rfl := Option.some.inj hd
        rw [hsaid]
        exact .opened c (before ++ msgs) hs hq fun e he => (List.mem_append.mp he).elim (hbefore e) (hm e)
      · rw [hc]
    | gone msgs hm =>
      refine ⟨hI.say ⟨fun h => absurd (hI.started hc) h, fun _ _ => ?_, fun d hd => ?_⟩ ?_, fun h => iff_true_intro h⟩
      · rw [hsaid]
        exact .accept (before ++ msgs) fun e he => (List.mem_append.mp he).elim (hbefore e) (hm e)
      · exact absurd hd.symm (Option.some_ne_none _)
      · rw [hc]
        exact hq.ceq.symm

theorem wsProceed_kept (hI : Inv s) (hc : (s.ses w).cws = some c) (hq : c.Quiet) (turns : List Turn)
    (h : wsProceed w turns s = some s') : Kept s s' True := by
  obtain ⟨handled, t, ht, ho⟩ := wsProceed_outcome hq turns hc
  obtain rfl := Option.some.inj (ht.symm.trans h)
  exact outcome_kept hI hc hq ho

theorem wsClose_kept (hI : Inv s) (hc : (s.ses w).cws = some c) (hq : c.Quiet) (h : wsClose w true s = some s') :
    Kept s s' True := by
  have hclose := wsClose_quiet (s := s) (w := w) (l := (s.ses w).said) hq
  rw [Cttp.say_self (by rw [← hc])] at hclose
  obtain rfl := Option.some.inj (hclose.symm.trans h)
  have ho := Outcome.gone (s := s) (w := w) (c := c) [] fun e he => absurd he List.not_mem_nil
  rw [List.append_nil] at ho
  exact outcome_kept hI hc hq ho

/-! ### Records that are allocated -/

/-- A record that is not allocated knows of no other. -/
theorem Inv.unlinked (hI : Inv s) :
    (∀ v, (s.mem s.reqs).req.bind Creq.wsu ≠ some v) ∧ ∀ q, (s.ses s.sessions).cws.bind Cws.ceq ≠ some q := by
  rw [(hI.cell s.reqs).new (lt_irrefl _), (hI.ses s.sessions).new (lt_irrefl _)]
  exact ⟨fun v h => absurd h.symm (Option.some_ne_none _), fun q h => absurd h.symm (Option.some_ne_none _)⟩

/-- The next request and the next session are written, either of which may be allocated. -/
theorem Inv.grow (hI : Inv s) {n m : ℕ} (hn : s.reqs ≤ n ∧ n ≤ s.reqs + 1) (hm : s.sessions ≤ m ∧ m ≤ s.sessions + 1)
    (hx : CellOk (s.reqs < n) x) (hy : SesOk (s.sessions < m) y)
    (hwsu : ∀ v, x.req.bind Creq.wsu = some v → v = s.sessions) (hceq : ∀ q, y.cws.bind Cws.ceq = some q → q = s.reqs)
    (hpw : x.req.bind Creq.wsu = some s.sessions ↔ y.cws.bind Cws.ceq = some s.reqs) :
    Inv ⟨n, Function.update s.mem s.reqs x, m, Function.update s.ses s.sessions y⟩ := by
  constructor
  · intro q
    by_cases hq : q = s.reqs
    · subst hq
      simpa using hx
    · have hiff : q < n ↔ q < s.reqs := by omega
      simpa [hq, hiff] using hI.cell q
  · intro v
    by_cases hv : v = s.sessions
    · subst hv
      simpa using hy
    · have hiff : v < m ↔ v < s.sessions := by omega
      simpa [hv, hiff] using hI.ses v
  · intro q v
    have hl := hI.link q v
    show (Function.update s.mem s.reqs x q).req.bind Creq.wsu = some v ↔
      (Function.update s.ses s.sessions y v).cws.bind Cws.ceq = some q
    by_cases hq : q = s.reqs
    · subst hq
      by_cases hv : v = s.sessions
      · subst hv
        simpa using hpw
      · rw [Function.update_self, Function.update_of_ne hv]
        exact iff_of_false (fun h => hv (hwsu v h)) fun h => hI.unlinked.1 v (hl.mpr h)
    · by_cases hv : v = s.sessions
      · subst hv
        rw [Function.update_self, Function.update_of_ne hq]
        exact iff_of_false (fun h => hI.unlinked.2 q (hl.mp h)) fun h => hq (hceq q h)
      · rw [Function.update_of_ne hq, Function.update_of_ne hv]
        exact hl

/-- A request that is being resolved. -/
def resolving (num : ℕ) (ipf : Bool) (wsu : Option ℕ) : Cell :=
  { Cell.new with req := some ⟨num, .addr, ipf, false, wsu, none⟩, dns := true }

theorem cellOk_resolving {num : ℕ} {ipf : Bool} {wsu : Option ℕ} (halloc : Prop) (ha : halloc) :
    CellOk halloc (resolving num ipf wsu) :=
  ⟨fun h => absurd ha h, fun _ h => absurd h (Option.some_ne_none _), fun r hr => by
    obtain rfl := Option.some.inj hr
    exact ⟨rfl, .inl ⟨rfl, rfl, rfl, .inl rfl⟩⟩⟩

theorem held_grow {n m : ℕ} {f : ℕ → Session} (hh : Held s) (hx : x.dns = true ∨ x.cli.isSome → x.req.isSome) :
    Held ⟨n, Function.update s.mem s.reqs x, m, f⟩ := by
  intro q
  by_cases hq : q = s.reqs
  · subst hq
    simpa using hx
  · simpa [hq] using hh q

/-- **A request starts.** -/
theorem request_kept (hI : Inv s) {num : ℕ} {ipf sync : Bool}
    (h : creqStart s.reqs sync (creqNew num ipf none s) = some s') :
    Kept s s' True := by
  have hbase : Inv ⟨s.reqs + 1, Function.update s.mem s.reqs (resolving num ipf none), s.sessions,
      Function.update s.ses s.sessions (s.ses s.sessions)⟩ :=
    hI.grow ⟨Nat.le_succ _, le_refl _⟩ ⟨le_refl _, Nat.le_succ _⟩ (cellOk_resolving _ (Nat.lt_succ_self _)) (hI.ses _)
      (fun v hv => absurd hv.symm (Option.some_ne_none _)) (fun q hq => absurd hq (hI.unlinked.2 q))
      (iff_of_false (fun h => absurd h.symm (Option.some_ne_none _)) (hI.unlinked.2 _))
  have hnew : creqNew num ipf none s = Cttp.put ⟨s.reqs + 1, Function.update s.mem s.reqs (resolving num ipf none),
    s.sessions,
      Function.update s.ses s.sessions (s.ses s.sessions)⟩ s.reqs
      { Cell.new with req := some ⟨num, .init, ipf, false, none, none⟩ } := by
    unfold Cttp.put creqNew
    simp
  obtain ⟨t, ht, hIt, hht⟩ := creqStart_kept hbase (p := s.reqs) (r := ⟨num, .addr, ipf, false, none, none⟩)
    (x := { Cell.new with req := some ⟨num, .init, ipf, false, none, none⟩ })
      (u := ⟨num, .init, ipf, false, none, none⟩)
    ⟨by simp [resolving], rfl, rfl, by simp [resolving]⟩ rfl rfl rfl sync
  rw [← hnew] at ht
  obtain rfl := Option.some.inj (ht.symm.trans h)
  exact ⟨hIt, fun hh => hht (held_grow hh fun _ => rfl)⟩

/-- **A session starts**, with its handshake request or rejected at once. -/
theorem websocketHandshake_kept (hI : Inv s) {wid : ℕ} {url : Option Bool} {sync : Bool}
    (h : wsStart wid url sync s = some s') :
    Kept s s' True := by
  cases url with
  | none =>
    have hr : wsClose s.sessions false ((wsNew wid s).wsPlanEvent s.sessions .reject) = some s' := h
    rw [wsClose_eq (c := .new wid) (by simp [Cttp.wsPlanEvent, wsNew]) rfl rfl] at hr
    have hs : s' = ⟨s.reqs, Function.update s.mem s.reqs (s.mem s.reqs), s.sessions + 1,
        Function.update s.ses s.sessions ⟨none, [.reject]⟩⟩ := by
      rw [← Option.some.inj hr]
      simp [Cttp.wsPlanEvent, Cttp.say, wsNew]
    rw [hs]
    refine ⟨hI.grow ⟨le_refl _, Nat.le_succ _⟩ ⟨Nat.le_succ _, le_refl _⟩ (hI.cell _)
      ⟨fun h => absurd (Nat.lt_succ_self _) h,
      fun _ _ => .reject, fun c hc => absurd hc.symm (Option.some_ne_none _)⟩ (fun v hv => absurd hv (hI.unlinked.1 v))
      (fun q hq => absurd hq.symm (Option.some_ne_none _)) (iff_of_false (hI.unlinked.1 _)
        fun h => absurd h.symm (Option.some_ne_none _)), fun hh => iff_true_intro ?_⟩
    rw [Function.update_eq_self]
    exact hh
  | some ipf =>
    have hbase : Inv ⟨s.reqs + 1, Function.update s.mem s.reqs (resolving wid ipf (some s.sessions)), s.sessions + 1,
        Function.update s.ses s.sessions ⟨some ⟨wid, .pending, some s.reqs, false, false, false, false, false⟩, []⟩⟩ :=
      hI.grow ⟨Nat.le_succ _, le_refl _⟩ ⟨Nat.le_succ _, le_refl _⟩ (cellOk_resolving _ (Nat.lt_succ_self _))
        ⟨fun h => absurd (Nat.lt_succ_self _) h, fun _ hn => absurd hn (Option.some_ne_none _), fun c hc => by
          obtain rfl := Option.some.inj hc
          exact .pending _ s.reqs rfl rfl rfl rfl rfl rfl⟩
        (fun v hv => (Option.some.inj hv).symm) (fun q hq => (Option.some.inj hq).symm) (iff_of_true rfl rfl)
    have hr : creqStart s.reqs sync ((creqNew wid ipf (some s.sessions) (wsNew wid s)).setCws s.sessions
        { Cws.new wid with ceq := some s.reqs }) = some s' := h
    have hnew : (creqNew wid ipf (some s.sessions) (wsNew wid s)).setCws s.sessions
      { Cws.new wid with ceq := some s.reqs } =
        Cttp.put ⟨s.reqs + 1, Function.update s.mem s.reqs (resolving wid ipf (some s.sessions)), s.sessions + 1,
          Function.update s.ses s.sessions ⟨some ⟨wid, .pending, some s.reqs, false, false, false, false, false⟩,
            []⟩⟩ s.reqs
          { Cell.new with req := some ⟨wid, .init, ipf, false, some s.sessions, none⟩ } := by
      unfold Cttp.put Cttp.setCws creqNew Cttp.say wsNew Cws.new
      simp
    obtain ⟨t, ht, hIt, hht⟩ := creqStart_kept hbase (p := s.reqs)
      (r := ⟨wid, .addr, ipf, false, some s.sessions, none⟩)
      (x := { Cell.new with req := some ⟨wid, .init, ipf, false, some s.sessions, none⟩ })
      (u := ⟨wid, .init, ipf, false, some s.sessions, none⟩) ⟨by simp [resolving], rfl,
        rfl, by simp [resolving]⟩ rfl rfl rfl sync
    rw [← hnew] at ht
    obtain rfl := Option.some.inj (ht.symm.trans hr)
    exact ⟨hIt, fun hh => hht (held_grow hh fun _ => rfl)⟩

/-! ### One event -/

theorem Kept.congr {A B : Prop} (h : Kept s s' A) (hab : A ↔ B) : Kept s s' B := ⟨h.1, fun hh => (h.2 hh).trans hab⟩

theorem kept_refl (hI : Inv s) : Kept s s True := ⟨hI, fun hh => iff_true_intro hh⟩

theorem creqFind_some {num : ℕ} (h : creqFind num s = some p) : ∃ r, (s.mem p).req = some r := by
  unfold creqFind at h
  have hp := List.find?_some h
  cases hr : (s.mem p).req with
  | none =>
    rw [hr] at hp
    exact absurd hp Bool.false_ne_true
  | some r => exact ⟨r, rfl⟩

theorem wsFind_some {wid : ℕ} (h : wsFind wid s = some w) : ∃ c, (s.ses w).cws = some c := by
  unfold wsFind at h
  have hp := List.find?_some h
  cases hc : (s.ses w).cws with
  | none =>
    rw [hc] at hp
    exact absurd hp Bool.false_ne_true
  | some c => exact ⟨c, rfl⟩

/-- A request that is over before it is held by anything else. -/
theorem Over.self (hr : (s.mem p).req = some r) (x : Cell) (hx : x.req = some r) (hf : x.frees = (s.mem p).frees) :
    Over s p r x r :=
  ⟨hr, hx, rfl, hf⟩

/-- **A request is cancelled.** -/
theorem creqQuit_kept (hI : Inv s) (hr : (s.mem p).req = some r) (h : creqQuit p s = some s') :
    Kept s s' (r.wsu = none ∧ r.sat ≠ .quit) := by
  have hlive := ((hI.cell p).live r hr).2
  unfold creqQuit at h
  rw [hr, Option.bind_some] at h
  split at h
  · rename_i hw
    obtain ⟨w, hwsu⟩ := Option.isSome_iff_exists.mp hw
    obtain ⟨t, ht, hk⟩ := failWebsocket_kept hI (Over.self hr _ hr rfl) hwsu
    rw [Cttp.put_self rfl] at ht
    obtain rfl := Option.some.inj (ht.symm.trans h)
    refine hk.congr (iff_of_false ?_ ?_)
    · rcases hlive with ⟨hd, -⟩ | ⟨-, hc, -⟩
      · exact fun h => Bool.false_ne_true (h.1.symm.trans hd)
      · rintro ⟨-, hn⟩
        rw [hn] at hc
        exact Bool.false_ne_true hc
    · exact fun h => absurd (h.1.symm.trans hwsu).symm (Option.some_ne_none _)
  rename_i hw
  have hwsu : r.wsu = none := Option.not_isSome_iff_eq_none.mp hw
  split at h
  · rename_i hs
    obtain rfl := Option.some.inj h
    rcases hlive with ⟨hd, hc, hcli, -⟩ | ⟨-, -, -, hs'⟩
    · have hk := live_kept hI (x := { s.mem p with req := some { r with sat := .quit } }) (u := { r with sat := .quit })
        ⟨hr, rfl, rfl, rfl⟩ (.inl ⟨hd, hc, hcli, .inr ⟨rfl, hwsu⟩⟩)
      exact hk.congr (iff_of_true trivial ⟨hwsu, by rw [hs]; decide⟩)
    · exact absurd (hs.symm.trans hs') (by decide)
  rename_i hs
  rcases hlive with ⟨hd, hc, hcli, hs' | ⟨hs', -⟩⟩ | ⟨hd, hc, hcli, hs'⟩
  · exact absurd hs' hs
  · rw [if_neg (by rw [hcli]; decide), creqFree_eq hr] at h
    obtain rfl := Option.some.inj h
    refine ⟨hI.freed hr hwsu rfl rfl, fun hh => (held_over hh rfl).trans (iff_of_false ?_ ?_)⟩
    · exact fun h => Bool.false_ne_true (h.1.symm.trans hd)
    · exact fun h => h.2 hs'
  · rw [if_pos hcli, creqFree_eq (s := s.setCli p none) (r := r) (by simpa [Cttp.setCli] using hr)] at h
    obtain rfl := Option.some.inj h
    simp only [Cttp.setCli, Cttp.put_mem, Cttp.put_put]
    refine ⟨hI.freed hr hwsu rfl rfl, fun hh => (held_over hh rfl).trans (iff_of_true ⟨hd, rfl⟩ ⟨hwsu, ?_⟩)⟩
    rw [hs']
    decide

theorem websocketMessage_kept (hI : Inv s) (hc : (s.ses w).cws = some c) {queued : Bool} {turns : List Turn}
    (h : wsSendMessage w queued turns s = some s') : Kept s s' True := by
  unfold wsSendMessage at h
  rw [hc, Option.bind_some] at h
  split at h
  · obtain rfl := Option.some.inj h
    exact kept_refl hI
  · rename_i ho
    have hl := (hI.ses w).live c hc
    generalize hsaid : (s.ses w).said = l at hl
    cases hl with
    | pending p hs hp hk hw he hclo => exact absurd (.inl (by rw [hs]; decide)) ho
    | opened msgs hs hq hm => exact wsProceed_kept hI hc hq turns h

/-- **A session is asked to close.** While it waits for its handshake it is closed at once, with its request. -/
theorem websocketDisconnect_kept (hI : Inv s) (hc : (s.ses w).cws = some c) {turns : List Turn}
    (h : wsQueueClose w turns s = some s') :
      Kept s s' (∀ p r, c.ceq = some p → (s.mem p).req = some r → r.sat ≠ .addr) := by
  unfold wsQueueClose at h
  rw [hc, Option.bind_some] at h
  have hl := (hI.ses w).live c hc
  generalize hsaid : (s.ses w).said = l at hl
  cases hl with
  | pending p hs hp hk hw he hclo =>
    rw [if_pos (.inl (by rw [hs]; decide))] at h
    obtain ⟨r, hr, hwsu⟩ := Option.bind_eq_some_iff.mp ((hI.link p w).mpr (by rw [hc]; exact hp))
    rw [wsClose_pending ⟨hc, hp, hw⟩ hr hwsu] at h
    obtain rfl := Option.some.inj h
    rw [hsaid]
    have hall : (∀ q r, c.ceq = some q → (s.mem q).req = some r → r.sat ≠ .addr) ↔ r.sat ≠ .addr := by
      constructor
      · exact fun h => h p r hp hr
      · intro h q u hq hr'
        obtain rfl := Option.some.inj (hp.symm.trans hq)
        obtain rfl := Option.some.inj (hr.symm.trans hr')
        exact h
    refine ⟨hI.freed_both hr hwsu rfl rfl rfl .disconnect, fun hh => ?_⟩
    rw [hall, held_say, held_over hh rfl]
    rcases ((hI.cell p).live r hr).2 with ⟨hd, hcli, hrc, hs' | ⟨-, hno⟩⟩ | ⟨hd, hcli, hrc, hs'⟩
    · exact iff_of_false (fun h => Bool.false_ne_true (h.1.symm.trans hd)) fun h => h hs'
    · exact absurd (hno.symm.trans hwsu).symm (Option.some_ne_none _)
    · refine iff_of_true ⟨hd, ?_⟩ (by rw [hs']; decide)
      exact if_pos hrc
  | opened msgs hs hq hm =>
    have hnone : ∀ p r, c.ceq = some p → (s.mem p).req = some r → r.sat ≠ .addr := fun p r hp =>
      absurd (hq.ceq.symm.trans hp).symm (Option.some_ne_none _)
    refine Kept.congr ?_ (iff_of_true trivial hnone)
    split at h
    · exact wsClose_kept hI hc hq h
    rename_i ho
    rw [if_neg fun h => ho (.inl (by rw [h]; decide))] at h
    have hq' : Cws.Quiet { c with sat := .closing } := ⟨hq.ceq, hq.wslOn, hq.cloEv, hq.cloOn⟩
    have hclosing : Inv (s.setCws w { c with sat := .closing }) := by
      refine hI.say ⟨fun h => absurd (hI.started hc) h, fun _ hn => absurd hn (Option.some_ne_none _),
        fun d hd => ?_⟩ ?_
      · obtain rfl := Option.some.inj hd
        show Lives _ (s.ses w).said
        rw [hsaid]
        exact .opened _ msgs (.inr rfl) hq' hm
      · rw [hc]
        rfl
    have hk := wsProceed_kept hclosing (by simp [Cttp.setCws]) hq' turns h
    exact ⟨hk.1, fun hh => hk.2 hh⟩

/-- **The resolver calls back.** -/
theorem resolved_kept (hI : Inv s) {ok sync : Bool} (hdns : (s.mem p).dns = true)
    (h : creqResolveCb p ok sync (s.put p { s.mem p with dns := false }) = some s') : Kept s s' True := by
  unfold creqResolveCb at h
  rw [Cttp.put_mem] at h
  obtain ⟨r, hr, h⟩ := Option.bind_eq_some_iff.mp h
  rcases ((hI.cell p).live r hr).2 with ⟨-, hc, hcli, hsat⟩ | ⟨hd, -⟩
  · split at h
    · rename_i hs
      have hwsu : r.wsu = none := (hsat.resolve_left (by rw [hs]; decide)).2
      have hr0 : ((s.put p { s.mem p with dns := false }).mem p).req = some r := by rw [Cttp.put_mem]; exact hr
      unfold creqQuit at h
      rw [hr0, Option.bind_some, if_neg (by rw [hwsu]; decide), if_neg (by rw [hs]; decide),
        if_neg (by rw [hcli]; decide),
        creqFree_eq hr0, Cttp.put_mem, Cttp.put_put] at h
      obtain rfl := Option.some.inj h
      exact ⟨hI.freed hr hwsu rfl rfl, fun hh => (held_over hh rfl).trans (iff_true_intro ⟨rfl, hc⟩)⟩
    · split at h
      · unfold Cttp.setReq at h
        rw [Cttp.put_mem, Cttp.put_put] at h
        obtain ⟨t, ht, hk⟩ := creqConnect_kept hI (p := p) (r := r)
          (x := { s.mem p with dns := false, req := some { r with ipf := true, sat := .conn } })
          (u := { r with ipf := true, sat := .conn }) ⟨hr, rfl, rfl, rfl⟩ rfl rfl rfl hc sync
        obtain rfl := Option.some.inj (ht.symm.trans h)
        exact hk
      · obtain ⟨t, ht, hk⟩ := creqFail_kept hI (x := { s.mem p with dns := false }) (Over.self hr _ hr rfl)
        obtain rfl := Option.some.inj (ht.symm.trans h)
        exact hk.congr (iff_true_intro ⟨rfl, hc⟩)
  · exact absurd (hdns.symm.trans hd) (by decide)

/-- The request that h2o's client holds. -/
theorem Inv.client (hI : Inv s) (hr : (s.mem p).req = some r) (hc : (s.mem p).cli.isSome) :
    (s.mem p).dns = false ∧ r.cli = true ∧ r.sat = .ripe := by
  rcases ((hI.cell p).live r hr).2 with ⟨-, hn, -⟩ | ⟨hd, -, hcli, hs⟩
  · rw [hn] at hc
    exact absurd hc Bool.false_ne_true
  · exact ⟨hd, hcli, hs⟩

/-- The client's callback has come. -/
theorem Over.called (hr : (s.mem p).req = some r) : Over s p r { s.mem p with cli := none } r := ⟨hr, hr, rfl, rfl⟩

/-- **h2o's client has connected, or not.** -/
theorem connected_kept (hI : Inv s) {ok : Bool} (hcli : (s.mem p).cli.isSome)
    (h : creqOnConnect p ok (s.setCli p none) = some s') : Kept s s' True := by
  unfold creqOnConnect Cttp.setCli at h
  rw [Cttp.put_mem] at h
  obtain ⟨r, hr, h⟩ := Option.bind_eq_some_iff.mp h
  obtain ⟨hd, hrc, hs⟩ := hI.client hr hcli
  split at h
  · rw [Cttp.put_put] at h
    obtain rfl := Option.some.inj h
    exact live_kept hI ⟨hr, hr, rfl, rfl⟩ (.inr ⟨hd, rfl, hrc, hs⟩)
  · rw [hs] at h
    obtain ⟨t, ht, hk⟩ := creqFail_kept hI (Over.called hr)
    obtain rfl := Option.some.inj (ht.symm.trans h)
    exact hk.congr (iff_true_intro ⟨hd, rfl⟩)

theorem creqRespond_kept (hI : Inv s) (ho : Over s p r x u) (h : creqRespond p (s.put p x) = some s') :
    Kept s s' (x.dns = false ∧ x.cli = none) := by
  unfold creqRespond at h
  rw [Cttp.put_mem, ho.new, Option.bind_some] at h
  cases hw : u.wsu with
  | some w =>
    rw [if_pos (by rw [hw]; rfl)] at h
    obtain ⟨t, ht, hk⟩ := failWebsocket_kept hI ho hw
    obtain rfl := Option.some.inj (ht.symm.trans h)
    exact hk
  | none =>
    rw [if_neg (by rw [hw]; decide)] at h
    obtain ⟨status, -, h⟩ := Option.bind_eq_some_iff.mp h
    rw [creqFree_eq (r := u) (by simp [Cttp.receive, ho.new])] at h
    obtain rfl := Option.some.inj h
    simp only [Cttp.receive, Cttp.put_put, Cttp.put_mem]
    refine ⟨hI.freed ho.old (ho.wsu ▸ hw) rfl ?_, fun hh => held_over hh rfl⟩
    show x.frees + 1 = _
    rw [ho.frees]

/-- **A handshake is answered**: its session is opened, or rejected. -/
theorem wsOnHead_kept (hI : Inv s) (hr : (s.mem p).req = some r) (hwsu : r.wsu = some w) (hcli : (s.mem p).cli.isSome)
    {hed : Head} (h : wsOnHead p w hed (s.put p { s.mem p with cli := none }) = some s') : Kept s s' True := by
  obtain ⟨hd, -, -⟩ := hI.client hr hcli
  obtain ⟨c, hwait, hnil, he, hclo⟩ := hI.waits hr hwsu
  unfold wsOnHead at h
  split at h
  · obtain ⟨t, ht, hk⟩ := failWebsocket_kept hI (Over.called hr) hwsu
    obtain rfl := Option.some.inj (ht.symm.trans h)
    exact hk.congr (iff_true_intro ⟨hd, rfl⟩)
  · have hr0 : ((s.put p { s.mem p with cli := none }).mem p).req = some r := by rw [Cttp.put_mem]; exact hr
    rw [Cttp.put_ses, hwait.cws, Option.bind_some, creqFree_eq hr0, Option.bind_some, Cttp.put_mem, Cttp.put_put] at h
    have hq : Cws.Quiet { c with ceq := none, wsl := true, sok := true, sat := .opened } := ⟨rfl, hwait.off, he, hclo⟩
    have hstate : (((s.put p (Cell.over { s.mem p with cli := none })).setCws w
        { c with ceq := none, wsl := true, sok := true, sat := .opened }).wsPlanEvent w .accept) =
        (s.put p (Cell.over { s.mem p with cli := none })).say w
          ⟨some { c with ceq := none, wsl := true, sok := true, sat := .opened }, [.accept]⟩ := by
      simp [Cttp.setCws, Cttp.wsPlanEvent, hnil]
    rw [hstate] at h
    have hopen : Inv ((s.put p (Cell.over { s.mem p with cli := none })).say w
        ⟨some { c with ceq := none, wsl := true, sok := true, sat := .opened }, [.accept]⟩) := by
      refine hI.write (cellOk_over _ (hI.allocated hr) rfl ?_) ?_ ?_ ?_ ?_
      · show (s.mem p).frees + 1 = 1
        rw [((hI.cell p).live r hr).1]
      · refine ⟨fun h => absurd (hI.started hwait.cws) h, fun _ hn => absurd hn (Option.some_ne_none _), fun d hd => ?_⟩
        obtain rfl := Option.some.inj hd
        exact .opened _ [] (.inl rfl) hq fun e he => absurd he List.not_mem_nil
      · intro v hv
        rw [hr]
        exact iff_of_false (fun h => absurd h.symm (Option.some_ne_none _))
          fun h => hv (Option.some.inj (hwsu.symm.trans h)).symm
      · intro q hq
        rw [hwait.cws]
        exact iff_of_false (fun h => absurd h.symm (Option.some_ne_none _))
          fun h => hq (Option.some.inj (hwait.ceq.symm.trans h)).symm
      · exact iff_of_false (fun h => absurd h.symm (Option.some_ne_none _))
          (fun h => absurd h.symm (Option.some_ne_none _))
    have hk := wsProceed_kept hopen (by simp) hq hed.turns h
    exact ⟨hk.1, fun hh => hk.2 ((held_over hh (x := Cell.over { s.mem p with cli := none }) rfl).mpr ⟨hd, rfl⟩)⟩

/-- **The head of a response comes.** -/
theorem head_kept (hI : Inv s) {hed : Head} (hcli : (s.mem p).cli.isSome)
    (h : creqOnHead p hed (s.setCli p none) = some s') : Kept s s' True := by
  unfold creqOnHead Cttp.setCli at h
  rw [Cttp.put_mem] at h
  obtain ⟨r, hr, h⟩ := Option.bind_eq_some_iff.mp h
  obtain ⟨hd, hrc, hs⟩ := hI.client hr hcli
  split at h
  · rename_i w hwsu
    exact wsOnHead_kept hI hr hwsu hcli h
  · split at h
    · obtain ⟨t, ht, hk⟩ := creqFail_kept hI (Over.called hr)
      obtain rfl := Option.some.inj (ht.symm.trans h)
      exact hk.congr (iff_true_intro ⟨hd, rfl⟩)
    · unfold Cttp.setReq at h
      dsimp only at h
      rw [Cttp.put_mem, Cttp.put_put] at h
      split at h
      · have hov : Over s p r { s.mem p with cli := none, req := some { r with res := some hed.sas } }
            { r with res := some hed.sas } := ⟨hr, rfl, rfl, rfl⟩
        exact (creqRespond_kept hI hov h).congr (iff_true_intro ⟨hd, rfl⟩)
      · rw [Cttp.put_mem, Cttp.put_put] at h
        obtain rfl := Option.some.inj h
        exact live_kept hI (u := { r with res := some hed.sas }) ⟨hr, rfl, rfl, rfl⟩ (.inr ⟨hd, rfl, hrc, hs⟩)

/-- **More of a response's body comes, or its end.** -/
theorem body_kept (hI : Inv s) {err : Option H2oError} (hcli : (s.mem p).cli.isSome)
    (h : creqOnBody p err (s.setCli p none) = some s') : Kept s s' True := by
  unfold creqOnBody Cttp.setCli at h
  rw [Cttp.put_mem] at h
  obtain ⟨r, hr, h⟩ := Option.bind_eq_some_iff.mp h
  obtain ⟨hd, hrc, hs⟩ := hI.client hr hcli
  have hno :
    (({ s.mem p with cli := none } : Cell).dns = false ∧ ({ s.mem p with cli := none } : Cell).cli = none) ↔ True :=
    iff_true_intro ⟨hd, rfl⟩
  split at h
  · rename_i hw
    obtain ⟨w, hwsu⟩ := Option.isSome_iff_exists.mp hw
    obtain ⟨t, ht, hk⟩ := failWebsocket_kept hI (Over.called hr) hwsu
    obtain rfl := Option.some.inj (ht.symm.trans h)
    exact hk.congr hno
  · split at h
    · obtain ⟨t, ht, hk⟩ := creqFail_kept hI (Over.called hr)
      obtain rfl := Option.some.inj (ht.symm.trans h)
      exact hk.congr hno
    · obtain ⟨status, -, h⟩ := Option.bind_eq_some_iff.mp h
      exact (creqRespond_kept hI (Over.called hr) h).congr hno
    · obtain ⟨status, -, h⟩ := Option.map_eq_some_iff.mp h
      rw [Cttp.put_put] at h
      subst h
      exact live_kept hI ⟨hr, hr, rfl, rfl⟩ (.inr ⟨hd, rfl, hrc, hs⟩)

/-- **A session's socket calls back.** -/
theorem sock_kept (hI : Inv s) (hc : (s.ses w).cws = some c) (hk : c.sok = true) {err : Bool} {turns : List Turn}
    (h : wsSockCb w err turns s = some s') : Kept s s' True := by
  have hl := (hI.ses w).live c hc
  generalize (s.ses w).said = l at hl
  cases hl with
  | pending p hs hp hk' hw he hclo => exact absurd (hk.symm.trans hk') (by decide)
  | opened msgs hs hq hm =>
    unfold wsSockCb at h
    split at h
    · exact wsClose_kept hI hc hq h
    · exact wsProceed_kept hI hc hq turns h

/-- **One event** keeps the invariant, and what it frees is held by nothing else if and only if it waited. -/
theorem step_kept (hI : Inv s) (h : step s e = some s') : Kept s s' (Waited s e) := by
  cases e with
  | request num url sync =>
    cases url with
    | none =>
      obtain rfl := Option.some.inj h
      exact kept_refl hI
    | some ipf => exact request_kept hI h
  | cancelRequest num =>
    unfold step at h
    dsimp only at h
    split at h
    · rename_i hf
      obtain rfl := Option.some.inj h
      refine (kept_refl hI).congr (iff_of_true trivial fun p r hp => ?_)
      exact absurd (hf.symm.trans hp).symm (Option.some_ne_none _)
    · rename_i p hf
      obtain ⟨r, hr⟩ := creqFind_some hf
      refine (creqQuit_kept hI hr h).congr ⟨fun hk q u hq hr' => ?_, fun hk => hk p r hf hr⟩
      obtain rfl := Option.some.inj (hf.symm.trans hq)
      obtain rfl := Option.some.inj (hr.symm.trans hr')
      exact hk
  | websocketHandshake wid url sync => exact websocketHandshake_kept hI h
  | websocketMessage wid queued turns =>
    unfold step at h
    dsimp only at h
    split at h
    · obtain rfl := Option.some.inj h
      exact kept_refl hI
    · rename_i w hf
      obtain ⟨c, hc⟩ := wsFind_some hf
      exact websocketMessage_kept hI hc h
  | websocketDisconnect wid turns =>
    unfold step at h
    dsimp only at h
    split at h
    · rename_i hf
      obtain rfl := Option.some.inj h
      refine (kept_refl hI).congr (iff_of_true trivial fun w c p r hw => ?_)
      exact absurd (hf.symm.trans hw).symm (Option.some_ne_none _)
    · rename_i w hf
      obtain ⟨c, hc⟩ := wsFind_some hf
      refine (websocketDisconnect_kept hI hc h).congr ⟨fun hk v d p r hv hd hp hr => ?_,
        fun hk p r => hk w c p r hf hc⟩
      obtain rfl := Option.some.inj (hf.symm.trans hv)
      obtain rfl := Option.some.inj (hc.symm.trans hd)
      exact hk p r hp hr
  | resolved p ok sync =>
    have hs : (if (s.mem p).dns then creqResolveCb p ok sync (s.put p { s.mem p with dns := false }) else none) =
      some s' := h
    split at hs
    · rename_i hd
      exact resolved_kept hI hd hs
    · exact absurd hs.symm (Option.some_ne_none _)
  | connected p ok =>
    have hs : (if (s.mem p).cli = some .connect then creqOnConnect p ok (s.setCli p none) else none) = some s' := h
    split at hs
    · rename_i hc
      exact connected_kept hI (by rw [hc]; rfl) hs
    · exact absurd hs.symm (Option.some_ne_none _)
  | head p hed =>
    have hs : (if (s.mem p).cli = some .head then creqOnHead p hed (s.setCli p none) else none) = some s' := h
    split at hs
    · rename_i hc
      exact head_kept hI (by rw [hc]; rfl) hs
    · exact absurd hs.symm (Option.some_ne_none _)
  | body p err =>
    have hs : (if (s.mem p).cli = some .body then creqOnBody p err (s.setCli p none) else none) = some s' := h
    split at hs
    · rename_i hc
      exact body_kept hI (by rw [hc]; rfl) hs
    · exact absurd hs.symm (Option.some_ne_none _)
  | sock w err turns =>
    have hs : (if (s.ses w).cws.any fun c => c.sok then wsSockCb w err turns s else none) = some s' := h
    split at hs
    · rename_i hany
      cases hc : (s.ses w).cws with
      | none =>
        rw [hc] at hany
        exact absurd hany Bool.false_ne_true
      | some c =>
        rw [hc] at hany
        exact sock_kept hI hc hany hs
    · exact absurd hs.symm (Option.some_ne_none _)

/-! ### Runs -/

/-- Whether the event is a session's last. -/
def WsEvent.isTerminal : WsEvent → Bool
  | .reject | .disconnect => true
  | _ => false

theorem countP_terminal {msgs : List WsEvent} (hm : ∀ e ∈ msgs, e.isMessage = true) :
    msgs.countP WsEvent.isTerminal = 0 ∧ msgs.count .accept = 0 := by
  constructor
  · refine List.countP_eq_zero.mpr fun e he ht => ?_
    have h := hm e he
    cases e <;> simp_all [WsEvent.isMessage, WsEvent.isTerminal]
  · exact List.count_eq_zero.mpr fun h => absurd (hm _ h) Bool.false_ne_true

theorem Story.counts {l : List WsEvent} (h : Story l) : l.countP WsEvent.isTerminal = 1 ∧ l.count .accept ≤ 1 ∧
    ((∃ e ∈ l, e.isMessage = true) → l.head? = some .accept) := by
  cases h with
  | reject => decide
  | disconnect => decide
  | accept msgs hm =>
    obtain ⟨ht, ha⟩ := countP_terminal hm
    refine ⟨?_, ?_, fun _ => rfl⟩
    · rw [List.countP_append, List.countP_cons, ht]
      rfl
    · rw [List.count_append, List.count_cons, ha]
      decide

theorem Lives.counts {l : List WsEvent} (h : Lives c l) : l.countP WsEvent.isTerminal = 0 ∧ l.count .accept ≤ 1 ∧
    ((∃ e ∈ l, e.isMessage = true) → l.head? = some .accept) := by
  cases h with
  | pending => decide
  | opened msgs hs hq hm =>
    obtain ⟨ht, ha⟩ := countP_terminal hm
    refine ⟨?_, ?_, fun _ => rfl⟩
    · rw [List.countP_cons, ht]
      rfl
    · rw [List.count_cons, ha]
      decide

/-- A session is opened, brings a message, and is closed from the other side. -/
def openRun : List Event :=
  [.websocketHandshake 7 (some true) true, .connected 0 true, .head 0 ⟨none, 101, true, true, []⟩,
    .websocketMessage 7 true [⟨some .ok, none⟩], .sock 0 false [⟨none, some ([.message 1 none, .close], .ok)⟩]]

/-- A request in memory was not freed; every other was freed once, and no callback that is outstanding holds it. -/
def Safe (s : Cttp) : Prop := ∀ p, p < s.reqs →
  (s.mem p).req.isSome ∧ (s.mem p).frees = 0 ∨
    (s.mem p).req = none ∧ (s.mem p).frees = 1 ∧ (s.mem p).dns = false ∧ (s.mem p).cli = none

theorem safe_iff (hI : Inv s) : Safe s ↔ Held s := by
  constructor
  · intro hs p hp
    by_cases hlt : p < s.reqs
    · rcases hs p hlt with ⟨h, -⟩ | ⟨-, -, hd, hc⟩
      · exact h
      · rw [hd, hc] at hp
        exact absurd hp (by decide)
    · rw [(hI.cell p).new hlt] at hp
      exact absurd hp (by decide)
  · intro hh p hlt
    cases hr : (s.mem p).req with
    | some r => exact .inl ⟨rfl, ((hI.cell p).live r hr).1⟩
    | none =>
      have hno := fun h => Bool.false_ne_true ((congrArg Option.isSome hr).symm.trans (hh p h))
      refine .inr ⟨rfl, (hI.cell p).freed hlt hr, ?_, ?_⟩
      · exact Bool.eq_false_iff.mpr fun hd => hno (.inl hd)
      · exact Option.not_isSome_iff_eq_none.mp fun hc => hno (.inr hc)

/-- **What is freed in a run**: every request once, when no callback holds it, if and only if no
session is closed while its request's name is resolved and no handshake is cancelled, nor a
request that was cancelled before. -/
theorem safe_of_run (h : Replay.follow step .init es = some s) :
    (∀ n a, Replay.At step .init es n a → Safe a) ↔ Replay.Along step Waited .init es := by
  refine Replay.Along.iff_all Inv Safe (fun _ _ _ hI hs => (step_kept hI hs).1) ?_ inv_init
    ((safe_iff inv_init).mpr held_init) h
  intro a e b hI hs hstep
  obtain ⟨hI', hk⟩ := step_kept hI hstep
  exact (safe_iff hI').trans (hk ((safe_iff hI).mp hs))

theorem openRun_safe : ∃ s, Replay.follow step .init openRun = some s ∧
    ∀ n a, Replay.At step .init openRun n a → Safe a := by
  have h : Replay.follow step .init openRun = some _ := rfl
  exact ⟨_, h, (safe_of_run h).mpr
    ⟨trivial,
      fun _ _ => ⟨trivial, fun _ _ => ⟨trivial, fun _ _ => ⟨trivial, fun _ _ => ⟨trivial, fun _ _ => trivial⟩⟩⟩⟩⟩⟩

/-- A session is closed while its request's name is resolved: the request is freed, and the
resolver calls back with it. -/
theorem disconnect_dangles :
    ∃ s, Replay.follow step .init [.websocketHandshake 7 (some false) true, .websocketDisconnect 7 []] = some s ∧
      (s.mem 0).req = none ∧ (s.mem 0).dns = true ∧ ¬ Safe s ∧ step s (.resolved 0 true true) = none := by
  refine ⟨_, rfl, rfl, rfl, fun hs => ?_, rfl⟩
  rcases hs 0 Nat.zero_lt_one with ⟨h, -⟩ | ⟨-, -, h, -⟩
  · exact absurd h (by decide)
  · exact absurd h (by decide)

end HttpClient
end Ursockets
