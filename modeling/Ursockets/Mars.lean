/-
# The worker process

`u3_mars` is the process that computes events. It is sent tasks one at a time
(`kick`): a poke computes an event, which is planned for the log, and answers
with its effects; a peek reads; a save or an exit changes the mode, and is
carried out by `flush` once the log has every event. Answers (gifts) wait in one
queue: the effects of an event until the event is in the log (`fact`), any other
answer only for those before it (`gift`).

The kernel is what the interpreter computes of the state and an event; it is a
parameter. An attempt may also fail for reasons the kernel does not decide (out
of memory, out of time, an interrupt), which are inputs (`Env`).

Key definitions: `Kernel`, `Mars`, `work`, `flush`, `kick`, `after`, `step`, `runs`.
Key theorems: `attempt_cases`, `work_cases`, `workPoke_ok`, `workPoke_error`.
-/
import Ursockets.Lib.WriteAhead
import Ursockets.Disk

namespace Ursockets

/-- A reason that a protected computation gave up for, with its trace. Zero stands for success. -/
structure Goof where
  mot : ℕ
  tax : Noun
  pos : 0 < mot

/-- The reason as `u3m_soft` returns it. -/
def Goof.noun (g : Goof) : Noun := .cell (.atom g.mot) g.tax

/-- `u3v_poke`, `u3v_peek` and `u3v_life`: what the interpreter makes of the kernel state and an
event, of the state and a request, and of a boot sequence. -/
structure Kernel where
  poke : Noun → Noun → Except Goof Noun
  peek : Noun → Noun → Except Goof Noun
  life : List Noun → Except Goof Noun

/-- `u3_arvo`: the kernel state and the number of the last event in it. -/
structure Arvo where
  roc : Noun
  eve : ℕ
  deriving DecidableEq

namespace Mars

abbrev Gift := WriteAhead.Item Noun
abbrev Act := WriteAhead.Act Noun Feat

/-! ### Names -/

def arvo : ℕ := 0x6f767261
def crud : ℕ := 0x64757263
def evil : ℕ := 0x6c697665
def exit : ℕ := 0x74697865
def idle : ℕ := 0x656c6469
def live : ℕ := 0x6576696c
def mass : ℕ := 0x7373616d
def meld : ℕ := 0x646c656d
def «open» : ℕ := 0x6e65706f
def pack : ℕ := 0x6b636170
def peek : ℕ := 0x6b656570
def poke : ℕ := 0x656b6f70
def quac : ℕ := 0x63617571
def quic : ℕ := 0x63697571
def quiz : ℕ := 0x7a697571
def save : ℕ := 0x65766173
def sync : ℕ := 0x636e7973
def trim : ℕ := 0x6d697274
def vega : ℕ := 0x61676576

/-- `u3_mars_work_e`, `u3_mars_save_e`, `u3_mars_exit_e`. -/
inductive Sat where
  | work
  | save
  | exit
  deriving DecidableEq

end Mars

open Mars in
/-- `u3_mars`, with the log, the kernel state of the process (`u3A`) and the saved image. -/
structure Mars where
  /-- last event requested -/
  sen : ℕ
  /-- last event processed -/
  dun : ℕ
  /-- hash of the state -/
  mug : ℕ
  sat : Sat
  /-- gifts not sent, exit first -/
  gif : List Gift
  /-- post-op flags -/
  fag : ℕ
  /-- memory-threshold level -/
  mas : ℕ
  /-- space measurement -/
  sac : Noun
  /-- last event saved -/
  sav : ℕ
  /-- lifecycle length -/
  lif : ℕ
  log : Disk
  arv : Arvo
  img : Arvo
  /-- history: what the process did; no function reads it -/
  io : List Act

/-- How the process ends: on request, on an error or a failed assertion, or by a wild pointer. -/
inductive Fate where
  | exit
  | fail
  | fault
  deriving DecidableEq

/-- What is not decided by the state and the message: the time, the failures of the two attempts at
an event and of a read, the free memory before and after, the measurements. -/
structure Env where
  now : Noun
  soft : Option Goof
  retry : Option Goof
  pre : ℕ
  pos : ℕ
  grab : Option Noun
  pen : ℕ
  dil : ℕ

namespace Mars

/-! ### Events -/

/-- `u3m_soft`: a computation, or what interrupted it. -/
def soft (why : Option Goof) (pro : Except Goof Noun) : Except Goof Noun :=
  match why with
  | some g => .error g
  | none => pro

/-- `u3v_poke_sure`: inject an event, saving the new state if successful. A product that is no cell
bails outside of any protection. -/
def pokeSure (K : Kernel) (why : Option Goof) (arv : Arvo) (eve : Noun) :
    Option (Except Goof Noun × Arvo) :=
  match soft why (K.poke arv.roc eve) with
  | .error gon => some (.error gon, arv)
  | .ok (.cell vir cor) => some (.ok vir, ⟨cor, arv.eve + 1⟩)
  | .ok (.atom _) => none

/-- `_mars_make_crud`: construct the error-notification event. -/
def makeCrud (job dud : Noun) : Option Noun :=
  match job with
  | .cell now ovo =>
    some (.cell now (.cell (.cell (.atom 0) (.cell (.atom arvo) (.atom 0)))
      (.cell (.atom crud) (.cell dud ovo))))
  | .atom _ => none

/-- `_mars_poke`: attempt to compute an event, and if it fails, to tell the kernel. It gives whether
that worked, the event computed, the product, and the new state. -/
def attempt (K : Kernel) (env : Env) (arv : Arvo) (eve : Noun) : Option (Bool × Noun × Noun × Arvo) :=
  match pokeSure K env.soft arv eve with
  | none => none
  | some (.ok pro, arv) => some (true, eve, pro, arv)
  | some (.error dud, arv) =>
    if dud.mot = evil then some (false, eve, .cell dud.noun (.atom 0), arv)
    else
      match makeCrud eve dud.noun with
      | none => none
      | some eve =>
        match pokeSure K env.retry arv eve with
        | none => none
        | some (.ok pro, arv) => some (true, eve, pro, arv)
        | some (.error pro, arv) =>
          some (false, eve, .cell dud.noun (.cell pro.noun (.atom 0)), arv)

/-- The loop of `_mars_sure_feck`: the effects with the data of the first `%mass` taken out, the
data, and whether a `%vega` is before it. -/
def feckLoop : Noun → Option (Noun × Option Noun × Bool)
  | .atom 0 => some (.atom 0, none, false)
  | .cell (.cell wir (.cell tag dat)) riv =>
    if tag = .atom mass then
      some (.cell (.cell wir (.cell (.atom mass) (.atom 0))) riv, some dat, false)
    else
      (feckLoop riv).map fun r =>
        (.cell (.cell wir (.cell tag dat)) r.1, r.2.1, r.2.2 || tag = .atom vega)
  | _ => none

/-- `_mars_curb`: check for memory threshold. -/
def curb (pre pos hes : ℕ) : Bool := hes < pre ∧ pos ≤ hes

/-- The memory thresholds of `_mars_sure_feck`: the level, the flags and the urgency to notify. -/
def pressure (mas fag pre pos : ℕ) : ℕ × ℕ × Option ℕ :=
  if pos < pre then
    if mas ≠ 2 ∧ curb pre pos (2 ^ 25) then (2, fag ||| 2, some 0)
    else if mas = 0 ∧ curb pre pos (2 ^ 27) then (1, fag ||| 1, some 1)
    else (mas, fag, none)
  else if mas ≠ 0 then
    if 2 ^ 26 + 2 ^ 27 < pos then (0, fag, none)
    else if mas = 2 ∧ 2 ^ 26 < pos then (1, fag, none)
    else (mas, fag, none)
  else (mas, fag, none)

/-- `_mars_sure_feck`: event succeeded, send effects. -/
def sureFeck (m : Mars) (env : Env) (vir : Noun) : Option (Mars × Noun) :=
  (feckLoop vir).map fun r =>
    let fag := if r.2.2 then m.fag ||| 16 else m.fag
    let p := pressure m.mas fag env.pre env.pos
    let fag := if m.dun % 1024 = 0 then p.2.1 ||| 8 else p.2.1
    let vir := match p.2.2 with
      | some pri => .cell (.cell (.cell (.atom 0) (.cell (.atom arvo) (.atom 0)))
          (.cell (.atom trim) (.atom pri))) r.1
      | none => r.1
    ({ m with sac := r.2.1.getD m.sac, mas := p.1, fag := fag }, vir)

/-! ### Gifts -/

/-- `_mars_fact`: commit a fact and enqueue its effects. -/
def fact (m : Mars) (job pro : Noun) : Except (Fate × Mars) Mars :=
  match Disk.u3Plan m.log ⟨m.dun, m.mug, job⟩ with
  | none => .error (.fault, m)
  | some log =>
    .ok { m with
      log := log
      gif := m.gif ++ [⟨some m.dun, pro⟩]
      io := m.io ++ [.plan ⟨m.dun, m.mug, job⟩, .post ⟨some m.dun, pro⟩] }

/-- `_mars_gift`: enqueue response message. -/
def gift (m : Mars) (pro : Noun) : Mars :=
  { m with gif := m.gif ++ [⟨none, pro⟩], io := m.io ++ [.post ⟨none, pro⟩] }

/-! ### Tasks -/

/-- `u3_assert( mar_u->dun_d == u3A->eve_d )`. -/
def sure (m : Mars) : Except (Fate × Mars) Mars :=
  if m.dun = m.arv.eve then .ok m else .error (.fail, m)

/-- The `%poke` task. -/
def workPoke (K : Kernel) (env : Env) (m : Mars) (ovo : Noun) : Except (Fate × Mars) Mars :=
  match attempt K env m.arv (.cell env.now ovo) with
  | none => .error (.fail, m)
  | some (true, job, pro, arv) =>
    let m := { m with
      sen := m.sen + 1, dun := m.sen + 1, arv := arv, mug := arv.roc.mug.toNat, fag := m.fag ||| 4 }
    match sureFeck m env pro with
    | none => .error (.fail, m)
    | some (m, pro) =>
      (fact m job (.cell (.atom poke) (.cell (.atom 0) pro))).bind sure
  | some (false, _, pro, arv) =>
    sure (gift { m with sen := m.dun, arv := arv } (.cell (.atom poke) (.cell (.atom 1) pro)))

/-- The product of a `%peek` task, `_mars_peek`. -/
def peekPro (K : Kernel) (env : Env) (m : Mars) (sam : Noun) : Noun :=
  match soft env.soft (K.peek m.arv.roc sam) with
  | .error gon => .cell (.atom 1) gon.noun
  | .ok dat => .cell (.atom 0) dat

/-- The `%quiz` task. -/
def workQuiz (env : Env) (m : Mars) (dat : Noun) : Except (Fate × Mars) Mars :=
  match dat with
  | .cell tag _ =>
    if tag = .atom quac then
      match env.grab with
      | some res => .ok (gift m (.cell (.atom quiz) (.cell (.atom quac) res)))
      | none => .error (.fail, m)
    else if tag = .atom quic then
      .ok (gift m (.cell (.atom quiz) (.cell (.atom quic)
        (.cell (.cell (.atom «open») (.atom env.pen))
          (.cell (.cell (.atom idle) (.atom env.dil)) (.atom 0))))))
    else .error (.fail, m)
  | .atom _ => .error (.fail, m)

/-- `_mars_work`: perform a task. -/
def work (K : Kernel) (env : Env) (m : Mars) (jar : Noun) : Except (Fate × Mars) Mars :=
  match jar with
  | .cell (.atom tag) dat =>
    if tag = poke then
      match dat with
      | .cell (.atom mil) ovo => if mil < 2 ^ 32 then workPoke K env m ovo else .error (.fail, m)
      | _ => .error (.fail, m)
    else if tag = peek then
      match dat with
      | .cell (.atom mil) sam =>
        if mil < 2 ^ 32 then .ok (gift m (.cell (.atom peek) (peekPro K env m sam)))
        else .error (.fail, m)
      | _ => .error (.fail, m)
    else if tag = sync then
      if dat = .cell (.atom save) (.atom 0) then .ok { m with sat := .save } else .error (.fail, m)
    else if tag = live then
      if dat = .cell (.atom pack) (.atom 0) ∨ dat = .cell (.atom meld) (.atom 0) then
        .ok (gift m (.cell (.atom live) (.atom 0)))
      else .error (.fail, m)
    else if tag = quiz then workQuiz env m dat
    else if tag = exit then .ok { m with sat := .exit }
    else .error (.fail, m)
  | _ => .error (.fail, m)

/-- `_mars_post`: update mars state post-task. What it reclaims is not the kernel's. -/
def post (m : Mars) : Mars :=
  { m with sac := if m.fag &&& 4 ≠ 0 then .atom 0 else m.sac, fag := 0 }

/-! ### The queue -/

/-- The loop of `_mars_flush`: the gifts up to the first whose event is not in the log. -/
def drain (m : Mars) : Mars :=
  { m with
    gif := m.gif.dropWhile (WriteAhead.Item.ready m.log.dun)
    io := m.io ++ (m.gif.takeWhile (WriteAhead.Item.ready m.log.dun)).map .send }

/-- `u3m_save`. -/
def u3mSave (m : Mars) : Mars :=
  { m with img := m.arv, io := m.io ++ [.save m.dun] }

/-- `_mars_flush`: send pending gifts. After a save it goes to the top once more, in working mode. -/
def flush (m : Mars) : Except (Fate × Mars) Mars :=
  let m := drain m
  if m.sat ≠ .work ∧ m.log.dun = m.dun then
    if m.sat = .save then
      let m := { u3mSave m with sav := m.dun }
      let m := gift m (.cell (.atom sync) (.cell (.atom m.dun) (.atom m.mug)))
      .ok (drain { m with sat := .work })
    else
      let m := u3mSave m
      .error (.exit, { m with io := m.io ++ [.exit] })
  else .ok m

/-! ### Callbacks -/

/-- `u3_mars_kick`: maybe perform a task. The flag is whether the message was taken. -/
def kick (K : Kernel) (env : Env) (m : Mars) (jar : Option Noun) : Except (Fate × Mars) (Mars × Bool) :=
  if m.sat = .work then
    match jar with
    | none => .error (.fail, m)
    | some jar => ((work K env m jar).map post).bind fun m => (flush m).map fun m => (m, true)
  else (flush m).map fun m => (m, false)

/-- `_mars_timer_cb`. -/
def timer (m : Mars) : Except (Fate × Mars) Mars :=
  flush (if m.sav < m.dun then { m with sat := .save } else m)

/-- `_disk_commit_after_cb` with `_mars_disk_cb`: the batch is counted, the gifts it freed are sent,
its events are freed and the next batch is cut. -/
def after (m : Mars) : Except (Fate × Mars) Mars :=
  let m := { m with
    log := m.log.done
    io := m.io ++ if m.log.ret then [.commit (m.log.dun + m.log.len)] else [] }
  if m.log.ret then
    (flush m).bind fun m =>
      match m.log.free.bind Disk.commit with
      | none => .error (.fault, m)
      | some log => .ok { m with log := log }
  else .error (.fail, m)

/-- What happens to the process: a message, the timer, the thread is through with a batch, the end
of the commit on the main thread. -/
inductive Input where
  | kick (env : Env) (jar : Option Noun)
  | timer
  | write (ok : Bool)
  | after

/-- One input. The thread and its callback run only when there is a batch. -/
def step (K : Kernel) (m : Mars) : Input → Except (Fate × Mars) Mars
  | .kick env jar => (kick K env m jar).map Prod.fst
  | .timer => timer m
  | .write ok =>
    if m.log.ted ∧ ¬ m.log.ran then .ok { m with log := m.log.write ok } else .ok m
  | .after => if m.log.ted ∧ m.log.ran then after m else .ok m

/-- The inputs one after the other. -/
def runs (K : Kernel) (m : Mars) : List Input → Except (Fate × Mars) Mars
  | [] => .ok m
  | i :: is => (step K m i).bind fun m => runs K m is

/-! ### What a task does -/

/-- An attempt either computes an event or leaves the state alone. -/
theorem pokeSure_cases {K : Kernel} {why : Option Goof} {arv arv' : Arvo} {eve : Noun}
    {r : Except Goof Noun} (h : pokeSure K why arv eve = some (r, arv')) :
    (∃ vir, r = .ok vir ∧ K.poke arv.roc eve = .ok (.cell vir arv'.roc) ∧ arv'.eve = arv.eve + 1) ∨
      (∃ gon, r = .error gon ∧ arv' = arv) := by
  unfold pokeSure at h
  cases hs : soft why (K.poke arv.roc eve) with
  | error gon =>
    simp only [hs, Option.some.injEq, Prod.mk.injEq] at h
    exact Or.inr ⟨gon, h.1.symm, h.2.symm⟩
  | ok dat =>
    cases dat with
    | atom a => simp [hs] at h
    | cell vir cor =>
      simp only [hs, Option.some.injEq, Prod.mk.injEq] at h
      obtain ⟨rfl, rfl⟩ := h
      refine Or.inl ⟨vir, rfl, ?_, rfl⟩
      cases why with
      | none => exact hs
      | some g => cases hs

/-- **The event is computed, by the first attempt or by the second, or the state is left alone.** -/
theorem attempt_cases {K : Kernel} {env : Env} {arv arv' : Arvo} {eve job pro : Noun} {b : Bool}
    (h : attempt K env arv eve = some (b, job, pro, arv')) :
    (b = true ∧ K.poke arv.roc job = .ok (.cell pro arv'.roc) ∧ arv'.eve = arv.eve + 1) ∨
      (b = false ∧ arv' = arv) := by
  unfold attempt at h
  cases h1 : pokeSure K env.soft arv eve with
  | none => simp [h1] at h
  | some r =>
    obtain ⟨r, arv1⟩ := r
    rcases pokeSure_cases h1 with ⟨vir, rfl, hp, he⟩ | ⟨dud, rfl, rfl⟩
    · simp only [h1, Option.some.injEq, Prod.mk.injEq] at h
      obtain ⟨rfl, rfl, rfl, rfl⟩ := h
      exact Or.inl ⟨rfl, hp, he⟩
    · simp only [h1] at h
      split at h
      · simp only [Option.some.injEq, Prod.mk.injEq] at h
        exact Or.inr ⟨h.1.symm, h.2.2.2.symm⟩
      cases hc : makeCrud eve dud.noun with
      | none => simp [hc] at h
      | some new =>
        cases h2 : pokeSure K env.retry arv1 new with
        | none => simp [hc, h2] at h
        | some r =>
          obtain ⟨r, arv2⟩ := r
          rcases pokeSure_cases h2 with ⟨vir, rfl, hp, he⟩ | ⟨gon, rfl, rfl⟩
          · simp only [hc, h2, Option.some.injEq, Prod.mk.injEq] at h
            obtain ⟨rfl, rfl, rfl, rfl⟩ := h
            exact Or.inl ⟨rfl, hp, he⟩
          · simp only [hc, h2, Option.some.injEq, Prod.mk.injEq] at h
            exact Or.inr ⟨h.1.symm, h.2.2.2.symm⟩

theorem sureFeck_frame {m m' : Mars} {env : Env} {vir pro : Noun}
    (h : sureFeck m env vir = some (m', pro)) :
    ∃ sac mas fag, m' = { m with sac := sac, mas := mas, fag := fag } := by
  obtain ⟨r, _, hr⟩ := Option.map_eq_some_iff.mp h
  exact ⟨_, _, _, (Prod.mk.inj hr).1.symm⟩

/-- The outcome of a task whose event was accepted: it is planned, and its effects wait for it. -/
structure Accepted (K : Kernel) (m m' : Mars) (job pro : Noun) : Prop where
  poke : ∃ vir, K.poke m.arv.roc job = .ok (.cell vir m'.arv.roc)
  eve : m'.arv.eve = m.arv.eve + 1
  sen : m'.sen = m.sen + 1
  dun : m'.dun = m.sen + 1
  mug : m'.mug = m'.arv.roc.mug.toNat
  sat : m'.sat = m.sat
  img : m'.img = m.img
  lif : m'.lif = m.lif
  log : m.log.u3Plan ⟨m.sen + 1, m'.mug, job⟩ = some m'.log
  gif : m'.gif = m.gif ++ [⟨some (m.sen + 1), pro⟩]
  io : m'.io = m.io ++ [.plan ⟨m.sen + 1, m'.mug, job⟩, .post ⟨some (m.sen + 1), pro⟩]

/-- Between tasks the sent counter stands where a failed poke puts it back. -/
theorem restore_sen {m : Mars} (hm : m.sen = m.dun) : { m with sen := m.dun, arv := m.arv } = m := by
  obtain ⟨sen, dun⟩ := m
  simp only at hm
  rw [hm]

/-- The event of the poke, or the one made of its failure, is computed. -/
def Poked (K : Kernel) (m : Mars) (env : Env) (ovo : Noun) : Prop :=
  ∃ job pro arv, attempt K env m.arv (.cell env.now ovo) = some (true, job, pro, arv)

/-- **A poke is accepted or changes nothing but the queue.** -/
theorem workPoke_ok {K : Kernel} {env : Env} {m m' : Mars} {ovo : Noun} (hm : m.sen = m.dun)
    (h : workPoke K env m ovo = .ok m') :
    (Poked K m env ovo ∧ ∃ job pro, Accepted K m m' job pro) ∨ ∃ pro, m' = gift m pro := by
  unfold workPoke at h
  cases ha : attempt K env m.arv (.cell env.now ovo) with
  | none => simp [ha] at h
  | some r =>
    obtain ⟨b, job, pro, arv⟩ := r
    rcases attempt_cases ha with ⟨rfl, hp, he⟩ | ⟨rfl, rfl⟩
    · left
      simp only [ha] at h
      split at h
      · cases h
      rename_i m1 pro1 hf
      obtain ⟨sac, mas, fag, rfl⟩ := sureFeck_frame hf
      unfold fact at h
      simp only at h
      split at h
      · cases h
      rename_i log hl
      simp only [Except.bind, sure] at h
      split at h
      · cases h
        exact ⟨⟨job, pro, arv, ha⟩, job, _,
          ⟨⟨pro, hp⟩, he, rfl, rfl, rfl, rfl, rfl, rfl, hl, rfl, rfl⟩⟩
      · cases h
    · right
      simp only [ha, restore_sen hm, sure] at h
      split at h
      · exact ⟨_, (Except.ok.inj h).symm⟩
      · cases h

/-- What is left when a task ends the process: nothing was sent, and only an event that could not be
planned reads a wild pointer. -/
structure Broken (m m' : Mars) (f : Fate) (acc : Prop) : Prop where
  io : m'.io = m.io
  log : m'.log = m.log
  gif : m'.gif = m.gif
  img : m'.img = m.img
  lif : m'.lif = m.lif
  ne_exit : f ≠ .exit
  fault : f = .fault → acc ∧ ∃ mug job, m.log.u3Plan ⟨m.log.sen + 1, mug, job⟩ = none

theorem workPoke_error {K : Kernel} {env : Env} {m m' : Mars} {ovo : Noun} {f : Fate}
    (hm : m.sen = m.dun) (hd : m.dun = m.log.sen) (he : m.arv.eve = m.dun)
    (h : workPoke K env m ovo = .error (f, m')) : Broken m m' f (Poked K m env ovo) := by
  unfold workPoke at h
  cases ha : attempt K env m.arv (.cell env.now ovo) with
  | none =>
    simp only [ha, Except.error.injEq, Prod.mk.injEq] at h
    obtain ⟨rfl, rfl⟩ := h
    exact ⟨rfl, rfl, rfl, rfl, rfl, by decide, by intro hf; cases hf⟩
  | some r =>
    obtain ⟨b, job, pro, arv⟩ := r
    rcases attempt_cases ha with ⟨rfl, hp, he'⟩ | ⟨rfl, rfl⟩
    · simp only [ha] at h
      split at h
      · simp only [Except.error.injEq, Prod.mk.injEq] at h
        obtain ⟨rfl, rfl⟩ := h
        exact ⟨rfl, rfl, rfl, rfl, rfl, by decide, by intro hf; cases hf⟩
      rename_i m1 pro1 hf
      obtain ⟨sac, mas, fag, rfl⟩ := sureFeck_frame hf
      unfold fact at h
      simp only at h
      split at h
      · rename_i hl
        simp only [Except.bind, Except.error.injEq, Prod.mk.injEq] at h
        obtain ⟨rfl, rfl⟩ := h
        rw [hm, hd] at hl
        exact ⟨rfl, rfl, rfl, rfl, rfl, by decide, fun _ => ⟨⟨_, _, _, ha⟩, _, _, hl⟩⟩
      · simp only [Except.bind, sure] at h
        rw [if_pos (by rw [he', he, hm])] at h
        cases h
    · simp only [ha, restore_sen hm, sure] at h
      rw [if_pos (show (gift m _).dun = (gift m _).arv.eve from he.symm)] at h
      cases h

/-- The message is a poke. -/
def IsPoke (jar ovo : Noun) : Prop := ∃ mil, jar = .cell (.atom Mars.poke) (.cell (.atom mil) ovo)

theorem workQuiz_cases {env : Env} {m : Mars} {dat : Noun} :
    (∃ pro, workQuiz env m dat = .ok (gift m pro)) ∨ workQuiz env m dat = .error (.fail, m) := by
  unfold workQuiz
  split
  · split
    · split
      · exact Or.inl ⟨_, rfl⟩
      · exact Or.inr rfl
    split
    · exact Or.inl ⟨_, rfl⟩
    · exact Or.inr rfl
  · exact Or.inr rfl

/-- **What a task can do**: change the mode, answer, be an event that is accepted, or fail. -/
theorem work_cases (K : Kernel) (env : Env) (m : Mars) (jar : Noun) :
    (∃ ovo, IsPoke jar ovo ∧ work K env m jar = workPoke K env m ovo) ∨
      (∃ sat, work K env m jar = .ok { m with sat := sat }) ∨
      (∃ pro, work K env m jar = .ok (gift m pro)) ∨ work K env m jar = .error (.fail, m) := by
  unfold work
  split
  · rename_i tag dat
    split
    · rename_i ht
      split
      · rename_i mil ovo
        split
        · exact Or.inl ⟨ovo, ⟨mil, by rw [ht]⟩, rfl⟩
        · exact Or.inr (Or.inr (Or.inr rfl))
      · exact Or.inr (Or.inr (Or.inr rfl))
    split
    · split
      · split
        · exact Or.inr (Or.inr (Or.inl ⟨_, rfl⟩))
        · exact Or.inr (Or.inr (Or.inr rfl))
      · exact Or.inr (Or.inr (Or.inr rfl))
    split
    · split
      · exact Or.inr (Or.inl ⟨_, rfl⟩)
      · exact Or.inr (Or.inr (Or.inr rfl))
    split
    · split
      · exact Or.inr (Or.inr (Or.inl ⟨_, rfl⟩))
      · exact Or.inr (Or.inr (Or.inr rfl))
    split
    · rcases workQuiz_cases with ⟨pro, h⟩ | h
      · exact Or.inr (Or.inr (Or.inl ⟨pro, h⟩))
      · exact Or.inr (Or.inr (Or.inr h))
    split
    · exact Or.inr (Or.inl ⟨_, rfl⟩)
    · exact Or.inr (Or.inr (Or.inr rfl))
  · exact Or.inr (Or.inr (Or.inr rfl))

end Mars
end Ursockets
