/-
# Events before their effects

A session starts with every event of the log in the kernel state and nothing
waiting (`Started`). What the process does from there is a run of a server that
writes ahead (`moves_step`): gifts are sent in the order they were made, the
effects of an event after it is in the log, and the state is saved, or the
process ends, with every event in the log.

Key definitions: `Started`, `Ok`, `Kept`, `Orderly`, `Clear`.
Key theorems: `moves_flush`, `ok_step`, `orderly_of_clear`.
-/
import Ursockets.Mars

namespace Ursockets
namespace Mars

open WriteAhead

/-- The process as a server: the events accepted, those in the log, the gifts not sent. -/
def server (m : Mars) : Server Noun := ⟨m.log.sen, m.log.dun, m.gif⟩

/-- Between two states the process does the acts of the list, which are a run of a server that
writes ahead. Each event it plans is followed by the gift of its effects, and is logged next. -/
structure Moved (m m' : Mars) (acts : List Act) : Prop where
  io : m'.io = m.io ++ acts
  run : Run m.server acts m'.server
  pair : (posted acts).filterMap Item.ticket = (planned acts).map Feat.eve
  all : m'.log.all = m.log.all ++ planned acts

def Moves (m m' : Mars) : Prop := ∃ acts, Moved m m' acts

theorem Moves.refl {m m' : Mars} (hio : m'.io = m.io) (hs : m'.server = m.server)
    (hall : m'.log.all = m.log.all) : Moves m m' :=
  ⟨[], by rw [hio, List.append_nil], by rw [hs]; rfl, rfl, by rw [hall]; simp [planned]⟩

theorem Moved.trans {a b c : Mars} {x y : List Act} (h1 : Moved a b x) (h2 : Moved b c y) :
    Moved a c (x ++ y) :=
  ⟨by rw [h2.io, h1.io, List.append_assoc], h1.run.append h2.run,
    by rw [posted_append, planned_append, List.filterMap_append, List.map_append, h1.pair, h2.pair],
    by rw [h2.all, h1.all, planned_append, List.append_assoc]⟩

theorem Moves.trans {a b c : Mars} (h1 : Moves a b) (h2 : Moves b c) : Moves a c := by
  obtain ⟨x, hx⟩ := h1
  obtain ⟨y, hy⟩ := h2
  exact ⟨x ++ y, hx.trans hy⟩

/-- One act that neither plans nor posts. -/
theorem Moves.single {m m' : Mars} {a : Act} (hio : m'.io = m.io ++ [a]) (hs : Step m.server a m'.server)
    (hall : m'.log.all = m.log.all) (hp : planned [a] = []) (hg : posted [a] = []) : Moves m m' :=
  ⟨[a], hio, Run.single hs, by rw [hp, hg]; rfl, by rw [hp, hall, List.append_nil]⟩

/-! ### The invariant -/

/-- The counters agree between two inputs, and the effects that wait are of events accepted. -/
structure Counts (m : Mars) : Prop where
  sen : m.sen = m.dun
  dun : m.dun = m.log.sen
  eve : m.arv.eve = m.dun
  gif : ∀ g ∈ m.gif, g.ready m.log.sen = true

/-- The invariant between two inputs. -/
structure Ok (m : Mars) : Prop extends Counts m where
  log : m.log.Ok

/-- What waits in the queue is not ready. -/
def Waiting (m : Mars) : Prop := ∀ g ∈ m.gif.head?, g.ready m.log.dun = false

/-- The states differ in nothing but the mode, the save timer, the flags and the measurements. -/
structure Same (m m' : Mars) : Prop where
  sen : m'.sen = m.sen
  dun : m'.dun = m.dun
  mug : m'.mug = m.mug
  gif : m'.gif = m.gif
  lif : m'.lif = m.lif
  log : m'.log = m.log
  arv : m'.arv = m.arv
  img : m'.img = m.img
  io : m'.io = m.io

theorem Same.moves {m m' : Mars} (h : Same m m') : Moves m m' :=
  Moves.refl h.io (by rw [server, server, h.log, h.gif]) (by rw [h.log])

theorem Same.counts {m m' : Mars} (h : Same m m') (hm : Counts m) : Counts m' :=
  ⟨by rw [h.sen, h.dun]; exact hm.sen, by rw [h.dun, h.log]; exact hm.dun,
    by rw [h.arv, h.dun]; exact hm.eve, by rw [h.gif, h.log]; exact hm.gif⟩

/-! ### Gifts -/

theorem moves_gift (m : Mars) (pro : Noun) : Moves m (gift m pro) :=
  ⟨[.post ⟨none, pro⟩], rfl, Run.single (Step.post _ _ rfl), rfl, (List.append_nil _).symm⟩

theorem counts_gift {m : Mars} (hm : Counts m) (pro : Noun) : Counts (gift m pro) := by
  refine ⟨hm.sen, hm.dun, hm.eve, fun g hg => ?_⟩
  rcases List.mem_append.mp hg with h | h
  · exact hm.gif g h
  · rw [List.mem_singleton.mp h]; rfl

/-- **An accepted event is planned, and then its effects are queued.** -/
theorem Accepted.moves {K : Kernel} {m m' : Mars} {job pro : Noun} (hm : Ok m)
    (h : Accepted K m m' job pro) : Moves m m' ∧ Ok m' := by
  have hlog := h.log
  unfold Disk.u3Plan at hlog
  split at hlog
  swap
  · cases hlog
  have hplan := Disk.plan_frame m.log m'.mug job
  obtain ⟨h1, h2, -, -, -, -, -, -⟩ := Disk.commit_frame hlog
  have hsen : m'.log.sen = m.log.sen + 1 := h1.trans hplan.1
  have hdun : m'.log.dun = m.log.dun := h2.trans hplan.2.1
  have hn : m.sen + 1 = m'.log.sen := by rw [hsen, hm.sen, hm.dun]
  have hall : m'.log.all = m.log.all ++ [⟨m.sen + 1, m'.mug, job⟩] := by
    rw [(Disk.commit_frame hlog).2.2.2.2.2.2.2, hplan.2.2.2.1, Disk.next, hm.sen, hm.dun]
  constructor
  · refine ⟨_, h.io, ⟨⟨m.log.sen + 1, m.log.dun, m.gif⟩, Step.plan m.server _, ?_⟩, rfl, hall⟩
    have hs : m'.server = ⟨m.log.sen + 1, m.log.dun, m.gif ++ [⟨some (m.sen + 1), pro⟩]⟩ := by
      rw [server, hsen, hdun, h.gif]
    rw [hs]
    exact Run.single (Step.post ⟨m.log.sen + 1, m.log.dun, m.gif⟩ _
      (Item.ready_some.mpr (by rw [hn, hsen])))
  · refine ⟨⟨?_, ?_, ?_, fun g hg => ?_⟩, Disk.ok_commit (Disk.ok_plan hm.log _ _) hlog⟩
    · rw [h.sen, h.dun]
    · rw [h.dun, hn]
    · rw [h.eve, h.dun, hm.eve, hm.sen]
    · rw [h.gif] at hg
      rcases List.mem_append.mp hg with hg | hg
      · exact Item.ready_mono (by rw [hsen]; exact Nat.le_succ _) (hm.gif g hg)
      · rw [List.mem_singleton.mp hg, hn]
        exact Item.ready_some.mpr (le_refl _)

/-! ### Sending -/

theorem moves_drain (m : Mars) : Moves m (drain m) := by
  have hsend : ∀ gs : List Gift, planned (gs.map (.send : Gift → WriteAhead.Act Noun Feat)) = [] ∧
      posted (gs.map (.send : Gift → WriteAhead.Act Noun Feat)) = [] := by
    intro gs
    induction gs with
    | nil => exact ⟨rfl, rfl⟩
    | cons g gs ih => exact ih
  refine ⟨_, rfl, run_drain _ _ _, ?_, ?_⟩
  · rw [(hsend _).1, (hsend _).2]; rfl
  · rw [(hsend _).1, List.append_nil]; rfl

theorem Moves.drained {m m1 x : Mars} (h : Moves m m1) (hx : Same m1 x) : Moves m (drain x) :=
  (h.trans hx.moves).trans (moves_drain x)

theorem counts_drain {m : Mars} (hm : Counts m) : Counts (drain m) :=
  ⟨hm.sen, hm.dun, hm.eve, fun g hg => hm.gif g ((List.dropWhile_sublist _).subset hg)⟩

theorem waiting_drain (m : Mars) : Waiting (drain m) := by
  intro g hg
  have h1 := List.head?_dropWhile_not (Item.ready m.log.dun) m.gif
  rw [show m.gif.dropWhile (Item.ready m.log.dun) = (drain m).gif from rfl, Option.mem_def.mp hg] at h1
  show g.ready m.log.dun = false
  simpa using h1

/-- When every event is in the log everything is sent. -/
theorem drain_gif {m : Mars} (hm : Counts m) (hd : m.log.dun = m.log.sen) : (drain m).gif = [] := by
  simp only [drain]
  rw [List.dropWhile_eq_nil_iff]
  intro g hg
  rw [hd]
  exact hm.gif g hg

theorem moves_save {m : Mars} (hm : Counts m) (hd : m.log.dun = m.dun) : Moves m (u3mSave m) := by
  refine Moves.single (a := .save m.dun) rfl ?_ rfl rfl rfl
  rw [hm.dun]
  exact Step.save m.server (hd.trans hm.dun)

/-- What `_mars_flush` leaves when it returns. -/
structure Flushed (m m' : Mars) : Prop where
  moves : Moves m m'
  counts : Counts m'
  waiting : Waiting m'
  dun : m'.dun = m.dun
  lif : m'.lif = m.lif
  log : m'.log = m.log
  arv : m'.arv = m.arv
  img : m'.img = m.img ∨ m.log.dun = m.dun ∧ m'.img = m.arv

/-- What it leaves when it ends the process. -/
structure Exited (m m' : Mars) : Prop where
  moves : Moves m m'
  counts : Counts m'
  gif : m'.gif = []
  lif : m'.lif = m.lif
  log : m'.log = m.log
  arv : m'.arv = m.arv
  img : m'.img = m.arv
  dun : m'.log.dun = m'.dun

/-- **A flush stops at the first event that is not in the log**, and saves or ends the process only
when there is none. -/
theorem flush_cases {m : Mars} (hm : Counts m) :
    (∃ m', flush m = .ok m' ∧ Flushed m m') ∨ ∃ m', flush m = .error (.exit, m') ∧ Exited m m' := by
  have hd := counts_drain hm
  unfold flush
  simp only
  split
  swap
  · exact Or.inl ⟨_, rfl, moves_drain m, hd, waiting_drain m, rfl, rfl, rfl, rfl, Or.inl rfl⟩
  rename_i hc
  have hs : Moves m (u3mSave (drain m)) := (moves_drain m).trans (moves_save hd hc.2)
  have hok : Counts (u3mSave (drain m)) := ⟨hd.sen, hd.dun, hd.eve, hd.gif⟩
  split
  · left
    refine ⟨_, rfl, ?_, ?_, waiting_drain _, rfl, rfl, rfl, rfl, Or.inr ⟨hc.2, rfl⟩⟩
    · exact (hs.trans (moves_gift _ _)).drained ⟨rfl, rfl, rfl, rfl, rfl, rfl, rfl, rfl, rfl⟩
    · exact counts_drain ⟨hd.sen, hd.dun, hd.eve, (counts_gift hok _).gif⟩
  · right
    have hgif : (drain m).gif = [] := drain_gif hm (hc.2.trans hm.dun)
    refine ⟨_, rfl, hs.trans (Moves.single (a := .exit) rfl ?_ rfl rfl rfl), ⟨hd.sen, hd.dun, hd.eve, hd.gif⟩,
      hgif, rfl, rfl, rfl, rfl, hc.2⟩
    exact Step.exit _ (hc.2.trans hm.dun) hgif

/-! ### One input -/

/-- What happens before the flush: at most the mode changes, an answer is queued, or an event is
accepted. -/
inductive Turn (K : Kernel) (acc : Prop) (m m1 : Mars) : Prop
  | same : Same m m1 → Turn K acc m m1
  | answer (pro : Noun) : Same (gift m pro) m1 → Turn K acc m m1
  | accept (job pro : Noun) : acc → Accepted K m m1 job pro → Turn K acc m m1

theorem Turn.moves {K : Kernel} {acc : Prop} {m m1 : Mars} (hm : Ok m) (h : Turn K acc m m1) :
    Moves m m1 ∧ Ok m1 := by
  cases h with
  | same h => exact ⟨h.moves, h.counts hm.toCounts, h.log ▸ hm.log⟩
  | answer pro h =>
    exact ⟨(moves_gift m pro).trans h.moves, h.counts (counts_gift hm.toCounts pro), h.log ▸ hm.log⟩
  | accept job pro _ h => exact h.moves hm

/-- The message is a poke that the process takes up and whose event it computes. -/
def Accepts (K : Kernel) (m : Mars) : Input → Prop
  | .kick env (some jar) => m.sat = .work ∧ ∃ ovo, IsPoke jar ovo ∧ Poked K m env ovo
  | _ => False

theorem post_same (m : Mars) : Same m (post m) := ⟨rfl, rfl, rfl, rfl, rfl, rfl, rfl, rfl, rfl⟩

theorem work_turn {K : Kernel} {env : Env} {m m1 : Mars} {jar : Noun} (hm : Ok m)
    (h : work K env m jar = .ok m1) :
    Turn K (∃ ovo, IsPoke jar ovo ∧ Poked K m env ovo) m (post m1) := by
  rcases work_cases K env m jar with ⟨ovo, hj, hw⟩ | ⟨sat, hw⟩ | ⟨pro, hw⟩ | hw
  · rw [hw] at h
    rcases workPoke_ok hm.sen h with ⟨hp, job, pro, ha⟩ | ⟨pro, rfl⟩
    · exact .accept job pro ⟨ovo, hj, hp⟩ ⟨ha.poke, ha.eve, ha.sen, ha.dun, ha.mug, ha.sat, ha.img, ha.lif, ha.log,
        ha.gif, ha.io⟩
    · exact .answer pro (post_same _)
  · rw [hw] at h
    rw [← Except.ok.inj h]
    exact .same ⟨rfl, rfl, rfl, rfl, rfl, rfl, rfl, rfl, rfl⟩
  · rw [hw] at h
    rw [← Except.ok.inj h]
    exact .answer pro (post_same _)
  · rw [hw] at h
    cases h

/-- **A message is a turn and a flush**, unless it ends the process before. -/
theorem kick_cases (K : Kernel) (env : Env) {m : Mars} (jar : Option Noun) (hm : Ok m) :
    (∃ m1, Turn K (Accepts K m (.kick env jar)) m m1 ∧ (kick K env m jar).map Prod.fst = flush m1) ∨
      ∃ f m', (kick K env m jar).map Prod.fst = .error (f, m') ∧
        Broken m m' f (Accepts K m (.kick env jar)) := by
  unfold kick
  split
  swap
  · refine Or.inl ⟨m, .same ⟨rfl, rfl, rfl, rfl, rfl, rfl, rfl, rfl, rfl⟩, ?_⟩
    cases flush m <;> rfl
  rename_i hs
  cases jar with
  | none =>
    exact Or.inr ⟨_, _, rfl, ⟨rfl, rfl, rfl, rfl, rfl, by decide, nofun⟩⟩
  | some jar =>
    cases hw : work K env m jar with
    | ok m1 =>
      refine Or.inl ⟨post m1, ?_, ?_⟩
      · cases work_turn hm hw with
        | same h => exact .same h
        | answer pro h => exact .answer pro h
        | accept job pro ha h => exact .accept job pro ⟨hs, ha⟩ h
      · simp only [hw, Except.map, Except.bind]
        cases flush (post m1) <;> rfl
    | error e =>
      obtain ⟨f, m'⟩ := e
      refine Or.inr ⟨f, m', by simp only [hw, Except.map, Except.bind], ?_⟩
      rcases work_cases K env m jar with ⟨ovo, hj, hp⟩ | ⟨sat, hp⟩ | ⟨pro, hp⟩ | hp
      · rw [hp] at hw
        have hb := workPoke_error hm.sen hm.dun hm.eve hw
        exact ⟨hb.io, hb.log, hb.gif, hb.img, hb.lif, hb.ne_exit, fun hf =>
          ⟨⟨hs, ovo, hj, (hb.fault hf).1⟩, (hb.fault hf).2⟩⟩
      · rw [hp] at hw; cases hw
      · rw [hp] at hw; cases hw
      · rw [hp] at hw
        cases hw
        exact ⟨rfl, rfl, rfl, rfl, rfl, by decide, nofun⟩

/-- The state after one more event, which is planned with its mug. -/
def Extends (K : Kernel) (m m' : Mars) : Prop :=
  ∃ job, (∃ vir, K.poke m.arv.roc job = .ok (.cell vir m'.arv.roc)) ∧ m'.arv.eve = m.arv.eve + 1 ∧
    m'.log.all = m.log.all ++ [⟨m'.arv.eve, m'.arv.roc.mug.toNat, job⟩]

/-- What a step that returned has done. -/
structure Stepped (K : Kernel) (m m' : Mars) : Prop where
  moves : Moves m m'
  ok : Ok m'
  waiting : Waiting m'
  arv : (m'.arv = m.arv ∧ m'.log.all = m.log.all) ∨ Extends K m m'
  img : m'.img = m.img ∨ m'.log.dun = m'.log.sen ∧ m'.img = m'.arv
  dun : m.log.dun ≤ m'.log.dun
  lif : m'.lif = m.lif
  old : m'.log.old = m.log.old
  epo : m'.log.epo = m.log.epo

/-- What a step that ended the process leaves on disk. -/
structure Ended (m m' : Mars) : Prop where
  moves : Moves m m'
  log : ∃ n, m'.log.Holds n ∧ m'.log.dun ≤ n
  sen : m'.log.sen = m.log.sen
  dun : m.log.dun ≤ m'.log.dun
  all : m'.log.all = m.log.all
  img : m'.img = m.img ∨ m'.log.dun = m'.log.sen ∧ m'.img = m.arv
  lif : m'.lif = m.lif
  old : m'.log.old = m.log.old
  epo : m'.log.epo = m.log.epo

/-- The end of a commit. -/
theorem after_cases (K : Kernel) {m : Mars} (hm : Ok m) (ht : m.log.ted = true)
    (hr : m.log.ran = true) :
    (∃ m', after m = .ok m' ∧ Stepped K m m' ∧ m'.log.torn = m.log.torn) ∨
      ∃ f m', after m = .error (f, m') ∧ Ended m m' ∧ (f = .exit → m'.gif = [] ∧ m'.log.dun = m'.log.sen) ∧
        (f = .fault → m.log.torn = true) := by
  have hc := Disk.ok_done hm.log ht hr
  obtain ⟨hlen, _⟩ := hm.log.bat_eq ht
  have hsen : m.log.done.sen = m.log.sen := rfl
  unfold after
  simp only
  cases hret : m.log.ret with
  | false =>
    right
    have hdun : m.log.done.dun = m.log.dun := by simp [Disk.done, hret]
    refine ⟨.fail, _, by rw [if_neg (by simp [Disk.done, hret])], ?_, (by intro h; cases h), (by intro h; cases h)⟩
    refine ⟨Moves.refl (by simp) ?_ rfl, ⟨_, hc.holds, le_refl _⟩, hsen, hc.le_dun, rfl, Or.inl rfl, rfl, rfl,
      rfl⟩
    rw [server, server, hdun, hsen]
  | true =>
    have hdun : m.log.done.dun = m.log.dun + m.log.len := by simp [Disk.done, hret]
    rw [if_pos (show m.log.done.ret = true from hret), if_pos rfl]
    -- the batch is counted
    generalize hm1 : ({ m with
      log := m.log.done
      io := m.io ++ [.commit (m.log.dun + m.log.len)] } : Mars) = m1
    have hlog : m1.log = m.log.done := by rw [← hm1]
    have hmv : Moves m m1 := by
      refine Moves.single (a := .commit (m.log.dun + m.log.len)) (by rw [← hm1]) ?_ (by rw [← hm1]; rfl)
        rfl rfl
      have hs : m1.server = { m.server with durable := m.log.dun + m.log.len } := by
        rw [← hm1, server, server, hdun, hsen]
      rw [hs]
      exact Step.commit m.server _ (Nat.le_add_right _ _) hlen
    have hcounts : Counts m1 := by
      rw [← hm1]
      exact ⟨hm.sen, hm.dun, hm.eve, hm.gif⟩
    -- the gifts it freed are sent
    rcases flush_cases hcounts with ⟨m2, hf, hfl⟩ | ⟨m2, hf, hex⟩
    · have hlog2 : m2.log = m.log.done := hfl.log.trans hlog
      rw [hf, Except.bind]
      simp only [hlog2]
      -- its events are freed, and the next batch is cut
      cases hn : m.log.done.free.bind Disk.commit with
      | none =>
        right
        refine ⟨.fault, m2, rfl, ?_, (by intro h; cases h), fun _ => ?_⟩
        · refine ⟨hmv.trans hfl.moves, ⟨_, hlog2 ▸ hc.holds, by rw [hlog2]⟩,
            by rw [hlog2, hsen], by rw [hlog2]; exact hc.le_dun, by rw [hlog2]; rfl, ?_,
            by rw [hfl.lif, ← hm1], by rw [hlog2]; rfl, by rw [hlog2]; rfl⟩
          rcases hfl.img with h | ⟨h1, h2⟩
          · exact Or.inl (by rw [h, ← hm1])
          · refine Or.inr ⟨?_, by rw [h2, ← hm1]⟩
            rw [hfl.log, h1, hcounts.dun]
        · by_contra ht
          have htorn : m.log.torn = false := by simpa using ht
          obtain ⟨d', hd'⟩ := Disk.free_commit_some hc htorn
          rw [hd'] at hn
          cases hn
      | some log =>
        left
        obtain ⟨a1, a2, a3, a4, a5, a6, a7⟩ := Disk.free_commit_frame hc hn
        refine ⟨_, rfl, ?_, a4⟩
        have hsv : server { m2 with log := log } = m2.server := by
          rw [server, server, a2, a3, hlog2]
        refine ⟨(hmv.trans hfl.moves).trans (Moves.refl rfl hsv (by rw [hlog2]; exact a5)),
          ⟨⟨hfl.counts.sen, ?_, hfl.counts.eve, ?_⟩, a1⟩,
          ?_, Or.inl ⟨?_, a5⟩, ?_, ?_, ?_, a6, a7⟩
        · rw [hfl.counts.dun, hlog2, ← a2]
        · intro g hg
          have := hfl.counts.gif g hg
          rw [hlog2, ← a2] at this
          exact this
        · intro g hg
          have := hfl.waiting g hg
          rw [hlog2, ← a3] at this
          exact this
        · rw [hfl.arv, ← hm1]
        · rcases hfl.img with h | ⟨h1, h2⟩
          · exact Or.inl (by rw [h, ← hm1])
          · refine Or.inr ⟨?_, by rw [h2, hfl.arv]⟩
            rw [a3, a2, ← hlog, h1, hcounts.dun]
        · rw [a3]; exact hc.le_dun
        · rw [hfl.lif, ← hm1]
    · right
      rw [hf]
      have hlog2 : m2.log = m.log.done := hex.log.trans hlog
      have hsame : m2.log.dun = m2.log.sen := by
        rw [hex.dun, hex.counts.dun]
      refine ⟨.exit, m2, rfl, ?_, fun _ => ⟨hex.gif, hsame⟩, by intro h; cases h⟩
      exact ⟨hmv.trans hex.moves, ⟨_, hlog2 ▸ hc.holds, by rw [hlog2]⟩,
        by rw [hlog2, hsen], by rw [hlog2]; exact hc.le_dun, by rw [hlog2]; rfl,
          Or.inr ⟨hsame, by rw [hex.img, ← hm1]⟩, by rw [hex.lif, ← hm1], by rw [hlog2]; rfl,
        by rw [hlog2]; rfl⟩

/-- What a turn makes of the state and the log. -/
structure Turned (K : Kernel) (m m1 : Mars) : Prop where
  moves : Moves m m1
  ok : Ok m1
  arv : (m1.arv = m.arv ∧ m1.log.all = m.log.all) ∨ Extends K m m1
  img : m1.img = m.img
  dun : m1.log.dun = m.log.dun
  lif : m1.lif = m.lif
  old : m1.log.old = m.log.old
  epo : m1.log.epo = m.log.epo

/-- A step may ruin the queue: it accepts an event while the entry pointer is shifted. -/
def Ruins (K : Kernel) (m : Mars) (i : Input) : Prop := Accepts K m i ∧ m.log.skew ≠ 0

theorem Turn.turned {K : Kernel} {acc : Prop} {m m1 : Mars} (hm : Ok m) (h : Turn K acc m m1) :
    Turned K m m1 ∧ (m1.log.torn = true → m.log.torn = true ∨ acc ∧ m.log.skew ≠ 0) := by
  obtain ⟨hmv, hok⟩ := h.moves hm
  cases h with
  | same h =>
    exact ⟨⟨hmv, hok, Or.inl ⟨h.arv, by rw [h.log]⟩, h.img, by rw [h.log], h.lif, by rw [h.log],
      by rw [h.log]⟩, fun ht => Or.inl (by rwa [h.log] at ht)⟩
  | answer pro h =>
    have hlog : m1.log = m.log := h.log
    exact ⟨⟨hmv, hok, Or.inl ⟨h.arv, by rw [hlog]⟩, h.img, by rw [hlog], h.lif, by rw [hlog],
      by rw [hlog]⟩, fun ht => Or.inl (by rwa [hlog] at ht)⟩
  | accept job pro ha h =>
    have hlog := h.log
    unfold Disk.u3Plan at hlog
    split at hlog
    swap
    · cases hlog
    obtain ⟨h1, h2, h3, h4, h5, h6, h7, h8⟩ := Disk.commit_frame hlog
    obtain ⟨p1, p2, p3, p4, p5, p6, p7, p8, p9, p10⟩ := Disk.plan_frame m.log m1.mug job
    refine ⟨⟨hmv, hok, Or.inr ⟨job, h.poke, h.eve, ?_⟩, h.img, h2.trans p2, h.lif, h7.trans p6,
      h3.trans p3⟩, fun ht => ?_⟩
    · rw [h8, p4, Disk.next, h.mug, h.eve, hm.eve, hm.dun]
    · rw [h5] at ht
      rcases Disk.plan_put m.log m1.mug job with ⟨_, _, hp⟩ | ⟨_, _, _, hp⟩ | ⟨_, _, hp, _⟩
      · exact Or.inl (hp ▸ ht)
      · exact hp.imp id fun hs => ⟨ha, hs⟩
      · rw [hp] at ht; cases ht

theorem Turned.flushed {K : Kernel} {m m1 m2 : Mars} (h : Turned K m m1) (hf : Flushed m1 m2) :
    Stepped K m m2 := by
  refine ⟨h.moves.trans hf.moves, ⟨hf.counts, hf.log ▸ h.ok.log⟩, hf.waiting, ?_, ?_, ?_, ?_, ?_, ?_⟩
  · rcases h.arv with ⟨h1, h2⟩ | ⟨job, h1, h2, h3⟩
    · exact Or.inl ⟨hf.arv.trans h1, by rw [hf.log, h2]⟩
    · exact Or.inr ⟨job, by rw [hf.arv]; exact h1, by rw [hf.arv]; exact h2,
        by rw [hf.arv, hf.log]; exact h3⟩
  · rcases hf.img with h1 | ⟨h1, h2⟩
    · exact Or.inl (h1.trans h.img)
    · exact Or.inr ⟨by rw [hf.log, h1, h.ok.dun], by rw [h2, hf.arv]⟩
  · rw [hf.log, h.dun]
  · exact hf.lif.trans h.lif
  · rw [hf.log, h.old]
  · rw [hf.log, h.epo]

theorem Turned.refl {K : Kernel} {m : Mars} (hm : Ok m) : Turned K m m :=
  ⟨Moves.refl rfl rfl rfl, hm, Or.inl ⟨rfl, rfl⟩, rfl, rfl, rfl, rfl, rfl⟩

theorem Exited.ended {m m' : Mars} (hm : Ok m) (h : Exited m m') : Ended m m' :=
  ⟨h.moves, ⟨_, h.log ▸ hm.log.holds, by rw [h.log]; exact Disk.Ok.dun_le_durable⟩, by rw [h.log],
    by rw [h.log], by rw [h.log], Or.inr ⟨by rw [h.dun, h.counts.dun], h.img⟩, h.lif, by rw [h.log], by rw [h.log]⟩

theorem Broken.ended {m m' : Mars} {f : Fate} {acc : Prop} (hm : Ok m) (h : Broken m m' f acc) :
    Ended m m' :=
  ⟨Moves.refl h.io (by rw [server, server, h.log, h.gif]) (by rw [h.log]),
    ⟨_, h.log ▸ hm.log.holds, by rw [h.log]; exact Disk.Ok.dun_le_durable⟩, by rw [h.log], by rw [h.log],
    by rw [h.log], Or.inl h.img, h.lif, by rw [h.log],
    by rw [h.log]⟩

/-- What a step that returned does. -/
def Returns (K : Kernel) (m : Mars) (i : Input) : Prop :=
  ∃ m', step K m i = .ok m' ∧ Stepped K m m' ∧
    (m'.log.torn = true → m.log.torn = true ∨ Ruins K m i)

/-- What a step that ended the process does. -/
def Halts (K : Kernel) (m : Mars) (i : Input) : Prop :=
  ∃ f m', step K m i = .error (f, m') ∧ (∃ m1, Turned K m m1 ∧ Ended m1 m') ∧
    (f = .exit → m'.gif = [] ∧ m'.log.dun = m'.log.sen) ∧
    (f = .fault → m.log.torn = true ∨ Ruins K m i)

theorem turn_cases {K : Kernel} {m m1 : Mars} {i : Input} (hm : Ok m)
    (h1 : Turn K (Accepts K m i) m m1) (h2 : step K m i = flush m1) :
    Returns K m i ∨ Halts K m i := by
  obtain ⟨ht, htorn⟩ := h1.turned hm
  rcases flush_cases ht.ok.toCounts with ⟨m2, hf, hfl⟩ | ⟨m2, hf, hex⟩
  · exact Or.inl ⟨m2, h2.trans hf, ht.flushed hfl, fun h => htorn (by rwa [hfl.log] at h)⟩
  · exact Or.inr ⟨.exit, m2, h2.trans hf, ⟨m1, ht, hex.ended ht.ok⟩,
      fun _ => ⟨hex.gif, by rw [hex.dun, hex.counts.dun]⟩, nofun⟩

/-- Nothing happens. -/
theorem idle_returns {K : Kernel} {m : Mars} {i : Input} (hm : Ok m) (hw : Waiting m)
    (h : step K m i = .ok m) : Returns K m i :=
  ⟨m, h, ⟨Moves.refl rfl rfl rfl, hm, hw, Or.inl ⟨rfl, rfl⟩, Or.inl rfl, le_refl _, rfl, rfl, rfl⟩, Or.inl⟩

theorem write_returns {K : Kernel} {m : Mars} {ok : Bool} (hm : Ok m) (hw : Waiting m)
    (ht : m.log.ted = true) (hr : m.log.ran = false) : Returns K m (.write ok) := by
  obtain ⟨h1, h2, h3, h4, h5, h6, h7, h8⟩ := Disk.write_frame m.log ok
  have hs : step K m (.write ok) = .ok { m with log := m.log.write ok } := by
    simp only [step, ht, hr, Bool.false_eq_true, not_false_eq_true, and_self, if_true]
  refine ⟨_, hs, ⟨Moves.refl rfl ?_ h4, ⟨⟨hm.sen, hm.dun.trans h1.symm, hm.eve, ?_⟩, (Disk.ok_write hm.log ht hr ok).1⟩,
    ?_, Or.inl ⟨rfl, h4⟩, Or.inl rfl, le_of_eq h2.symm, rfl, h7, h8⟩, fun h => Or.inl (h3 ▸ h)⟩
  · show Server.mk (m.log.write ok).sen (m.log.write ok).dun m.gif = m.server
    rw [h1, h2]
    rfl
  · intro g hg
    show g.ready (m.log.write ok).sen = true
    rw [h1]
    exact hm.gif g hg
  · intro g hg
    show g.ready (m.log.write ok).dun = false
    rw [h2]
    exact hw g hg

/-- **An input leaves the process running or ends it**, and only a queue that is ruined ends it by a
wild pointer. -/
theorem step_cases (K : Kernel) {m : Mars} (hm : Ok m) (hw : Waiting m) (i : Input) :
    Returns K m i ∨ Halts K m i := by
  cases i with
  | kick env jar =>
    rcases kick_cases K env jar hm with ⟨m1, h1, h2⟩ | ⟨f, m', h1, hb⟩
    · exact turn_cases hm h1 h2
    refine Or.inr ⟨f, m', h1, ⟨m, Turned.refl hm, hb.ended hm⟩, fun hf => absurd hf hb.ne_exit,
      fun hf => ?_⟩
    obtain ⟨ha, mug, job, hp⟩ := hb.fault hf
    by_contra hn
    rw [not_or] at hn
    have htorn : (m.log.plan mug job).torn = false := by
      rcases Disk.plan_put m.log mug job with ⟨_, _, h⟩ | ⟨_, _, _, h⟩ | ⟨_, _, h, _⟩
      · rw [h]; simpa using hn.1
      · exact absurd h (not_or.mpr ⟨hn.1, fun hs => hn.2 ⟨ha, hs⟩⟩)
      · exact h
    obtain ⟨d', hd'⟩ := Disk.commit_some (Disk.ok_plan hm.log mug job) htorn
    rw [Disk.u3Plan, if_pos (Nat.add_comm _ _)] at hp
    rw [show Disk.commit (m.log.plan mug job) = none from hp] at hd'
    cases hd'
  | timer =>
    refine turn_cases hm (.same ?_) rfl
    split <;> exact ⟨rfl, rfl, rfl, rfl, rfl, rfl, rfl, rfl, rfl⟩
  | write ok =>
    by_cases hc : m.log.ted = true ∧ ¬ m.log.ran = true
    · exact Or.inl (write_returns hm hw hc.1 (by simpa using hc.2))
    · exact Or.inl (idle_returns hm hw (by simp only [step, if_neg hc]))
  | after =>
    by_cases hc : m.log.ted = true ∧ m.log.ran = true
    swap
    · exact Or.inl (idle_returns hm hw (by simp only [step, if_neg hc]))
    have hs : step K m .after = after m := by simp only [step, if_pos hc]
    rcases after_cases K hm hc.1 hc.2 with ⟨m', h, hst, htorn⟩ | ⟨f, m', h, hen, hex, hft⟩
    · exact Or.inl ⟨m', hs.trans h, hst, fun ht => Or.inl (htorn ▸ ht)⟩
    · exact Or.inr ⟨f, m', hs.trans h, ⟨m, Turned.refl hm, hen⟩, hex, fun hf => Or.inl (hft hf)⟩

/-! ### Whole sessions -/

/-- The state that `u3_mars_work` starts with: every event is in the log and in the kernel state, and
nothing waits. -/
structure Started (m : Mars) : Prop where
  ok : Ok m
  dun : m.log.dun = m.log.sen
  torn : m.log.torn = false
  gif : m.gif = []
  io : m.io = []

/-- No step of the run accepts an event while the entry pointer of the write queue is shifted. -/
def Clear (K : Kernel) : Mars → List Input → Prop
  | _, [] => True
  | m, i :: is => ¬ Ruins K m i ∧ ∀ m', step K m i = .ok m' → Clear K m' is

/-- What the process has done since `m0`, where it started, obeys the order. -/
structure Kept (m0 m : Mars) : Prop where
  /-- gifts are sent in the order they were made, and those not sent wait -/
  order : posted m.io = sent m.io ++ m.gif
  /-- each event accepted has its effects among the gifts, in the same order -/
  facts : (posted m.io).filterMap Item.ticket = (planned m.io).map Feat.eve
  /-- the effects of an event are sent after it is committed -/
  effects : ∀ p g q n, m.io = p ++ .send g :: q → g.ticket = some n → n ≤ durableAfter m0.log.dun p
  /-- the state is saved when every event accepted is committed -/
  saves : ∀ p n q, m.io = p ++ .save n :: q →
    n = m0.log.sen + (planned p).length ∧ durableAfter m0.log.dun p = n
  /-- the process exits when every event accepted is committed, and every gift sent -/
  exits : ∀ p q, m.io = p ++ .exit :: q →
    durableAfter m0.log.dun p = m0.log.sen + (planned p).length ∧ posted p = sent p
  /-- the events committed are in the tables -/
  committed : m.log.dun = durableAfter m0.log.dun m.io ∧
    (m0.log.all ++ planned m.io).take m.log.dun <+: m.log.old ++ m.log.mdb

/-- **Persistence before effects**, of the outcome of a session. While it runs, what waits in the
queue waits for its event, or for one before it; it never ends by a wild pointer. -/
def Orderly (m0 : Mars) : Except (Fate × Mars) Mars → Prop
  | .ok m => Kept m0 m ∧ Waiting m
  | .error (.exit, m) => Kept m0 m ∧ m.gif = [] ∧ m.log.dun = m.log.sen
  | .error (.fail, m) => Kept m0 m
  | .error (.fault, _) => False

theorem Moves.kept {m0 m : Mars} (h0 : Started m0) (h : Moves m0 m)
    (hlog : ∃ n, m.log.Holds n ∧ m.log.dun ≤ n) : Kept m0 m := by
  obtain ⟨acts, hio, hrun, hpair, hall⟩ := h
  rw [h0.io, List.nil_append] at hio
  have hgif : m0.server.held = [] := h0.gif
  obtain ⟨n, hn, hle⟩ := hlog
  refine ⟨?_, by rw [hio]; exact hpair, ?_, ?_, ?_, ?_, ?_⟩
  · have h1 := hrun.conserves
    rw [hgif, List.nil_append] at h1
    rw [hio]
    exact h1
  · intro p g q n he hg
    rw [hio] at he
    have h1 := (he ▸ hrun).sent_durable
    obtain ⟨t, x⟩ := g
    obtain rfl : t = some n := hg
    exact Item.ready_some.mp h1
  · intro p n q he
    rw [hio] at he
    exact (he ▸ hrun).save_durable
  · intro p q he
    rw [hio] at he
    have h1 := (he ▸ hrun).exit_durable
    rw [hgif, List.nil_append] at h1
    exact h1
  · rw [hio]; exact hrun.durable
  · rw [hio, ← hall, hn.tables]
    exact (List.take_prefix_take_left hle)

/-- A clear session, from any state of it. -/
theorem runs_clear {K : Kernel} {m0 : Mars} (h0 : Started m0) : ∀ (is : List Input) {m : Mars},
    Moves m0 m → Ok m → Waiting m → m.log.torn = false → Clear K m is → Orderly m0 (runs K m is)
  | [], m, hmv, hm, hw, _, _ => ⟨hmv.kept h0 ⟨_, hm.log.holds, Disk.Ok.dun_le_durable⟩, hw⟩
  | i :: is, m, hmv, hm, hw, ht, ⟨hr, hc⟩ => by
    have hnot : ¬ (m.log.torn = true ∨ Ruins K m i) := by
      rw [not_or]
      exact ⟨by simp [ht], hr⟩
    rw [runs]
    rcases step_cases K hm hw i with ⟨m', hs, hst, htorn⟩ | ⟨f, m', hs, ⟨m1, hm1, hen⟩, hex, hft⟩
    · rw [hs]
      exact runs_clear h0 is (hmv.trans hst.moves) hst.ok hst.waiting
        (by simpa using mt htorn hnot) (hc m' hs)
    · rw [hs]
      have hk : Kept m0 m' := ((hmv.trans hm1.moves).trans hen.moves).kept h0 hen.log
      cases f with
      | exit => exact ⟨hk, hex rfl⟩
      | fail => exact hk
      | fault => exact hnot (hft rfl)

/-- **Persistence before effects.** In every session that accepts no event while a full batch has
shifted the entry pointer of the write queue, gifts are sent in order with none lost or doubled, the
effects of an event after it is committed, and the state is saved, or the process exits, only when
every accepted event is committed. -/
theorem orderly_of_clear (K : Kernel) {m : Mars} (hm : Started m) (is : List Input)
    (hc : Clear K m is) : Orderly m (runs K m is) := by
  refine runs_clear hm is (Moves.refl rfl rfl rfl) hm.ok (fun g hg => ?_) hm.torn hc
  rw [hm.gif] at hg
  cases hg

/-! ### A session that does not -/

/-- A kernel that keeps its state and has no effects. -/
def calm : Kernel :=
  ⟨fun roc _ => .ok (.cell (.atom 0) roc), fun _ _ => .ok (.atom 0), fun _ => .ok (.atom 0)⟩

/-- A session that starts with an empty log. -/
def fresh : Mars where
  sen := 0
  dun := 0
  mug := 0
  sat := .work
  gif := []
  fag := 0
  mas := 0
  sac := .atom 0
  sav := 0
  lif := 0
  log := Disk.new
  arv := ⟨.atom 0, 0⟩
  img := ⟨.atom 0, 0⟩
  io := []

theorem fresh_started : Started fresh :=
  ⟨⟨⟨rfl, rfl, rfl, nofun⟩, ⟨trivial, rfl, le_refl _, le_refl _, rfl, rfl, nofun, fun _ => rfl, nofun,
    fun _ => rfl⟩⟩, rfl, rfl, rfl, rfl⟩

/-- A poke, at a time when nothing is wrong. -/
def nudge : Input :=
  .kick ⟨.atom 0, none, none, 0, 0, none, 0, 0⟩ (some (.cell (.atom poke) (.cell (.atom 0) (.atom 0))))

/-- `orderly_of_clear` at an event and its commit. -/
theorem orderly_of_clear_nudge : Orderly fresh (runs calm fresh [nudge, .write true, .after]) := by
  refine orderly_of_clear calm fresh_started _ ⟨fun h => h.2 rfl, fun m1 h1 => ?_⟩
  exact ⟨fun h => h.1, fun m2 h2 => ⟨fun h => h.1, fun m3 h3 => trivial⟩⟩

/-- An event whose commit takes as long as the next hundred and one, and the commit of a hundred of
these, during which one more is accepted. -/
def crowded : List Input :=
  nudge :: List.replicate 101 nudge ++ [.write true, .after, nudge, .write true, .after]

/-- The process read a wild pointer. -/
def faults : Except (Fate × Mars) Mars → Bool
  | .error (.fault, _) => true
  | _ => false

theorem not_orderly_of_faults {m0 : Mars} {r : Except (Fate × Mars) Mars} (h : faults r = true) :
    ¬ Orderly m0 r := by
  unfold faults at h
  split at h
  · exact id
  · cases h

/-- The event accepted while the full batch is in flight is linked at the wrong place, and the
process reads a wild pointer when it cuts the batch after it: the effects of the last two events are
never sent. -/
theorem crowded_not_orderly : Started fresh ∧ ¬ Orderly fresh (runs calm fresh crowded) :=
  ⟨fresh_started, not_orderly_of_faults (by decide +kernel)⟩

end Mars
end Ursockets
