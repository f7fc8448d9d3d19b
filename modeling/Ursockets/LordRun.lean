/-
# The controller and the worker stay in step

Both pipes and the worker's queue of gifts keep their order, so what the
controller waits for is what is on its way back, then the exit that the worker
has taken, then what is on its way there (`InStep`). A move keeps this
(`Inv.turn`), unless the worker's timer fires between the exit and the end of the
process with events to save: it then forgets the exit (`Forgets`), and takes the
tasks behind it.

Key definitions: `Plea`, `Pleas`, `Sends`, `InStep`, `Forgets`.
Key theorems: `flush_sends`, `work_sends`, `Inv.turn`, `inStep_of_run`.
-/
import Ursockets.Lord
import Ursockets.Lib.Replay

namespace Ursockets

open WriteAhead (sent)

namespace Duo

open Mars

/-! ### Messages -/

/-- What a task is, by its tag. A save has no writ. -/
def msgTyp : Noun → Option WritType
  | .cell (.atom tag) _ =>
    if tag = Mars.poke then some .poke
    else if tag = Mars.peek then some .peek
    else if tag = Mars.live then some .live
    else if tag = Mars.quiz then some .quiz
    else if tag = Mars.exit then some .exit
    else none
  | _ => none

/-- A plea that is well formed, and the kind of writ that it is the reply to. -/
inductive Plea : Noun → Option WritType → Prop
  | done (pro : Noun) : Plea (.cell (.atom Mars.poke) (.cell (.atom 0) pro)) (some .poke)
  | bail (pro : Noun) : Plea (.cell (.atom Mars.poke) (.cell (.atom 1) pro)) (some .poke)
  | peekDone (pro : Noun) : Plea (.cell (.atom Mars.peek) (.cell (.atom 0) pro)) (some .peek)
  | peekBail (pro : Noun) : Plea (.cell (.atom Mars.peek) (.cell (.atom 1) pro)) (some .peek)
  | live : Plea (.cell (.atom Mars.live) (.atom 0)) (some .live)
  | quiz (pro : Noun) : Plea (.cell (.atom Mars.quiz) pro) (some .quiz)
  | sync (pro : Noun) : Plea (.cell (.atom Mars.sync) pro) none

/-- The pleas of the list are replies to writs of these kinds, in order. -/
inductive Pleas : List Noun → List WritType → Prop
  | nil : Pleas [] []
  | cons {jar : Noun} {jars : List Noun} {t : Option WritType} {ts : List WritType} :
      Plea jar t → Pleas jars ts → Pleas (jar :: jars) (t.toList ++ ts)

theorem Pleas.append {xs ys : List Noun} {ts us : List WritType} (h1 : Pleas xs ts) (h2 : Pleas ys us) :
    Pleas (xs ++ ys) (ts ++ us) := by
  induction h1 with
  | nil => exact h2
  | cons hp _ ih =>
    rw [List.append_assoc]
    exact .cons hp ih

theorem Pleas.split {ys : List Noun} : ∀ {xs : List Noun} {ts : List WritType}, Pleas (xs ++ ys) ts →
    ∃ us vs, ts = us ++ vs ∧ Pleas xs us
  | [], ts, _ => ⟨[], ts, rfl, .nil⟩
  | _ :: xs, _, .cons hp h => by
    obtain ⟨us, vs, rfl, hus⟩ := Pleas.split h
    exact ⟨_, vs, (List.append_assoc _ _ _).symm, .cons hp hus⟩

theorem Pleas.one {jar : Noun} {t : Option WritType} (h : Plea jar t) : Pleas [jar] t.toList := by
  have h1 := Pleas.cons h .nil
  rwa [List.append_nil] at h1

theorem Pleas.syncs : ∀ {jars : List Noun}, (∀ jar ∈ jars, Plea jar none) → Pleas jars []
  | [], _ => .nil
  | jar :: _, h =>
    .cons (h jar List.mem_cons_self) (Pleas.syncs fun x hx => h x (List.mem_cons_of_mem jar hx))

/-! ### What the worker sends -/

/-- The answers that wait in the worker. -/
def loads (m : Mars) : List Noun := m.gif.map WriteAhead.Item.load

/-- Between two states the worker made these answers, and sent in order what it did not keep. -/
def Sends (m m' : Mars) (pros : List Noun) : Prop :=
  ∃ acts, m'.io = m.io ++ acts ∧ (sent acts).map WriteAhead.Item.load ++ loads m' = loads m ++ pros

theorem sent_append (as bs : List Mars.Act) : sent (as ++ bs) = sent as ++ sent bs := by
  induction as with
  | nil => rfl
  | cons a as ih => cases a <;> simp [sent, ih]

theorem Sends.news {m m' : Mars} {pros : List Noun} (h : Sends m m' pros) :
    news m m' ++ loads m' = loads m ++ pros := by
  obtain ⟨acts, hio, h⟩ := h
  rw [Duo.news, hio, List.drop_left]
  exact h

theorem Sends.trans {a b c : Mars} {xs t : List Noun} (h1 : Sends a b xs) (h2 : Sends b c t) :
    Sends a c (xs ++ t) := by
  obtain ⟨as, hio1, h1⟩ := h1
  obtain ⟨bs, hio2, h2⟩ := h2
  refine ⟨as ++ bs, by rw [hio2, hio1, List.append_assoc], ?_⟩
  rw [sent_append, List.map_append, List.append_assoc, h2, ← List.append_assoc, h1, List.append_assoc]

/-- A change of what is neither the queue nor the history. -/
theorem Sends.same {m n : Mars} (hgif : n.gif = m.gif) (hio : n.io = m.io) : Sends m n [] :=
  ⟨[], by rw [hio, List.append_nil], by rw [loads, hgif, loads, List.append_nil]; rfl⟩

theorem gift_sends (m : Mars) (pro : Noun) : Sends m (gift m pro) [pro] :=
  ⟨[.post ⟨none, pro⟩], rfl, by simp [sent, loads, gift]⟩

theorem drain_sends (m : Mars) : Sends m (drain m) [] := by
  refine ⟨_, rfl, ?_⟩
  have hsent : ∀ gs : List Gift, sent (gs.map (.send : Gift → Mars.Act)) = gs := by
    intro gs
    induction gs with
    | nil => rfl
    | cons g gs ih => rw [List.map_cons, sent, ih]
  rw [hsent, loads, ← List.map_append, List.append_nil]
  show List.map _ (m.gif.takeWhile _ ++ m.gif.dropWhile _) = _
  rw [List.takeWhile_append_dropWhile]
  rfl

theorem save_sends (m : Mars) : Sends m (u3mSave m) [] :=
  ⟨[.save m.dun], rfl, by rw [List.append_nil]; rfl⟩

/-- **A flush sends in order**, and makes at most the answer to a save. It ends the process only in
exit mode, and leaves that mode no other way. -/
theorem flush_sends (m : Mars) :
    (∃ m' pros, flush m = .ok m' ∧ Sends m m' pros ∧ (∀ pro ∈ pros, Plea pro none) ∧
      (m'.sat = m.sat ∨ m.sat = .save ∧ m'.sat = .work)) ∨
      ∃ m', flush m = .error (.exit, m') ∧ Sends m m' [] ∧ m.sat = .exit ∧ m'.sat = .exit := by
  unfold flush
  simp only
  split
  swap
  · exact .inl ⟨_, [], rfl, drain_sends m, nofun, .inl rfl⟩
  rename_i hc
  have hs : Sends m (u3mSave (drain m)) [] := (drain_sends m).trans (save_sends _)
  split
  · rename_i hsat
    refine .inl ⟨_, [.cell (.atom Mars.sync) (.cell (.atom m.dun) (.atom m.mug))], rfl, ?_, ?_, .inr ⟨hsat, rfl⟩⟩
    · have hset : Sends (u3mSave (drain m)) { u3mSave (drain m) with sav := m.dun } [] := .same rfl rfl
      have hgift := gift_sends { u3mSave (drain m) with sav := m.dun }
        (.cell (.atom Mars.sync) (.cell (.atom m.dun) (.atom m.mug)))
      have hwork := Sends.same (m := gift { u3mSave (drain m) with sav := m.dun }
        (.cell (.atom Mars.sync) (.cell (.atom m.dun) (.atom m.mug)))) (n := { gift { u3mSave (drain m) with
          sav := m.dun } (.cell (.atom Mars.sync) (.cell (.atom m.dun) (.atom m.mug))) with sat := .work }) rfl rfl
      exact (((hs.trans hset).trans hgift).trans hwork).trans (drain_sends _)
    · intro pro hpro
      rw [List.mem_singleton.mp hpro]
      exact .sync _
  · rename_i hsave
    have hexit : m.sat = .exit := by
      cases hsat : m.sat with
      | work => exact absurd hsat hc.1
      | save => exact absurd hsat hsave
      | exit => rfl
    refine .inr ⟨_, rfl, hs.trans (t := []) ⟨[.exit], rfl, ?_⟩, hexit, hexit⟩
    rw [List.append_nil]
    rfl

/-- A poke is answered, whether it is accepted or not. -/
theorem workPoke_sends {K : Kernel} {env : Env} {m m' : Mars} {ovo : Noun} (h : workPoke K env m ovo = .ok m') :
    ∃ pro, Plea pro (some .poke) ∧ Sends m m' [pro] ∧ m'.sat = m.sat := by
  unfold workPoke at h
  cases ha : attempt K env m.arv (.cell env.now ovo) with
  | none => simp [ha] at h
  | some r =>
    obtain ⟨b, job, pro, arv⟩ := r
    cases b with
    | true =>
      simp only [ha] at h
      split at h
      · cases h
      rename_i m1 pro1 hf
      obtain ⟨sac, mas, fag, rfl⟩ := sureFeck_frame hf
      unfold fact at h
      simp only at h
      split at h
      · cases h
      simp only [Except.bind, sure] at h
      split at h
      · cases h
        refine ⟨_, .done pro1, ⟨_, rfl, ?_⟩, rfl⟩
        simp [sent, loads]
      · cases h
    | false =>
      simp only [ha, sure] at h
      split at h
      · obtain rfl := Except.ok.inj h
        exact ⟨_, .bail pro, (Sends.same rfl rfl).trans (gift_sends { m with sen := m.dun, arv := arv } _), rfl⟩
      · cases h

theorem peekPro_plea (K : Kernel) (env : Env) (m : Mars) (sam : Noun) :
    Plea (.cell (.atom Mars.peek) (peekPro K env m sam)) (some .peek) := by
  unfold peekPro
  split
  · exact .peekBail _
  · exact .peekDone _

/-- **What a task that is performed does**: an exit and a save change the mode, and any other is
answered by a plea of its kind. -/
theorem work_sends {K : Kernel} {env : Env} {m m' : Mars} {jar : Noun} (h : work K env m jar = .ok m') :
    (msgTyp jar = some .exit ∧ m' = { m with sat := .exit }) ∨ (msgTyp jar = none ∧ m' = { m with sat := .save }) ∨
      ∃ t pro, msgTyp jar = some t ∧ t ≠ .exit ∧ Plea pro (some t) ∧ Sends m m' [pro] ∧ m'.sat = m.sat := by
  unfold work at h
  split at h
  swap
  · cases h
  rename_i tag dat
  unfold msgTyp
  simp only
  by_cases hpoke : tag = Mars.poke
  · rw [if_pos hpoke] at h ⊢
    split at h
    · split at h
      · obtain ⟨pro, hp, hs, hsat⟩ := workPoke_sends h
        exact .inr (.inr ⟨_, pro, rfl, by decide, hp, hs, hsat⟩)
      · cases h
    · cases h
  rw [if_neg hpoke] at h ⊢
  by_cases hpeek : tag = Mars.peek
  · rw [if_pos hpeek] at h ⊢
    split at h
    · split at h
      · obtain rfl := Except.ok.inj h
        exact .inr (.inr ⟨_, _, rfl, by decide, peekPro_plea K env m _, gift_sends _ _, rfl⟩)
      · cases h
    · cases h
  rw [if_neg hpeek] at h ⊢
  by_cases hsync : tag = Mars.sync
  · rw [if_pos hsync] at h
    split at h
    · obtain rfl := Except.ok.inj h
      refine .inr (.inl ⟨?_, rfl⟩)
      rw [hsync]
      decide
    · cases h
  rw [if_neg hsync] at h
  by_cases hlive : tag = Mars.live
  · rw [if_pos hlive] at h ⊢
    split at h
    · obtain rfl := Except.ok.inj h
      exact .inr (.inr ⟨_, _, rfl, by decide, .live, gift_sends _ _, rfl⟩)
    · cases h
  rw [if_neg hlive] at h ⊢
  by_cases hquiz : tag = Mars.quiz
  · rw [if_pos hquiz] at h ⊢
    unfold workQuiz at h
    refine .inr (.inr ?_)
    split at h
    · split at h
      · split at h
        · obtain rfl := Except.ok.inj h
          exact ⟨_, _, rfl, by decide, .quiz _, gift_sends _ _, rfl⟩
        · cases h
      split at h
      · obtain rfl := Except.ok.inj h
        exact ⟨_, _, rfl, by decide, .quiz _, gift_sends _ _, rfl⟩
      · cases h
    · cases h
  rw [if_neg hquiz] at h ⊢
  by_cases hexit : tag = Mars.exit
  · rw [if_pos hexit] at h ⊢
    obtain rfl := Except.ok.inj h
    exact .inl ⟨rfl, rfl⟩
  · rw [if_neg hexit] at h
    cases h

/-! ### In step -/

/-- What the controller waits for beyond the pleas: an exit that the worker has taken, and the tasks
on their way. -/
def rest (s : Duo) : List WritType := (if s.mar.sat = .exit then [.exit] else []) ++ s.inn.filterMap msgTyp

/-- The answers that are still to be sent. -/
def held (s : Duo) : List Noun := if s.fate = none then loads s.mar else []

/-- **The two processes are in step**: the controller has not given up; what is on its way back is
the replies to the writs at the head of the queue, in order and of their kinds; as long as the worker
has not failed, what is behind these is what it has not answered; every ovum was answered once or
is in the queue, in order; and the spinner spins when a poke is in the queue. -/
structure InStep (s : Duo) : Prop where
  down : s.down = none
  queue : ∃ ts us, Pleas (s.out ++ s.held) ts ∧ s.god.ext.map Writ.typ = ts ++ us ∧
    (s.fate = none ∨ s.fate = some .exit → us = s.rest)
  eggs : s.god.asked = s.god.told.map Prod.fst ++ s.god.ext.filterMap Writ.egg
  pin : s.god.pin = true ↔ WritType.poke ∈ s.god.ext.map Writ.typ

/-- The worker's timer fires while an exit waits for the log, and there are events to save. -/
def Forgets (s : Duo) : Move → Prop
  | .timer => s.mar.sat = .exit ∧ s.mar.sav < s.mar.dun
  | _ => False

/-- The invariant of a run: in step, and a worker that runs is between two inputs. -/
structure Inv (s : Duo) : Prop extends InStep s where
  mar : s.fate = none → Mars.Ok s.mar ∧ Mars.Waiting s.mar

/-! ### The controller's moves -/

theorem task_typ (god : Lord) (t : Task) : (god.task t).1.ext.map Writ.typ =
    god.ext.map Writ.typ ++ (msgTyp (god.task t).2).toList := by
  cases t with
  | save => exact (List.append_nil _).symm
  | work egg mil job => exact List.map_append
  | peek sam => exact List.map_append
  | meld => exact List.map_append
  | pack => exact List.map_append
  | quiz qiz => exact List.map_append
  | exit => exact List.map_append

theorem task_eggs {god : Lord} (t : Task)
    (h : god.asked = god.told.map Prod.fst ++ god.ext.filterMap Writ.egg) :
    (god.task t).1.asked = (god.task t).1.told.map Prod.fst ++ (god.task t).1.ext.filterMap Writ.egg := by
  cases t with
  | work egg mil job =>
    show god.asked ++ [egg] = god.told.map Prod.fst ++ (god.ext ++ [_]).filterMap Writ.egg
    rw [h, List.filterMap_append, List.append_assoc]
    rfl
  | save => exact h
  | peek | meld | pack | quiz | exit =>
    show god.asked = god.told.map Prod.fst ++ (god.ext ++ [_]).filterMap Writ.egg
    rw [List.filterMap_append, h]
    exact congrArg _ (List.append_nil _).symm

theorem task_pin {god : Lord} (t : Task) (h : god.pin = true ↔ WritType.poke ∈ god.ext.map Writ.typ) :
    (god.task t).1.pin = true ↔ WritType.poke ∈ (god.task t).1.ext.map Writ.typ := by
  rw [task_typ, List.mem_append]
  cases t with
  | work egg mil job => exact iff_of_true rfl (.inr List.mem_cons_self)
  | save => exact h.trans (or_iff_left (List.not_mem_nil)).symm
  | peek sam => exact h.trans (or_iff_left (show WritType.poke ∉ [WritType.peek] by decide)).symm
  | meld => exact h.trans (or_iff_left (show WritType.poke ∉ [WritType.live] by decide)).symm
  | pack => exact h.trans (or_iff_left (show WritType.poke ∉ [WritType.live] by decide)).symm
  | quiz qiz => exact h.trans (or_iff_left (show WritType.poke ∉ [WritType.quiz] by decide)).symm
  | exit => exact h.trans (or_iff_left (show WritType.poke ∉ [WritType.exit] by decide)).symm

theorem Inv.task {s : Duo} (h : Inv s) (t : Task) :
    Inv { s with god := (s.god.task t).1, inn := s.inn ++ [(s.god.task t).2] } := by
  obtain ⟨ts, us, hp, hq, hr⟩ := h.queue
  refine ⟨⟨h.down, ⟨ts, us ++ (msgTyp (s.god.task t).2).toList, hp, ?_, fun hf => ?_⟩, task_eggs t h.eggs,
    task_pin t h.pin⟩, h.mar⟩
  · rw [task_typ, hq, List.append_assoc]
  · rw [hr hf, rest, rest, List.filterMap_append, List.append_assoc]
    cases hm : msgTyp (s.god.task t).2 <;> simp [hm]

/-- **The head-of-queue check**: a plea that is the reply to the writ at the head is taken, with its
writ, and the spinner is as before for the rest. -/
theorem onPlea_head {god : Lord} {jar : Noun} {t : WritType} {us : List WritType} (hj : Plea jar (some t))
    (hq : god.ext.map Writ.typ = t :: us) (heggs : god.asked = god.told.map Prod.fst ++ god.ext.filterMap Writ.egg)
    (hpin : god.pin = true ↔ WritType.poke ∈ god.ext.map Writ.typ) :
    ∃ god', god.onPlea jar = .ok god' ∧ god'.ext.map Writ.typ = us ∧
      god'.asked = god'.told.map Prod.fst ++ god'.ext.filterMap Writ.egg ∧
      (god'.pin = true ↔ WritType.poke ∈ god'.ext.map Writ.typ) := by
  obtain ⟨ext, pin, eve, asked, told⟩ := god
  obtain ⟨wit, ext, rfl, ht, rfl⟩ := List.map_eq_cons_iff.mp hq
  -- a reply to anything but a poke leaves the spinner and the ova alone
  have hother (hne : t ≠ .poke) : asked = told.map Prod.fst ++ ext.filterMap Writ.egg ∧
      (pin = true ↔ WritType.poke ∈ ext.map Writ.typ) := by
    constructor
    · rw [show asked = _ from heggs]
      cases wit with
      | poke egg job => exact absurd ht.symm hne
      | peek | live | quiz | exit => rfl
    · refine hpin.trans ?_
      rw [List.map_cons, ht, List.mem_cons]
      exact or_iff_right fun h => hne h.symm
  have hspin : (ext.any fun wit => decide (wit.typ = .poke)) = true ↔ WritType.poke ∈ ext.map Writ.typ := by
    rw [List.any_eq_true, List.mem_map]
    exact exists_congr fun w => and_congr_right fun _ => decide_eq_true_iff
  have hpoke (b : Bool) (egg : ℕ) (job : Noun) (hw : wit = .poke egg job) :
      asked = (told ++ [(egg, b)]).map Prod.fst ++ ext.filterMap Writ.egg := by
    rw [show asked = _ from heggs, hw, List.map_append, List.append_assoc]
    rfl
  have hegg (hpk : wit.typ = .poke) : ∃ egg job, wit = .poke egg job := by
    cases wit with
    | poke egg job => exact ⟨egg, job, rfl⟩
    | peek | live | quiz | exit => cases hpk
  have hup (hpk : wit.typ = .poke) : pin = true := hpin.mpr (by rw [List.map_cons, hpk]; exact List.mem_cons_self)
  cases hj with
  | done pro =>
    obtain ⟨egg, job, rfl⟩ := hegg ht
    obtain rfl := hup rfl
    exact ⟨⟨ext, ext.any fun wit => wit.typ = .poke, eve + 1, asked, told ++ [(egg, true)]⟩, rfl, rfl,
      hpoke true egg job rfl, hspin⟩
  | bail pro =>
    obtain ⟨egg, job, rfl⟩ := hegg ht
    obtain rfl := hup rfl
    exact ⟨⟨ext, ext.any fun wit => wit.typ = .poke, eve, asked, told ++ [(egg, false)]⟩, rfl, rfl,
      hpoke false egg job rfl, hspin⟩
  | peekDone pro | peekBail pro | live | quiz pro =>
    refine ⟨⟨ext, pin, eve, asked, told⟩, ?_, rfl, hother (by decide)⟩
    simp [Lord.onPlea, Lord.pleaPeek, Lord.pleaLive, Lord.pleaQuiz, Lord.writNeed, ht, Except.bind, Except.map,
      Mars.poke, Mars.peek, Mars.sync, Mars.live, Mars.quiz]

/-- The controller hears the next plea. -/
theorem Inv.plea {s : Duo} {jar : Noun} {out : List Noun} (h : Inv s) (ho : s.out = jar :: out) :
    ∃ god, s.god.onPlea jar = .ok god ∧ Inv { s with god := god, out := out } := by
  obtain ⟨ts, us, hp, hq, hr⟩ := h.queue
  rw [ho, List.cons_append] at hp
  cases hp with
  | @cons _ _ t ts hj hp =>
    cases t with
    | none =>
      refine ⟨s.god, ?_, ⟨h.down, ⟨ts, us, hp, hq, hr⟩, h.eggs, h.pin⟩, h.mar⟩
      cases hj with
      | sync pro => rfl
    | some t =>
      obtain ⟨god, hon, hext, heggs, hpin⟩ := onPlea_head hj hq h.eggs h.pin
      exact ⟨god, hon, ⟨h.down, ⟨ts, us, hp, hext, hr⟩, heggs, hpin⟩, h.mar⟩

/-! ### The worker's moves -/

/-- A step of the worker that returned: it made the answers to what it took. -/
theorem Inv.worked_ok {s : Duo} {inn : List Noun} {m : Mars} {pros : List Noun} {vs : List WritType} (h : Inv s)
    (hf : s.fate = none) (hs : Sends s.mar m pros) (hv : Pleas pros vs)
    (hr : s.rest = vs ++ (if m.sat = .exit then [.exit] else []) ++ inn.filterMap msgTyp)
    (hm : Mars.Ok m ∧ Mars.Waiting m) : Inv (s.worked inn (.ok m)) := by
  obtain ⟨ts, us, hp, hq, hu⟩ := h.queue
  refine ⟨⟨h.down, ⟨ts ++ vs, _, ?_, ?_, fun _ => rfl⟩, h.eggs, h.pin⟩, fun _ => hm⟩
  · show Pleas ((s.out ++ news s.mar m) ++ held (s.worked inn (.ok m))) (ts ++ vs)
    have hheld : held (s.worked inn (.ok m)) = loads m := if_pos hf
    rw [held, if_pos hf] at hp
    rw [hheld, List.append_assoc, hs.news, ← List.append_assoc]
    exact hp.append hv
  · show s.god.ext.map Writ.typ =
      (ts ++ vs) ++ ((if m.sat = .exit then [.exit] else []) ++ inn.filterMap msgTyp)
    rw [hq, hu (.inl hf), hr]
    simp only [List.append_assoc]

/-- A step of the worker that ended the process as asked, or failed. -/
theorem Inv.worked_error {s : Duo} {inn : List Noun} {m : Mars} {f : Fate} {pros : List Noun} (h : Inv s)
    (hf : s.fate = none) (hs : Sends s.mar m pros) (hpros : ∀ pro ∈ pros, Plea pro none)
    (he : f = .exit → m.gif = [] ∧ (s.rest = [.exit] ++ inn.filterMap msgTyp ∧ m.sat = .exit)) :
    Inv (s.worked inn (.error (f, m))) := by
  obtain ⟨ts, us, hp, hq, hu⟩ := h.queue
  rw [held, if_pos hf] at hp
  have hall : Pleas ((s.out ++ news s.mar m) ++ loads m) ts := by
    have happ := hp.append (Pleas.syncs hpros)
    rw [List.append_nil, List.append_assoc, ← hs.news, ← List.append_assoc] at happ
    exact happ
  have hheld : held (s.worked inn (.error (f, m))) = [] := if_neg nofun
  obtain ⟨xs, ys, hxy, hx⟩ := hall.split
  refine ⟨⟨h.down, ?_, h.eggs, h.pin⟩, nofun⟩
  by_cases hfe : f = .exit
  · obtain ⟨hg, hr, hsat⟩ := he hfe
    refine ⟨ts, us, ?_, hq, fun _ => ?_⟩
    · rw [hheld]
      rwa [loads, hg] at hall
    · rw [hu (.inl hf), hr, rest]
      simp only [worked, hsat, if_true]
  · refine ⟨xs, ys ++ us, ?_, ?_, fun hor => ?_⟩
    · rw [hheld, List.append_nil]
      exact hx
    · show s.god.ext.map Writ.typ = _
      rw [hq, hxy, List.append_assoc]
    · rcases hor with hor | hor
      · cases hor
      · exact absurd (Option.some.inj hor) hfe

/-- What the worker does after it took a task, or without one: it flushes. -/
theorem Inv.flushed {s : Duo} {inn : List Noun} {m : Mars} {pros : List Noun} {vs : List WritType}
    (h : Inv s) (hf : s.fate = none) (hs : Sends s.mar m pros) (hv : Pleas pros vs)
    (hr : s.rest = vs ++ (if m.sat = .exit then [.exit] else []) ++ inn.filterMap msgTyp)
      (hsat : m.sat = .exit → pros = [])
    (hm : ∀ m', flush m = .ok m' → Mars.Ok m' ∧ Mars.Waiting m')
    (he : ∀ m', flush m = .error (.exit, m') → m'.gif = []) : Inv (s.worked inn (flush m)) := by
  rcases flush_sends m with ⟨m', sync, hfl, hs', hsync, hmode⟩ | ⟨m', hfl, hs', hx, hx'⟩
  · have hpleas : Pleas (pros ++ sync) vs := by
      have happ := hv.append (Pleas.syncs hsync)
      rwa [List.append_nil] at happ
    rw [hfl]
    refine h.worked_ok hf (hs.trans hs') hpleas ?_ (hm m' hfl)
    rcases hmode with hmode | ⟨hsave, hwork⟩
    · rw [hmode, hr]
    · rw [hr, hsave, hwork]
      rfl
  · rw [hfl]
    obtain rfl := hsat hx
    cases hv
    refine h.worked_error hf (hs.trans hs') nofun fun _ => ⟨he m' hfl, ?_, hx'⟩
    rw [hr, hx]
    rfl

/-- The invariant of the worker, after a step that returned. -/
theorem step_mar {K : Kernel} {m m' : Mars} {i : Input} (hm : Mars.Ok m ∧ Mars.Waiting m) (h : step K m i = .ok m') :
    Mars.Ok m' ∧ Mars.Waiting m' := by
  rcases step_cases K hm.1 hm.2 i with ⟨x, hx, hst, _⟩ | ⟨f, x, hx, _⟩
  · obtain rfl := Except.ok.inj (h.symm.trans hx)
    exact ⟨hst.ok, hst.waiting⟩
  · cases h.symm.trans hx

/-- A worker that ends as asked has sent everything. -/
theorem step_exit {K : Kernel} {m m' : Mars} {i : Input} (hm : Mars.Ok m ∧ Mars.Waiting m)
    (h : step K m i = .error (.exit, m')) : m'.gif = [] := by
  rcases step_cases K hm.1 hm.2 i with ⟨x, hx, _⟩ | ⟨f, x, hx, _, hex, _⟩
  · cases h.symm.trans hx
  · obtain ⟨rfl, rfl⟩ := Prod.mk.inj (Except.error.inj (h.symm.trans hx))
    exact (hex rfl).1

/-- The worker is woken by its timer, and does not forget an exit. -/
theorem Inv.timer {s : Duo} (K : Kernel) (h : Inv s) (hf : s.fate = none) (hn : ¬ Forgets s .timer) :
    Inv (s.worked s.inn (step K s.mar .timer)) := by
  have hsame : Sends s.mar (if s.mar.sav < s.mar.dun then { s.mar with sat := .save } else s.mar) [] := by
    split
    · exact .same rfl rfl
    · exact .same rfl rfl
  refine h.flushed hf hsame .nil ?_ (fun _ => rfl) (fun m' hm' => step_mar (K := K) (i := .timer) (h.mar hf) hm')
    fun m' hm' => step_exit (K := K) (i := .timer) (h.mar hf) hm'
  by_cases hsav : s.mar.sav < s.mar.dun
  · have hne : s.mar.sat ≠ .exit := fun he => hn ⟨he, hsav⟩
    rw [if_pos hsav, rest, if_neg hne]
    rfl
  · rw [if_neg hsav]
    rfl

/-- The thread and the end of the commit change the log, and the queue by a flush only. -/
theorem Inv.logged {s : Duo} {K : Kernel} {i : Input} (h : Inv s) (hf : s.fate = none)
    (hok : ∀ m', step K s.mar i = .ok m' → ∃ pros, Sends s.mar m' pros ∧ (∀ pro ∈ pros, Plea pro none) ∧
      (m'.sat = s.mar.sat ∨ s.mar.sat = .save ∧ m'.sat = .work))
    (herr : ∀ f m', step K s.mar i = .error (f, m') → ∃ pros, Sends s.mar m' pros ∧ (∀ pro ∈ pros, Plea pro none) ∧
      (f = .exit → s.mar.sat = .exit ∧ m'.sat = .exit)) : Inv (s.worked s.inn (step K s.mar i)) := by
  cases hi : step K s.mar i with
  | ok m' =>
    obtain ⟨pros, hs, hpros, hmode⟩ := hok m' hi
    refine h.worked_ok hf hs (Pleas.syncs hpros) ?_ (step_mar (h.mar hf) hi)
    rcases hmode with hmode | ⟨hsave, hwork⟩
    · rw [hmode]
      rfl
    · rw [rest, hsave, hwork]
      rfl
  | error e =>
    obtain ⟨f, m'⟩ := e
    obtain ⟨pros, hs, hpros, hexit⟩ := herr f m' hi
    refine h.worked_error hf hs hpros fun hfe => ?_
    obtain ⟨hx, hx'⟩ := hexit hfe
    rw [hfe] at hi
    exact ⟨step_exit (h.mar hf) hi, by rw [rest, hx]; rfl, hx'⟩

theorem Inv.write {s : Duo} (K : Kernel) (h : Inv s) (hf : s.fate = none) (ok : Bool) :
    Inv (s.worked s.inn (step K s.mar (.write ok))) := by
  have hs : ∃ m', step K s.mar (.write ok) = .ok m' ∧ Sends s.mar m' [] ∧ m'.sat = s.mar.sat := by
    unfold step
    simp only
    split
    · exact ⟨_, rfl, .same rfl rfl, rfl⟩
    · exact ⟨_, rfl, .same rfl rfl, rfl⟩
  obtain ⟨m1, hm1, hsend, hsat⟩ := hs
  refine h.logged hf (fun m' hm' => ?_) fun f m' hm' => ?_
  · obtain rfl := Except.ok.inj (hm1.symm.trans hm')
    exact ⟨[], hsend, nofun, .inl hsat⟩
  · cases hm1.symm.trans hm'

theorem after_sends (m : Mars) :
    (∃ m' pros, after m = .ok m' ∧ Sends m m' pros ∧ (∀ pro ∈ pros, Plea pro none) ∧
      (m'.sat = m.sat ∨ m.sat = .save ∧ m'.sat = .work)) ∨
      ∃ f m' pros, after m = .error (f, m') ∧ Sends m m' pros ∧ (∀ pro ∈ pros, Plea pro none) ∧
        (f = .exit → m.sat = .exit ∧ m'.sat = .exit) := by
  obtain ⟨m1, hm1, hdone, hsat⟩ : ∃ m1, m1 = { m with
      log := m.log.done
      io := m.io ++ if m.log.ret then [.commit (m.log.dun + m.log.len)] else [] } ∧ Sends m m1 [] ∧
        m1.sat = m.sat := by
    refine ⟨_, rfl, ⟨_, rfl, ?_⟩, rfl⟩
    rw [List.append_nil]
    split
    · rfl
    · rfl
  unfold after
  simp only [← hm1]
  split
  swap
  · refine .inr ⟨_, _, [], rfl, hdone, nofun, nofun⟩
  rcases flush_sends m1 with ⟨m2, pros, hfl, hs, hpros, hmode⟩ | ⟨m2, hfl, hs, hx, hx'⟩
  · rw [hfl]
    have hsends := hdone.trans hs
    rw [hsat] at hmode
    cases hlog : m2.log.free.bind Disk.commit with
    | none =>
      refine .inr ⟨.fault, m2, pros, ?_, hsends, hpros, nofun⟩
      simp only [Except.bind, hlog]
    | some log =>
      refine .inl ⟨{ m2 with log := log }, pros, ?_, ?_, hpros, hmode⟩
      · simp only [Except.bind, hlog]
      · have hlast := hsends.trans (Sends.same (m := m2) (n := { m2 with log := log }) rfl rfl)
        rwa [List.append_nil] at hlast
  · rw [hfl]
    exact .inr ⟨.exit, m2, [], rfl, hdone.trans hs, nofun, fun _ => ⟨hsat ▸ hx, hx'⟩⟩

theorem Inv.after {s : Duo} (K : Kernel) (h : Inv s) (hf : s.fate = none) :
    Inv (s.worked s.inn (step K s.mar .after)) := by
  by_cases hc : s.mar.log.ted = true ∧ s.mar.log.ran = true
  swap
  · have hidle : step K s.mar .after = .ok s.mar := by simp only [step, if_neg hc]
    refine h.logged hf (fun m' hm' => ?_) fun f m' hm' => ?_
    · obtain rfl := Except.ok.inj (hidle.symm.trans hm')
      exact ⟨[], .same rfl rfl, (by intro p hp; cases hp), .inl rfl⟩
    · cases hidle.symm.trans hm'
  have hs : step K s.mar .after = Mars.after s.mar := by simp only [step, if_pos hc]
  refine h.logged hf (fun m' hm' => ?_) fun f m' hm' => ?_
  · rcases after_sends s.mar with ⟨m1, pros, h1, hrest⟩ | ⟨f, m1, pros, h1, _⟩
    · obtain rfl := Except.ok.inj (h1.symm.trans (hs.symm.trans hm'))
      exact ⟨pros, hrest⟩
    · cases h1.symm.trans (hs.symm.trans hm')
  · rcases after_sends s.mar with ⟨m1, pros, h1, _⟩ | ⟨f', m1, pros, h1, hrest⟩
    · cases h1.symm.trans (hs.symm.trans hm')
    · obtain ⟨rfl, rfl⟩ := Prod.mk.inj (Except.error.inj (h1.symm.trans (hs.symm.trans hm')))
      exact ⟨pros, hrest⟩

/-- A task that ends the process sends nothing. -/
theorem work_broken {K : Kernel} {env : Env} {m m' : Mars} {jar : Noun} {f : Fate} (hm : Mars.Ok m)
    (h : work K env m jar = .error (f, m')) : m'.gif = m.gif ∧ m'.io = m.io ∧ f ≠ .exit := by
  rcases work_cases K env m jar with ⟨ovo, -, hw⟩ | ⟨sat, hw⟩ | ⟨pro, hw⟩ | hw
  · have hb := workPoke_error hm.sen hm.dun hm.eve (hw.symm.trans h)
    exact ⟨hb.gif, hb.io, hb.ne_exit⟩
  · cases hw.symm.trans h
  · cases hw.symm.trans h
  · obtain ⟨rfl, rfl⟩ := Prod.mk.inj (Except.error.inj (hw.symm.trans h))
    exact ⟨rfl, rfl, nofun⟩

/-- The worker looks at the next task: it takes it in working mode, and else only flushes. -/
theorem Inv.kick {s : Duo} (K : Kernel) (env : Env) {jar : Noun} {inn : List Noun} (h : Inv s) (hf : s.fate = none)
    (hi : s.inn = jar :: inn) :
    Inv (s.worked (if s.mar.sat = .work then inn else s.inn) (step K s.mar (.kick env (some jar)))) := by
  by_cases hw : s.mar.sat = .work
  swap
  · have hfl : step K s.mar (.kick env (some jar)) = flush s.mar := by
      simp only [step, Mars.kick, if_neg hw]
      cases flush s.mar <;> rfl
    rw [if_neg hw]
    have hinv := @Inv.flushed s s.inn _ _ _ h hf (Sends.same (m := s.mar) rfl rfl) .nil (List.nil_append _).symm
      (fun _ => rfl) (fun m' hm' => step_mar (h.mar hf) (hfl.trans hm')) fun m' hm' => step_exit (h.mar hf)
        (hfl.trans hm')
    rwa [← hfl] at hinv
  rw [if_pos hw]
  cases hwork : work K env s.mar jar with
  | error e =>
    obtain ⟨f, m'⟩ := e
    have herr : step K s.mar (.kick env (some jar)) = .error (f, m') := by
      simp only [step, Mars.kick, if_pos hw, hwork, Except.map, Except.bind]
    obtain ⟨hgif, hio, hne⟩ := work_broken (h.mar hf).1 hwork
    rw [herr]
    exact h.worked_error hf (.same hgif hio) (by intro p hp; cases hp) fun hx => absurd hx hne
  | ok m1 =>
    have hfl : step K s.mar (.kick env (some jar)) = flush (post m1) := by
      simp only [step, Mars.kick, if_pos hw, hwork, Except.map, Except.bind]
      cases flush (post m1) <;> rfl
    have hmar (m' : Mars) (hm' : flush (post m1) = .ok m') := step_mar (h.mar hf) (hfl.trans hm')
    have hex (m' : Mars) (hm' : flush (post m1) = .error (.exit, m')) := step_exit (h.mar hf) (hfl.trans hm')
    have hrest : s.rest = (msgTyp jar).toList ++ inn.filterMap msgTyp := by
      rw [rest, hw, hi]
      cases ht : msgTyp jar <;> simp [ht]
    rw [hfl]
    have hpost (pros : List Noun) (hs : Sends s.mar m1 pros) : Sends s.mar (post m1) pros := by
      have hlast := hs.trans (Sends.same (m := m1) (n := post m1) rfl rfl)
      rwa [List.append_nil] at hlast
    rcases work_sends hwork with ⟨ht, rfl⟩ | ⟨ht, rfl⟩ | ⟨t, pro, ht, hne, hp, hs, hsat⟩
    · refine h.flushed hf (hpost [] (.same rfl rfl)) .nil ?_ (fun _ => rfl) hmar hex
      rw [hrest, ht]
      rfl
    · refine h.flushed hf (hpost [] (.same rfl rfl)) .nil ?_ (fun _ => rfl) hmar hex
      rw [hrest, ht]
      rfl
    · have hmode : (post m1).sat = .work := hsat.trans hw
      refine h.flushed hf (hpost _ hs) (Pleas.one hp) ?_ (fun hx => ?_) hmar hex
      · rw [hrest, ht, hmode]
        rfl
      · rw [hmode] at hx
        cases hx

/-! ### Whole runs -/

/-- **A move keeps the two processes in step**, unless it makes the worker forget an exit. -/
theorem Inv.turn {K : Kernel} {s s' : Duo} {a : Move} (h : Inv s) (hn : ¬ Forgets s a) (ht : turn K s a = some s') :
    Inv s' := by
  have hup : ¬ s.down.isSome = true := by
    rw [h.down]
    exact Bool.false_ne_true
  unfold Duo.turn at ht
  rw [if_neg hup] at ht
  cases a with
  | task t =>
    obtain rfl := Option.some.inj ht
    exact h.task t
  | plea =>
    cases ho : s.out with
    | nil =>
      simp only [ho] at ht
      cases ht
    | cons jar out =>
      obtain ⟨god, hon, hinv⟩ := h.plea ho
      simp only [ho, hon] at ht
      obtain rfl := Option.some.inj ht
      exact hinv
  | kick env =>
    cases hf : s.fate with
    | some f =>
      simp only [hf] at ht
      cases ht
    | none =>
      cases hi : s.inn with
      | nil =>
        simp only [hf, hi] at ht
        cases ht
      | cons jar inn =>
        have hinv := h.kick K env hf hi
        simp only [hf, hi] at ht
        obtain rfl := Option.some.inj ht
        rwa [hi] at hinv
  | timer =>
    by_cases hf : s.fate = none
    · simp only [if_pos hf] at ht
      obtain rfl := Option.some.inj ht
      exact h.timer K hf hn
    · simp only [if_neg hf] at ht
      cases ht
  | write ok =>
    by_cases hf : s.fate = none
    · simp only [if_pos hf] at ht
      obtain rfl := Option.some.inj ht
      exact h.write K hf ok
    · simp only [if_neg hf] at ht
      cases ht
  | after =>
    by_cases hf : s.fate = none
    · simp only [if_pos hf] at ht
      obtain rfl := Option.some.inj ht
      exact h.after K hf
    · simp only [if_neg hf] at ht
      cases ht

theorem inv_new {m : Mars} (hm : Mars.Started m) (hw : m.sat = .work) : Inv (new m) := by
  refine ⟨⟨rfl, ⟨[], [], ?_, rfl, fun _ => ?_⟩, rfl, iff_of_false nofun nofun⟩, fun _ => ⟨hm.ok, fun g hg => ?_⟩⟩
  · show Pleas (m.gif.map WriteAhead.Item.load) []
    rw [hm.gif]
    exact .nil
  · show [] = (if m.sat = .exit then _ else _) ++ []
    rw [hw]
    rfl
  · rw [show (new m).mar.gif = [] from hm.gif] at hg
    cases hg

/-- **The controller and the worker stay in step**: whatever the controller asks for and whenever the
worker works, commits and answers, the pleas are the replies to the writs in order, and each ovum is
done or bailed once, as long as the timer does not fire on unsaved events between an exit that the
worker has taken and the end of the process. -/
theorem inStep_of_run (K : Kernel) {m : Mars} (hm : Mars.Started m) (hw : m.sat = .work) {moves : List Move} {s : Duo}
    (hc : Replay.Along (turn K) (fun s a => ¬ Forgets s a) (new m) moves)
    (hs : Replay.follow (turn K) (new m) moves = some s) : InStep s :=
  (hc.follow_inv Inv (fun _ _ _ h hn ht => h.turn hn ht) (inv_new hm hw) hs).toInStep

/-- Nothing goes wrong, at some time. -/
def someEnv : Env := ⟨.atom 0, none, none, 0, 0, none, 0, 0⟩

/-- An event and a read, each answered, in the order of the tasks though the read was done before the
event was in the log. -/
def workRun : List Move :=
  [.task (.work 1 0 (.atom 0)), .task (.peek (.atom 0)), .kick someEnv, .kick someEnv, .write true, .after, .plea,
    .plea]

/-- `inStep_of_run` at an event and a read. -/
theorem workRun_inStep : ∃ s, Replay.follow (turn calm) (new fresh) workRun = some s ∧ s.god.told = [(1, true)] ∧
    InStep s := by
  have hrun : ∃ s, Replay.follow (turn calm) (new fresh) workRun = some s ∧ s.god.told = [(1, true)] := ⟨_, rfl, rfl⟩
  obtain ⟨s, hs, ht⟩ := hrun
  refine ⟨s, hs, ht, inStep_of_run calm fresh_started rfl ?_ hs⟩
  exact ⟨id, fun _ _ => ⟨id, fun _ _ => ⟨id, fun _ _ => ⟨id, fun _ _ => ⟨id, fun _ _ => ⟨id, fun _ _ => ⟨id,
    fun _ _ => ⟨id, fun _ _ => trivial⟩⟩⟩⟩⟩⟩⟩⟩

/-- An exit behind an event that is not in the log yet, then the timer, and a read behind the exit. -/
def timerRun : List Move :=
  [.task (.work 1 0 (.atom 0)), .kick someEnv, .task .exit, .kick someEnv, .timer, .write true, .after,
    .task (.peek (.atom 0)), .kick someEnv, .plea, .plea, .plea]

/-- The worker saves in place of the exit and goes on: the reply to the read finds the writ of the exit
at the head of the queue, and the controller bails. -/
theorem timerRun_bails : Mars.Started fresh ∧ fresh.sat = .work ∧
    ∃ s, Replay.follow (turn calm) (new fresh) timerRun = some s ∧ s.down = some .bail ∧ ¬ InStep s :=
  ⟨fresh_started, rfl, _, rfl, rfl, fun h => nomatch h.down⟩

end Duo
end Ursockets
