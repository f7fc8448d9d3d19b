/-
# Runs of the event log

Events are planned one at a time or as a list, commits complete with success or failure, or are
cancelled with their thread, and the log is synced, in any order. What the thread of a
commit writes is seen when it completes, as the main thread does not look before.

Events are logged whatever the sizes of the batches are. But the size of a batch is counted in an
array of a hundred words at the size as its index, and a sync cuts one batch of a hundred events at most, so
the log is sound in just the runs where fewer events than that wait when a batch is cut.

Key definitions: `DiskOp`, `Disk.op`, `Disk.cuts`, `Recorded`, `Sound`, `Small`.
Key theorem: `commits_of_run`.
-/
import Ursockets.Disk
import Ursockets.Lib.Replay

namespace Ursockets
namespace Disk

/-! ### Operations -/

/-- What happens to the log. -/
inductive DiskOp where
  | plan (tac : Feat)
  | planList (lit : List Noun)
  | complete (ok : Bool)
  | cancel
  | sync (ok : Bool)
  deriving DecidableEq

/-- The callers plan the next event; a commit completes that is in flight. -/
def Allowed (d : Disk) : DiskOp → Prop
  | .plan tac => 1 + d.sen = tac.eve
  | .complete _ => d.ted = true
  | .cancel => d.ted = true
  | _ => True

/-- `_disk_commit_after_cb`, where the thread was not cancelled. -/
def complete (d : Disk) (ok : Bool) : Option Disk := (d.write ok).done.free.bind commit

/-- The log after an operation, unless an assertion fails or a wild pointer is followed. -/
def op (d : Disk) : DiskOp → Option Disk
  | .plan tac => d.u3Plan tac
  | .planList lit => some (d.planList lit)
  | .complete ok => if d.ted then d.complete ok else none
  | .cancel => if d.ted then some { d with ted := false } else none
  | .sync ok => (d.sync ok).map Prod.fst

/-- The log from which an operation may cut a batch. -/
def cuts (d : Disk) : DiskOp → Option Disk
  | .plan tac => some (d.plan tac.mug tac.job)
  | .complete ok => (d.write ok).done.free
  | .sync _ => some d
  | _ => none

/-- The events that wait. -/
def waiting (d : Disk) : ℕ := d.sen - d.dun

/-! ### What is claimed -/

/-- The tables hold the events up to the committed one, each once and under its own number. -/
structure Recorded (d : Disk) : Prop where
  numbered : Numbered 0 d.all
  sen_eq : d.sen = d.all.length
  dun_le : d.dun ≤ d.sen
  tables : d.old ++ d.mdb = d.all.take d.dun

/-- A batch that is cut touches nothing but the histogram and the batch, a plan or completion leaves
a batch in flight if events wait, and a sync that reports success has committed all events. -/
def Sound (d : Disk) (o : DiskOp) : Prop :=
  (∀ c r, d.cuts o = some c → c.batch = some (r, true) → r.skew = c.skew) ∧
    match o with
    | .sync ok => ∀ b, d.sync ok = some (b, true) → b.dun = b.sen
    | .planList _ => True
    | .cancel => True
    | _ => ∀ b, d.op o = some b → b.ted = true ∨ b.dun = b.sen

/-- Where a batch may be cut, the low word of the number of events that wait is below a hundred. A sync
that the database takes finds it zero, or the whole number as small; a plan or a completion finds it zero only
where none waits. -/
def Small (d : Disk) (o : DiskOp) : Prop :=
  ∀ c, d.cuts o = some c → c.ted = false → c.waiting % 2 ^ 32 < 100 ∧
    match o with
    | .sync ok => ok = true → c.waiting % 2 ^ 32 = 0 ∨ c.waiting < 100
    | _ => c.waiting % 2 ^ 32 = 0 → c.waiting = 0

/-! ### The invariant -/

/-- The log between two operations: no thread is through that has not been heard of. -/
structure Rest (d : Disk) : Prop where
  ok : d.Ok
  ran : d.ran = false

variable {d d' c r : Disk} {o : DiskOp} {ok : Bool}

theorem Rest.durable (h : d.Rest) : d.durable = d.dun := by
  rw [Disk.durable, h.ran]
  simp

theorem Rest.recorded (h : d.Rest) : Recorded d where
  numbered := h.ok.numbered
  sen_eq := h.ok.sen_eq
  dun_le := h.ok.dun_le
  tables := by
    rw [h.ok.holds.tables, h.durable]

theorem plan_ran (d : Disk) (mug : ℕ) (job : Noun) : (d.plan mug job).ran = d.ran := by
  unfold plan
  dsimp only
  split
  · rfl
  · split
    · rfl
    · split
      · rfl
      · rfl

theorem commit_ran (h : commit d = some d') (hr : d.ran = false) : d'.ran = false := by
  rcases commit_cases h with rfl | ⟨_, _, _, _, _, _, rfl⟩
  · exact hr
  · rfl

theorem free_ran (h : free d = some d') : d'.ran = d.ran ∧ d'.ret = d.ret ∧ d'.ted = d.ted := by
  unfold free at h
  split at h
  · split at h
    · exact absurd h.symm (Option.some_ne_none _)
    · rw [← Option.some.inj h]
      exact ⟨rfl, rfl, rfl⟩
  · rw [← Option.some.inj h]
    exact ⟨rfl, rfl, rfl⟩

theorem Rest.commit (hd : d.Rest) (h : commit d = some d') : d'.Rest := ⟨ok_commit hd.ok h, commit_ran h hd.ran⟩

theorem Rest.plan (hd : d.Rest) (mug : ℕ) (job : Noun) : (d.plan mug job).Rest :=
  ⟨ok_plan hd.ok mug job, (plan_ran d mug job).trans hd.ran⟩

theorem write_ran (d : Disk) (ok : Bool) : (d.write ok).ran = true ∧ (d.write ok).len = d.len := by
  unfold write
  split
  · exact ⟨rfl, rfl⟩
  · exact ⟨rfl, rfl⟩

/-- The end of a batch in flight: it is counted if it was written. -/
theorem Rest.freed (hd : d.Rest) (ht : d.ted = true) (h : (d.write ok).done.free = some d') :
    d'.Rest ∧ d'.ted = false ∧ d'.sen = d.sen ∧ d'.torn = d.torn ∧ d'.ret = ok ∧
      d'.dun = if ok then d.dun + d.len else d.dun := by
  obtain ⟨hw, hret⟩ := ok_write hd.ok ht hd.ran ok
  obtain ⟨w1, w2, w3, w4, w5, w6, w7, w8⟩ := write_frame d ok
  obtain ⟨hran, hlen⟩ := write_ran d ok
  have hc := ok_done hw (w6.trans ht) hran
  obtain ⟨f1, f2, f3, f4, f5, f6, f7, f8⟩ := free_frame h
  obtain ⟨g1, g2, g3⟩ := free_ran h
  refine ⟨⟨ok_free hc h, g1⟩, g3, f1.trans w1, f3.trans w3, g2.trans hret, ?_⟩
  rw [f2]
  show (if (d.write ok).ret = true then _ else _) = _
  rw [hret, hlen, w2]

/-- No batch is cut where none waits or one is in flight. -/
theorem batch_idle (h : batch d = some (d', false)) : d' = d ∧ (d.waiting % 2 ^ 32 = 0 ∨ d.ted = true) := by
  unfold batch at h
  dsimp only at h
  split at h
  · rename_i hc
    exact ⟨(congrArg Prod.fst (Option.some.inj h)).symm, hc⟩
  · obtain ⟨bat, -, hbat⟩ := Option.map_eq_some_iff.mp h
    exact absurd (congrArg Prod.snd hbat).symm Bool.false_ne_true

/-- A batch that is cut, and what it overwrites. -/
theorem batch_cut (h : batch d = some (d', true)) :
    d.waiting % 2 ^ 32 ≠ 0 ∧ d.ted = false ∧ (d'.skew = d.skew ↔ d.waiting % 2 ^ 32 < 100) := by
  unfold batch at h
  dsimp only at h
  split at h
  · exact absurd (congrArg Prod.snd (Option.some.inj h)) Bool.false_ne_true
  · rename_i hc
    obtain ⟨hne, hted⟩ := not_or.mp hc
    obtain ⟨bat, -, hbat⟩ := Option.map_eq_some_iff.mp h
    refine ⟨hne, by simpa using hted, ?_⟩
    have hd : _ = d' := congrArg Prod.fst hbat
    rw [← hd]
    unfold bump waiting
    dsimp only
    split
    · rename_i hlt
      exact iff_of_true rfl (by omega)
    · rename_i hge
      exact iff_of_false (by simp) (by omega)

/-- A sync is nothing, or a batch put in flight, written, counted and freed. -/
theorem sync_split {b : Bool} (h : sync d ok = some (d', b)) :
    d' = d ∧ b = false ∧ (d.waiting % 2 ^ 32 = 0 ∨ d.ted = true) ∨
      ∃ d1, commit d = some d1 ∧ d1.ted = true ∧ (d1.write ok).done.free = some d' ∧ b = d'.ret ∧
        d1.len = min (d.waiting % 2 ^ 32) 100 ∧ d.waiting % 2 ^ 32 ≠ 0 ∧ d.ted = false := by
  unfold sync at h
  obtain ⟨⟨d0, cut⟩, h1, h2⟩ := Option.bind_eq_some_iff.mp h
  cases cut with
  | false =>
    obtain ⟨hd, hb⟩ := Prod.mk.inj (Option.some.inj h2)
    obtain ⟨rfl, hwhy⟩ := batch_idle h1
    exact .inl ⟨hd.symm, hb.symm, hwhy⟩
  | true =>
    obtain ⟨d2, h3, h4⟩ := Option.map_eq_some_iff.mp h2
    obtain ⟨rfl, hb⟩ := Prod.mk.inj h4
    obtain ⟨hne, ht, -⟩ := batch_cut h1
    refine .inr ⟨{ d0 with ted := true, ran := false }, ?_, rfl, ?_, hb.symm, (batch_len h1).1, hne, ht⟩
    · unfold commit
      rw [h1]
      rfl
    · rw [← h3]
      congr 1
      unfold write
      dsimp only
      split
      · rfl
      · rfl

/-- **Every operation** leaves the log at rest, or stops it. -/
theorem Rest.op (hd : d.Rest) (h : d.op o = some d') : d'.Rest := by
  cases o with
  | plan tac =>
    have hp : d.u3Plan tac = some d' := h
    unfold u3Plan at hp
    split at hp
    · exact (hd.plan _ _).commit hp
    · exact absurd hp.symm (Option.some_ne_none _)
  | planList lit =>
    obtain rfl := Option.some.inj h
    have hfold : ∀ (l : List Noun) (a : Disk), a.Rest → (a.planList l).Rest := by
      intro l
      induction l with
      | nil => exact fun a ha => ha
      | cons i l ih => exact fun a ha => ih _ (ha.plan 0 i)
    exact hfold lit d hd
  | complete ok =>
    have hc : (if d.ted then d.complete ok else none) = some d' := h
    split at hc
    · rename_i ht
      obtain ⟨d1, h1, h2⟩ := Option.bind_eq_some_iff.mp hc
      exact (hd.freed ht h1).1.commit h2
    · exact absurd hc.symm (Option.some_ne_none _)
  | cancel =>
    have hc : (if d.ted then some { d with ted := false } else none) = some d' := h
    split at hc
    · obtain rfl := Option.some.inj hc
      refine ⟨⟨hd.ok.numbered, hd.ok.sen_eq, hd.ok.dun_le, hd.ok.epo_le, hd.ok.old_eq, ?_, nofun, hd.ok.put_eq,
        hd.ok.put_torn, hd.ok.skew_eq⟩, hd.ran⟩
      have hdur : Disk.durable { d with ted := false } = d.durable := by
        rw [hd.durable, Disk.durable]
        simp
      rw [hdur]
      exact hd.ok.mdb_eq
    · exact absurd hc.symm (Option.some_ne_none _)
  | sync ok =>
    obtain ⟨⟨d1, b⟩, hs, rfl⟩ := Option.map_eq_some_iff.mp h
    rcases sync_split hs with ⟨rfl, -, -⟩ | ⟨d2, hc, ht, hf, -⟩
    · exact hd
    · exact ((hd.commit hc).freed ht hf).1

theorem rest_new : Disk.new.Rest := ⟨planned_new.ok, rfl⟩

/-! ### Batches that are small -/

/-- A batch that may be cut overwrites nothing if and only if few events wait. -/
theorem untouched_iff {b : Bool} (h : batch c = some (r, b)) :
    (∀ r, batch c = some (r, true) → r.skew = c.skew) ↔ c.ted = false → c.waiting % 2 ^ 32 < 100 := by
  cases b with
  | false =>
    obtain ⟨-, hwhy⟩ := batch_idle h
    refine iff_of_true (fun r hr => ?_) fun ht => ?_
    · exact absurd (congrArg Prod.snd (Option.some.inj (h.symm.trans hr))) Bool.false_ne_true
    · rcases hwhy with h0 | ht'
      · rw [h0]
        decide
      · exact absurd (ht.symm.trans ht') Bool.false_ne_true
  | true =>
    obtain ⟨-, ht, hiff⟩ := batch_cut h
    constructor
    · exact fun hall _ => hiff.mp (hall r h)
    · intro hlt r' hr'
      obtain rfl := congrArg Prod.fst (Option.some.inj (h.symm.trans hr'))
      exact hiff.mpr (hlt ht)

/-- What a commit comes to: a batch is in flight or nothing waits, unless all words of a count do. -/
theorem commit_driven (hc : c.Rest) (h : commit c = some d') :
    (d'.ted = true ∨ d'.dun = d'.sen) ↔ (c.ted = false → c.waiting % 2 ^ 32 = 0 → c.waiting = 0) := by
  unfold commit at h
  obtain ⟨⟨r, b⟩, hb, rfl⟩ := Option.map_eq_some_iff.mp h
  cases b with
  | false =>
    obtain ⟨rfl, hwhy⟩ := batch_idle hb
    have hle := hc.ok.dun_le
    show (r.ted = true ∨ r.dun = r.sen) ↔ _
    constructor
    · intro hor ht _
      rcases hor with hted | he
      · exact absurd (ht.symm.trans hted) Bool.false_ne_true
      · rw [waiting, he, Nat.sub_self]
    · intro himp
      cases ht : r.ted with
      | true => exact .inl rfl
      | false =>
        have h0 := himp ht (hwhy.resolve_right fun hted => Bool.false_ne_true (ht.symm.trans hted))
        unfold waiting at h0
        exact .inr (by omega)
  | true => exact iff_of_true (.inl rfl) fun _ h0 => absurd h0 (batch_cut hb).1

/-- A sync that reports success has committed all events if and only if no more wait than it takes. -/
theorem sync_iff (hd : d.Rest) {b : Bool} (h : sync d ok = some (d', b))
    (hsmall : d.ted = false → d.waiting % 2 ^ 32 < 100) :
    (∀ b, sync d ok = some (b, true) → b.dun = b.sen) ↔
      (d.ted = false → ok = true → d.waiting % 2 ^ 32 = 0 ∨ d.waiting < 100) := by
  rcases sync_split h with ⟨rfl, rfl, hwhy⟩ | ⟨d1, hc, ht1, hf, hret', hlen, hne, ht⟩
  · refine iff_of_true (fun x hx => ?_) fun ht _ => .inl ?_
    · exact absurd (congrArg Prod.snd (Option.some.inj (h.symm.trans hx))) Bool.false_ne_true
    · exact hwhy.resolve_right fun hted => Bool.false_ne_true (ht.symm.trans hted)
  · obtain ⟨-, -, hsen, -, hret, hdun⟩ := (hd.commit hc).freed ht1 hf
    obtain ⟨c1, c2, -⟩ := commit_frame hc
    have hle := hd.ok.dun_le
    have hmod := Nat.mod_le d.waiting (2 ^ 32)
    rw [min_eq_left (le_of_lt (hsmall ht))] at hlen
    have hone : ∀ x, sync d ok = some (x, true) ↔ x = d' ∧ ok = true := fun x => by
      rw [h, hret', hret, Option.some.injEq, Prod.mk.injEq]
      exact and_congr_left' eq_comm
    cases ok with
    | false =>
      refine iff_of_true (fun x hx => ?_) fun _ hok => absurd hok Bool.false_ne_true
      exact absurd ((hone x).mp hx).2 Bool.false_ne_true
    | true =>
      rw [if_pos rfl, c2, hlen] at hdun
      have hall : d'.dun = d'.sen ↔ d.waiting % 2 ^ 32 = d.waiting := by
        rw [hdun, hsen, c1]
        unfold waiting at hmod ⊢
        omega
      constructor
      · intro hx _ _
        have he := hall.mp (hx d' ((hone d').mpr ⟨rfl, rfl⟩))
        exact .inr (he ▸ hsmall ht)
      · intro himp x hx
        obtain ⟨rfl, -⟩ := (hone x).mp hx
        refine hall.mpr (Nat.mod_eq_of_lt ?_)
        exact lt_trans ((himp ht rfl).resolve_left hne) (by decide)

/-- A commit is sound if and only if its batch is small. -/
theorem commit_sound (hc : c.Rest) (h : commit c = some d') :
    ((∀ r, batch c = some (r, true) → r.skew = c.skew) ∧ (d'.ted = true ∨ d'.dun = d'.sen)) ↔
      (c.ted = false → c.waiting % 2 ^ 32 < 100 ∧ (c.waiting % 2 ^ 32 = 0 → c.waiting = 0)) := by
  obtain ⟨⟨r, b⟩, hb, -⟩ := Option.map_eq_some_iff.mp h
  rw [untouched_iff hb, commit_driven hc h]
  exact ⟨fun h ht => ⟨h.1 ht, h.2 ht⟩, fun h => ⟨fun ht => (h ht).1, fun ht => (h ht).2⟩⟩

/-- What is claimed of an operation that commits, of the log that it commits. -/
theorem sound_of_cut (hcut : d.cuts o = some c) (hc : c.Rest) (hcommit : commit c = some d') (hop : d.op o = some d')
    (ho : (∃ tac, o = .plan tac) ∨ ∃ ok, o = .complete ok) : Sound d o ↔ Small d o := by
  have hone : ∀ x, d.cuts o = some x ↔ x = c := fun x => by
    rw [hcut, Option.some.injEq]
    exact eq_comm
  have hiff := commit_sound hc hcommit
  have hdriven : (∀ b, d.op o = some b → b.ted = true ∨ b.dun = b.sen) ↔ (d'.ted = true ∨ d'.dun = d'.sen) := by
    rw [hop]
    exact ⟨fun h => h d' rfl, fun h b hb => Option.some.inj hb ▸ h⟩
  have hsound : Sound d o ↔ (∀ r, batch c = some (r, true) → r.skew = c.skew) ∧ (d'.ted = true ∨ d'.dun = d'.sen) := by
    have huntouched : (∀ x r, d.cuts o = some x → batch x = some (r, true) → r.skew = x.skew) ↔
        ∀ r, batch c = some (r, true) → r.skew = c.skew :=
      ⟨fun h r => h c r hcut, fun h x r hx hr => by
        obtain rfl := (hone x).mp hx
        exact h r hr⟩
    unfold Sound
    rcases ho with ⟨tac, rfl⟩ | ⟨ok, rfl⟩
    · exact and_congr huntouched hdriven
    · exact and_congr huntouched hdriven
  have hsmall : Small d o ↔ (c.ted = false → c.waiting % 2 ^ 32 < 100 ∧ (c.waiting % 2 ^ 32 = 0 → c.waiting = 0)) := by
    unfold Small
    rcases ho with ⟨tac, rfl⟩ | ⟨ok, rfl⟩
    · exact ⟨fun h => h c hcut, fun h x hx => (hone x).mp hx ▸ h⟩
    · exact ⟨fun h => h c hcut, fun h x hx => (hone x).mp hx ▸ h⟩
  exact hsound.trans (hiff.trans hsmall.symm)

/-- **An operation is sound if and only if its batch is small.** -/
theorem op_sound_iff (hd : d.Rest) (h : d.op o = some d') : Sound d o ↔ Small d o := by
  cases o with
  | plan tac =>
    have hp : d.u3Plan tac = some d' := h
    unfold u3Plan at hp
    split at hp
    · exact sound_of_cut rfl (hd.plan _ _) hp h (.inl ⟨tac, rfl⟩)
    · exact absurd hp.symm (Option.some_ne_none _)
  | planList lit =>
    exact iff_of_true ⟨fun c r hc => absurd hc.symm (Option.some_ne_none _), trivial⟩ fun c hc =>
      absurd hc.symm (Option.some_ne_none _)
  | cancel =>
    exact iff_of_true ⟨fun c r hc => absurd hc.symm (Option.some_ne_none _), trivial⟩ fun c hc =>
      absurd hc.symm (Option.some_ne_none _)
  | complete ok =>
    have hc : (if d.ted then d.complete ok else none) = some d' := h
    split at hc
    · rename_i ht
      obtain ⟨d1, h1, h2⟩ := Option.bind_eq_some_iff.mp hc
      exact sound_of_cut h1 (hd.freed ht h1).1 h2 h (.inr ⟨ok, rfl⟩)
    · exact absurd hc.symm (Option.some_ne_none _)
  | sync ok =>
    obtain ⟨⟨d1, b⟩, hs, rfl⟩ := Option.map_eq_some_iff.mp h
    obtain ⟨⟨r, cut⟩, hb, -⟩ := Option.bind_eq_some_iff.mp hs
    have huntouched := untouched_iff hb
    have hsound : Sound d (.sync ok) ↔ (∀ r, batch d = some (r, true) → r.skew = d.skew) ∧
        ∀ b, d.sync ok = some (b, true) → b.dun = b.sen := by
      refine and_congr_left' ⟨fun h r => h d r rfl, fun h x r hx hr => ?_⟩
      obtain rfl := Option.some.inj hx
      exact h r hr
    have hsmall : Small d (.sync ok) ↔ (d.ted = false → d.waiting % 2 ^ 32 < 100 ∧
        (ok = true → d.waiting % 2 ^ 32 = 0 ∨ d.waiting < 100)) :=
      ⟨fun h => h d rfl, fun h x hx => Option.some.inj hx ▸ h⟩
    rw [hsound, hsmall, huntouched]
    constructor
    · rintro ⟨hlt, hcom⟩ ht
      exact ⟨hlt ht, (sync_iff hd hs hlt).mp hcom ht⟩
    · intro hall
      exact ⟨fun ht => (hall ht).1, (sync_iff hd hs fun ht => (hall ht).1).mpr fun ht => (hall ht).2⟩

/-! ### Intact logs -/

/-- The queue is whole and its entry pointer untouched. -/
structure Intact (d : Disk) : Prop where
  rest : d.Rest
  torn : d.torn = false
  skew : d.skew = 0

theorem intact_new : Disk.new.Intact := ⟨rest_new, rfl, rfl⟩

theorem Intact.plan (hd : d.Intact) (mug : ℕ) (job : Noun) : (d.plan mug job).Intact := by
  refine ⟨hd.rest.plan mug job, ?_, ?_⟩
  · rcases plan_put d mug job with ⟨-, -, ht⟩ | ⟨-, -, -, hwhy⟩ | ⟨-, -, ht, -⟩
    · exact ht.trans hd.torn
    · exact absurd (hwhy.resolve_left fun ht => Bool.false_ne_true (hd.torn.symm.trans ht)) (not_not_intro hd.skew)
    · exact ht
  · unfold Disk.plan
    simp only [hd.torn, hd.skew, if_true, Bool.false_eq_true, if_false]
    split
    · rfl
    · rfl

/-- A batch that is cut of few events leaves the entry pointer. -/
theorem commit_skew (h : commit c = some d') (hlt : c.ted = false → c.waiting % 2 ^ 32 < 100) : d'.skew = c.skew := by
  unfold commit at h
  obtain ⟨⟨r, b⟩, hb, rfl⟩ := Option.map_eq_some_iff.mp h
  cases b with
  | false =>
    obtain ⟨rfl, -⟩ := batch_idle hb
    rfl
  | true =>
    obtain ⟨-, ht, hiff⟩ := batch_cut hb
    exact hiff.mpr (hlt ht)

/-- A commit of an intact log is made, and leaves it so if the batch is small. -/
theorem Intact.commit (hc : c.Intact) (hlt : c.ted = false → c.waiting % 2 ^ 32 < 100) :
    ∃ d, commit c = some d ∧ d.Intact := by
  obtain ⟨d, hd⟩ := commit_some hc.rest.ok hc.torn
  exact ⟨d, hd, hc.rest.commit hd, (commit_frame hd).2.2.2.2.1.trans hc.torn, (commit_skew hd hlt).trans hc.skew⟩

/-- The end of a batch of an intact log. -/
theorem freed_intact (ht : d.torn = false) (hs : d.skew = 0) (ok : Bool) :
    ∃ d', (d.write ok).done.free = some d' ∧ d'.torn = false ∧ d'.skew = 0 := by
  obtain ⟨-, -, w3, -, w5, -⟩ := write_frame d ok
  have htorn : (d.write ok).done.torn = false := w3.trans ht
  have hskew : (d.write ok).done.skew = 0 := w5.trans hs
  obtain ⟨d', hd'⟩ := free_some htorn
  refine ⟨d', hd', (free_frame hd').2.2.1.trans htorn, ?_⟩
  unfold free at hd'
  split at hd'
  · split at hd'
    · exact absurd hd'.symm (Option.some_ne_none _)
    · rw [← Option.some.inj hd']
  · rw [← Option.some.inj hd']
    exact hskew

/-- **A log whose batches are small does not stop.** -/
theorem Intact.op (hd : d.Intact) (ha : d.Allowed o) (hsmall : Small d o) : ∃ d', d.op o = some d' ∧ d'.Intact := by
  cases o with
  | plan tac =>
    have hlt := fun ht => (hsmall (d.plan tac.mug tac.job) rfl ht).1
    obtain ⟨d', hc, hi⟩ := (hd.plan tac.mug tac.job).commit hlt
    exact ⟨d', (if_pos ha).trans hc, hi⟩
  | planList lit =>
    have hfold : ∀ (l : List Noun) (a : Disk), a.Intact → (a.planList l).Intact := by
      intro l
      induction l with
      | nil => exact fun a ha => ha
      | cons i l ih => exact fun a ha => ih _ (ha.plan 0 i)
    exact ⟨_, rfl, hfold lit d hd⟩
  | complete ok =>
    obtain ⟨d1, hf, ht1, hs1⟩ := freed_intact hd.torn hd.skew ok
    have hlt := fun ht => (hsmall d1 hf ht).1
    obtain ⟨d', hc, hi⟩ := Intact.commit ⟨(hd.rest.freed ha hf).1, ht1, hs1⟩ hlt
    refine ⟨d', (if_pos ha).trans ?_, hi⟩
    unfold complete
    rw [hf]
    exact hc
  | cancel =>
    have hop : d.op .cancel = some { d with ted := false } := if_pos ha
    exact ⟨_, hop, hd.rest.op hop, hd.torn, hd.skew⟩
  | sync ok =>
    have hlt := fun ht => (hsmall d rfl ht).1
    obtain ⟨d1, hc, hi⟩ := hd.commit hlt
    unfold Disk.commit at hc
    obtain ⟨⟨r, b⟩, hb, hr⟩ := Option.map_eq_some_iff.mp hc
    cases b with
    | false =>
      obtain ⟨rfl, -⟩ := batch_idle hb
      have hs : sync r ok = some (r, false) := by
        unfold sync
        rw [hb]
        rfl
      exact ⟨r, congrArg (Option.map Prod.fst) hs, hd⟩
    | true =>
      have hrd : { r with ted := true, ran := false } = d1 := hr
      have ht : r.torn = false := by
        have := hi.torn
        rwa [← hrd] at this
      have hs : r.skew = 0 := by
        have := hi.skew
        rwa [← hrd] at this
      obtain ⟨d2, hf, ht2, hs2⟩ := freed_intact ht hs ok
      have hsync : sync d ok = some (d2, d2.ret) := by
        unfold sync
        rw [hb, Option.bind_some, if_pos rfl, hf]
        rfl
      have hop : d.op (.sync ok) = some d2 := congrArg (Option.map Prod.fst) hsync
      exact ⟨d2, hop, hd.rest.op hop, ht2, hs2⟩

/-! ### Runs -/

/-- **A run of the log**: it goes through, every state has the committed events recorded and every operation is sound if
and only if the batches are small. -/
theorem commits_of_run {es : List DiskOp} (ha : Replay.Along op Allowed new es) :
    ((∃ d, Replay.follow op new es = some d) ∧ (∀ n a, Replay.At op new es n a → Recorded a) ∧
        Replay.Along op Sound new es) ↔ Replay.Along op Small new es := by
  have hrest : ∀ a o b, Rest a → op a o = some b → Rest b := fun a o b hr ho => hr.op ho
  have hiff : ∀ d, Replay.follow op new es = some d → (Replay.Along op Sound new es ↔ Replay.Along op Small new es) :=
    fun d hd => Replay.Along.congr Rest hrest (fun a o b hr ho => op_sound_iff hr ho) rest_new hd
  constructor
  · rintro ⟨⟨d, hd⟩, -, hsound⟩
    exact (hiff d hd).mp hsound
  · intro hsmall
    obtain ⟨d, hd, -⟩ := (ha.and hsmall).follow_some Intact (fun a o hi hc => hi.op hc.1 hc.2) intact_new
    refine ⟨⟨d, hd⟩, fun n a hat => ?_, (hiff d hd).mpr hsmall⟩
    exact (Replay.follow_inv (fun _ => Rest) rest_new (fun _ b o c hb ho => hrest b o c hb ho) hat.follow_eq).recorded

/-- A boot's events are synced, and one more is planned, whose commit fails first. -/
def bootRun : List DiskOp :=
  [.planList [.atom 5, .atom 6], .sync true, .plan ⟨3, 0, .atom 7⟩, .complete false, .complete true]

theorem bootRun_recorded :
    Replay.Along op Sound new bootRun ∧ (∃ d, Replay.follow op new bootRun = some d ∧ d.dun = 3) ∧
    ∀ n a, Replay.At op new bootRun n a → Recorded a := by
  have hallowed : Replay.Along op Allowed new bootRun := by
    refine
      ⟨trivial, fun b hb => ⟨trivial, fun b1 hb1 => ⟨?_, fun b2 hb2 => ⟨?_, fun b3 hb3 => ⟨?_, fun _ _ => trivial⟩⟩⟩⟩⟩
    all_goals
      obtain rfl := Option.some.inj hb
      obtain rfl := Option.some.inj hb1
    · rfl
    · obtain rfl := Option.some.inj hb2
      rfl
    · obtain rfl := Option.some.inj hb2
      obtain rfl := Option.some.inj hb3
      rfl
  have hsmall : Replay.Along op Small new bootRun := by
    refine ⟨fun c hc => absurd hc.symm (Option.some_ne_none _),
      fun b hb => ⟨fun c hc ht => ?_, fun b1 hb1 => ⟨fun c hc ht => ?_,
      fun b2 hb2 => ⟨fun c hc ht => ?_, fun b3 hb3 => ⟨fun c hc ht => ?_, fun _ _ => trivial⟩⟩⟩⟩⟩
    all_goals obtain rfl := Option.some.inj hb
    · obtain rfl := Option.some.inj hc
      exact ⟨by decide, fun _ => .inr (by decide)⟩
    all_goals obtain rfl := Option.some.inj hb1
    · obtain rfl := Option.some.inj hc
      exact ⟨by decide, fun h => absurd h (by decide)⟩
    all_goals obtain rfl := Option.some.inj hb2
    · obtain rfl := Option.some.inj hc
      exact ⟨by decide, fun h => absurd h (by decide)⟩
    · obtain rfl := Option.some.inj hb3
      obtain rfl := Option.some.inj hc
      exact ⟨by decide, fun _ => by decide⟩
  have h := (commits_of_run hallowed).mpr hsmall
  exact ⟨h.2.2, ⟨_, rfl, rfl⟩, h.2.1⟩

set_option maxRecDepth 20000 in
/-- A sync of a hundred and one events reports success, with one that is not committed. -/
theorem sync_leaves_one : ∃ b, sync (planList new (List.replicate 101 (.atom 0))) true = some
    (b, true) ∧ b.dun = 100 ∧ b.sen = 101 := by
  exact ⟨_, rfl, rfl, rfl⟩

end Disk
end Ursockets
