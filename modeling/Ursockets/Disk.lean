/-
# The event log and its write queue

`u3_disk` keeps the events that are computed but not yet in the log in a queue
(`put_u`), cuts batches of at most a hundred of them, and has a thread write
each batch to the log's table in one transaction. One batch is in flight at a
time; when its write is done the main thread counts it, frees its events and
cuts the next.

The queue is a chain from its exit to its entry, and an event is added through
the pointer to the entry. The batch sizes are counted in `hit_w[100]`, at the
size as the index, so that a batch of a hundred counts in the word after the
array, which is the low half of that pointer. The pointer is then off by one
byte (`skew`), the next event is linked through it, and the link of the last
event before it no longer leads to the new one (`torn`): what follows the chain
past there reads a wild pointer.

Key definitions: `Disk`, `batch`, `commit`, `plan`, `write`, `free`, `Disk.Ok`.
Key theorems: `commit_cases`, `ok_plan`, `ok_commit`, `commit_some`, `ok_write`, `ok_done`,
`ok_free`, `free_some`.
-/
import Mathlib.Data.List.TakeWhile
import Mathlib.Data.List.TakeDrop
import Ursockets.Noun

namespace Ursockets

/-- `u3_feat`: an event to be logged, with its number and the mug of the state after it (0: none).
It is kept as the event and not as its bytes. -/
structure Feat where
  eve : ℕ
  mug : ℕ
  job : Noun
  deriving DecidableEq

/-- The events of the list have the numbers that follow `n`. -/
def Numbered : ℕ → List Feat → Prop
  | _, [] => True
  | n, f :: fs => f.eve = n + 1 ∧ Numbered (n + 1) fs

/-- `u3_disk`. The table of the current epoch (`mdb`) and those of the epochs before it (`old`) are
what the disk holds. -/
structure Disk where
  /-- commit requested -/
  sen : ℕ
  /-- committed -/
  dun : ℕ
  /-- current epoch -/
  epo : ℕ
  /-- batch histogram -/
  hit : List ℕ
  /-- write queue, exit first -/
  put : List Feat
  /-- bytes that `put_u.ent_u` is past the last event of the queue -/
  skew : ℕ
  /-- the last link of the queue was written at the wrong place -/
  torn : Bool
  /-- a batch is in flight -/
  ted : Bool
  /-- its thread is through -/
  ran : Bool
  /-- and has written it -/
  ret : Bool
  /-- first event of the batch -/
  eve : ℕ
  /-- number of events in it -/
  len : ℕ
  /-- its events -/
  bat : List Feat
  mdb : List Feat
  old : List Feat
  /-- history: every event logged or planned; no function reads it -/
  all : List Feat

/-! ### The table -/

/-- `mdb_put` with `MDB_NOOVERWRITE`: the table is ordered by event number. -/
def mdbPut (f : Feat) : List Feat → Option (List Feat)
  | [] => some [f]
  | g :: gs =>
    if f.eve < g.eve then some (f :: g :: gs)
    else if f.eve = g.eve then none
    else (mdbPut f gs).map (g :: ·)

/-- `u3_lmdb_save`: one transaction. -/
def lmdbSave (tab : List Feat) : List Feat → Option (List Feat)
  | [] => some tab
  | f :: fs => (mdbPut f tab).bind fun t => lmdbSave t fs

namespace Disk

/-! ### The write queue -/

/-- The loop of `_disk_batch`: it takes `n` events off the queue, asserting their numbers. The end
of the queue fails the assertion, or is a wild pointer. -/
def batchWalk : ℕ → ℕ → List Feat → Option (List Feat)
  | _, 0, _ => some []
  | _, _ + 1, [] => none
  | eve, n + 1, f :: fs => if f.eve = eve then (batchWalk (eve + 1) n fs).map (f :: ·) else none

/-- `log_u->hit_w[len_w]++`. -/
def bump (d : Disk) (len : ℕ) : Disk :=
  if len < 100 then { d with hit := d.hit.modify len (· + 1) }
  else { d with skew := d.skew + 1 }

/-- `_disk_batch`: create a write batch. -/
def batch (d : Disk) : Option (Disk × Bool) :=
  let len := (d.sen - d.dun) % 2 ^ 32
  if len = 0 ∨ d.ted = true then some (d, false)
  else
    (batchWalk (d.dun + 1) (min len 100) d.put).map fun bat =>
      (bump { d with ret := false, eve := d.dun + 1, len := min len 100, bat := bat } (min len 100), true)

/-- `_disk_commit`: commit all available events, if idle. -/
def commit (d : Disk) : Option Disk :=
  (batch d).map fun r => if r.2 then { r.1 with ted := true, ran := false } else r.1

/-- `_disk_plan`: enqueue an event. Through a shifted entry pointer the link is not set. -/
def plan (d : Disk) (mug : ℕ) (job : Noun) : Disk :=
  let fet : Feat := ⟨d.sen + 1, mug, job⟩
  let d := { d with sen := d.sen + 1, all := d.all ++ [fet] }
  if d.put = [] then { d with put := [fet] }
  else if d.torn then { d with skew := 0 }
  else if d.skew = 0 then { d with put := d.put ++ [fet] }
  else { d with torn := true, skew := 0 }

/-- `u3_disk_plan`: enqueue a completed event. -/
def u3Plan (d : Disk) (tac : Feat) : Option Disk :=
  if 1 + d.sen = tac.eve then commit (plan d tac.mug tac.job) else none

/-- `_disk_commit_cb`: the thread writes the batch; `ok` is that the database has no error. -/
def write (d : Disk) (ok : Bool) : Disk :=
  match if ok then lmdbSave d.mdb d.bat else none with
  | some t => { d with mdb := t, ret := true, ran := true }
  | none => { d with ret := false, ran := true }

/-- The first half of `_disk_commit_after_cb`: the batch is over and is counted. -/
def done (d : Disk) : Disk :=
  { d with ted := false, ran := false, dun := if d.ret then d.dun + d.len else d.dun }

/-- The end of `_disk_commit_done`: free the events that are committed. -/
def free (d : Disk) : Option Disk :=
  match d.put.dropWhile (·.eve ≤ d.dun) with
  | [] => if d.torn then none else some { d with put := [], skew := 0 }
  | f :: fs => some { d with put := f :: fs }

/-! ### Booting -/

/-- The log of a new ship. -/
def new : Disk :=
  ⟨0, 0, 0, List.replicate 100 0, [], 0, false, false, false, false, 0, 0, [], [], [], []⟩

/-- `u3_disk_plan_list`: enqueue the boot events, which have no mugs. -/
def planList (d : Disk) (lit : List Noun) : Disk := lit.foldl (fun d i => d.plan 0 i) d

/-- `u3_disk_sync`: commit planned events, in one batch. -/
def sync (d : Disk) (ok : Bool) : Option (Disk × Bool) :=
  (batch d).bind fun r =>
    if r.2 then (r.1.write ok).done.free.map fun d' => (d', d'.ret) else some (r.1, false)

end Disk

/-! ### Numbered events -/

namespace Numbered

theorem append {n : ℕ} : ∀ {l m : List Feat}, Numbered n l → Numbered (n + l.length) m →
    Numbered n (l ++ m)
  | [], _, _, h => h
  | f :: l, m, ⟨h1, h2⟩, h => by
    refine ⟨h1, append h2 ?_⟩
    rwa [List.length_cons, ← Nat.add_assoc, Nat.add_right_comm] at h

theorem drop {n : ℕ} : ∀ {l : List Feat}, Numbered n l → ∀ k ≤ l.length, Numbered (n + k) (l.drop k)
  | _, h, 0, _ => h
  | _ :: _, ⟨_, h⟩, k + 1, hk => by
    have h1 := drop h k (Nat.le_of_succ_le_succ hk)
    rwa [Nat.add_right_comm] at h1

theorem take {n : ℕ} : ∀ {l : List Feat}, Numbered n l → ∀ k, Numbered n (l.take k)
  | [], _, k => by simp [Numbered]
  | _ :: _, _, 0 => trivial
  | _ :: _, ⟨h1, h2⟩, k + 1 => ⟨h1, take h2 k⟩

/-- Dropping the events up to a number. -/
theorem dropWhile {n m : ℕ} : ∀ {l : List Feat}, Numbered n l → n ≤ m →
    l.dropWhile (·.eve ≤ m) = l.drop (m - n)
  | [], _, _ => by simp
  | f :: l, ⟨h1, h2⟩, h => by
    rcases Nat.eq_or_lt_of_le h with rfl | hlt
    · rw [List.dropWhile_cons_of_neg (by simp [h1]), Nat.sub_self, List.drop_zero]
    · rw [List.dropWhile_cons_of_pos (by simp only [h1, decide_eq_true_eq]; omega), dropWhile h2 hlt,
        show m - n = (m - (n + 1)) + 1 by omega, List.drop_succ_cons]

theorem eve_get {n : ℕ} : ∀ {l : List Feat}, Numbered n l → ∀ {i : ℕ} {f : Feat}, l[i]? = some f →
    f.eve = n + i + 1
  | [], _, _, _, h => by simp at h
  | g :: l, ⟨h1, _⟩, 0, f, h => by
    have h2 : g = f := by simpa using h
    rw [← h2, h1, Nat.add_zero]
  | _ :: l, ⟨_, h2⟩, i + 1, f, h => by
    have h3 := eve_get h2 (by simpa using h)
    omega

/-- The batch loop takes what is there. -/
theorem batchWalk {n : ℕ} : ∀ {k : ℕ} {l : List Feat}, Numbered n l → k ≤ l.length →
    Disk.batchWalk (n + 1) k l = some (l.take k)
  | 0, _, _, _ => rfl
  | k + 1, f :: l, ⟨h1, h2⟩, hk => by
    rw [Disk.batchWalk, if_pos h1, batchWalk h2 (Nat.le_of_succ_le_succ hk)]
    rfl

/-- An event that follows the table is put at its end. -/
theorem mdbPut {n : ℕ} {f : Feat} : ∀ {l : List Feat}, Numbered n l → f.eve = n + l.length + 1 →
    Ursockets.mdbPut f l = some (l ++ [f])
  | [], _, _ => rfl
  | g :: l, ⟨h1, h2⟩, hf => by
    rw [List.length_cons] at hf
    rw [Ursockets.mdbPut, if_neg (by omega), if_neg (by omega), mdbPut h2 (by omega)]
    rfl

/-- A batch that follows the table is written whole. -/
theorem lmdbSave {n : ℕ} : ∀ {m l : List Feat}, Numbered n l → Numbered (n + l.length) m →
    Ursockets.lmdbSave l m = some (l ++ m)
  | [], l, _, _ => by rw [Ursockets.lmdbSave, List.append_nil]
  | f :: m, l, h, ⟨h1, h2⟩ => by
    have hf : Numbered n (l ++ [f]) := h.append ⟨h1, trivial⟩
    rw [Ursockets.lmdbSave, mdbPut h h1, Option.bind_some, lmdbSave hf, List.append_assoc]
    · rfl
    · rwa [List.length_append, List.length_singleton, ← Nat.add_assoc]

end Numbered

namespace Disk

theorem batchWalk_length : ∀ {eve n : ℕ} {l m : List Feat}, batchWalk eve n l = some m → n ≤ l.length
  | _, 0, _, _, _ => Nat.zero_le _
  | eve, n + 1, f :: l, m, h => by
    rw [batchWalk] at h
    split at h
    · obtain ⟨m', h1, _⟩ := Option.map_eq_some_iff.mp h
      exact Nat.succ_le_succ (batchWalk_length h1)
    · cases h

/-! ### The invariant -/

/-- How many events the tables hold: those committed, and the batch in flight once its write is
through. -/
def durable (d : Disk) : ℕ := if d.ted ∧ d.ran ∧ d.ret then d.dun + d.len else d.dun

/-- What holds of the log between two calls. -/
structure Ok (d : Disk) : Prop where
  numbered : Numbered 0 d.all
  sen_eq : d.sen = d.all.length
  dun_le : d.dun ≤ d.sen
  epo_le : d.epo ≤ d.dun
  old_eq : d.old = d.all.take d.epo
  mdb_eq : d.mdb = (d.all.take d.durable).drop d.epo
  bat_eq : d.ted = true → d.dun + d.len ≤ d.sen ∧ d.bat = (d.all.drop d.dun).take d.len
  put_eq : d.torn = false → d.put = d.all.drop d.dun
  put_torn : d.torn = true → ∃ k, 0 < k ∧ d.dun + k < d.sen ∧ d.put = (d.all.drop d.dun).take k
  skew_eq : d.put = [] → d.skew = 0

theorem Ok.durable_le {d : Disk} (h : d.Ok) : d.durable ≤ d.sen := by
  unfold durable
  split
  · rename_i hc; exact (h.bat_eq hc.1).1
  · exact h.dun_le

theorem Ok.dun_le_durable {d : Disk} : d.dun ≤ d.durable := by
  unfold durable
  split
  · exact Nat.le_add_right _ _
  · exact le_refl _

/-- The queue of an intact log is empty when nothing waits. -/
theorem Ok.put_eq_nil {d : Disk} (h : d.Ok) (ht : d.torn = false) : d.put = [] ↔ d.dun = d.sen := by
  rw [h.put_eq ht, List.drop_eq_nil_iff, h.sen_eq.symm]
  have := h.dun_le
  omega

/-! ### Cutting a batch -/

/-- What `_disk_commit` does: nothing, or it puts a batch in flight. -/
theorem commit_cases {d d' : Disk} (h : commit d = some d') :
    d' = d ∨ ∃ len bat, d.ted = false ∧ 0 < len ∧ len ≤ d.sen - d.dun ∧
      batchWalk (d.dun + 1) len d.put = some bat ∧
      d' = { bump { d with ret := false, eve := d.dun + 1, len := len, bat := bat } len with
        ted := true, ran := false } := by
  unfold commit batch at h
  simp only at h
  split at h
  · left
    simpa using h.symm
  · rename_i hc
    rw [not_or, Bool.not_eq_true] at hc
    rw [Option.map_map, Option.map_eq_some_iff] at h
    obtain ⟨bat, hb, hd⟩ := h
    have hm : (d.sen - d.dun) % 2 ^ 32 ≤ d.sen - d.dun := Nat.mod_le _ _
    refine Or.inr ⟨_, bat, hc.2, ?_, ?_, hb, by rw [← hd]; rfl⟩
    · have := hc.1; omega
    · omega

/-- A commit leaves everything but the batch and the histogram alone. -/
theorem commit_frame {d d' : Disk} (h : commit d = some d') :
    d'.sen = d.sen ∧ d'.dun = d.dun ∧ d'.epo = d.epo ∧ d'.put = d.put ∧ d'.torn = d.torn ∧
      d'.mdb = d.mdb ∧ d'.old = d.old ∧ d'.all = d.all := by
  rcases commit_cases h with rfl | ⟨len, bat, _, _, _, _, rfl⟩
  · exact ⟨rfl, rfl, rfl, rfl, rfl, rfl, rfl, rfl⟩
  · unfold bump
    split <;> exact ⟨rfl, rfl, rfl, rfl, rfl, rfl, rfl, rfl⟩

theorem ok_commit {d d' : Disk} (hd : d.Ok) (h : commit d = some d') : d'.Ok := by
  obtain ⟨h1, h2, h3, h4, h5, h6, h7, h8⟩ := commit_frame h
  rcases commit_cases h with rfl | ⟨len, bat, ht, hl, hs, hb, he⟩
  · exact hd
  have hlen : d'.len = len := by rw [he]; unfold bump; split <;> rfl
  have hbat : d'.bat = bat := by rw [he]; unfold bump; split <;> rfl
  have hran : d'.ran = false := by rw [he]
  have hdur : d'.durable = d.durable := by
    rw [durable, durable, hran, ht, h2]
    simp
  have hwalk : bat = (d.all.drop d.dun).take len := by
    have hn : Numbered d.dun (d.all.drop d.dun) := by
      have hn1 := hd.numbered.drop d.dun (by rw [← hd.sen_eq]; exact hd.dun_le)
      rwa [Nat.zero_add] at hn1
    have hlt := batchWalk_length hb
    cases htorn : d.torn with
    | false =>
      rw [hd.put_eq htorn] at hb hlt
      rw [hn.batchWalk hlt] at hb
      exact (Option.some.inj hb).symm
    | true =>
      obtain ⟨k, _, _, hput⟩ := hd.put_torn htorn
      rw [hput] at hb hlt
      rw [(hn.take k).batchWalk hlt, List.take_take] at hb
      have hk : len ≤ k := le_trans hlt (by rw [List.length_take]; exact min_le_left _ _)
      rw [min_eq_left hk] at hb
      exact (Option.some.inj hb).symm
  refine ⟨h8 ▸ hd.numbered, ?_, ?_, ?_, ?_, ?_, ?_, ?_, ?_, ?_⟩
  · rw [h1, h8]; exact hd.sen_eq
  · rw [h1, h2]; exact hd.dun_le
  · rw [h2, h3]; exact hd.epo_le
  · rw [h3, h7, h8]; exact hd.old_eq
  · rw [h3, h6, h8, hdur]; exact hd.mdb_eq
  · intro _
    rw [h1, h2, h8, hlen, hbat]
    have := hd.dun_le
    exact ⟨by omega, hwalk⟩
  · rw [h5, h4, h2, h8]; exact hd.put_eq
  · rw [h5, h4, h2, h1, h8]; exact hd.put_torn
  · intro hp
    rw [h4] at hp
    rw [hp] at hb
    exact absurd (batchWalk_length hb) (by simp; omega)

/-- The log of an intact queue always cuts its batch. -/
theorem commit_some {d : Disk} (hd : d.Ok) (ht : d.torn = false) : ∃ d', commit d = some d' := by
  unfold commit batch
  simp only
  split
  · exact ⟨_, rfl⟩
  · have hn := hd.numbered.drop d.dun (by rw [← hd.sen_eq]; exact hd.dun_le)
    have hlen : min ((d.sen - d.dun) % 2 ^ 32) 100 ≤ (d.all.drop d.dun).length := by
      have := Nat.mod_le (d.sen - d.dun) (2 ^ 32)
      rw [List.length_drop, ← hd.sen_eq]
      omega
    rw [Nat.zero_add] at hn
    rw [hd.put_eq ht, hn.batchWalk hlen]
    exact ⟨_, rfl⟩

/-! ### Planning an event -/

/-- The event that `_disk_plan` enqueues. -/
def next (d : Disk) (mug : ℕ) (job : Noun) : Feat := ⟨d.sen + 1, mug, job⟩

/-- Planning leaves everything but the queue alone. -/
theorem plan_frame (d : Disk) (mug : ℕ) (job : Noun) :
    (plan d mug job).sen = d.sen + 1 ∧ (plan d mug job).dun = d.dun ∧
      (plan d mug job).epo = d.epo ∧ (plan d mug job).all = d.all ++ [d.next mug job] ∧
      (plan d mug job).mdb = d.mdb ∧ (plan d mug job).old = d.old ∧
      (plan d mug job).durable = d.durable ∧ (plan d mug job).ted = d.ted ∧
      (plan d mug job).len = d.len ∧ (plan d mug job).bat = d.bat := by
  unfold plan
  simp only
  split
  · exact ⟨rfl, rfl, rfl, rfl, rfl, rfl, rfl, rfl, rfl, rfl⟩
  split
  · exact ⟨rfl, rfl, rfl, rfl, rfl, rfl, rfl, rfl, rfl, rfl⟩
  split <;> exact ⟨rfl, rfl, rfl, rfl, rfl, rfl, rfl, rfl, rfl, rfl⟩

/-- What planning makes of the queue. -/
theorem plan_put (d : Disk) (mug : ℕ) (job : Noun) :
    (d.put = [] ∧ (plan d mug job).put = [d.next mug job] ∧ (plan d mug job).torn = d.torn) ∨
      (d.put ≠ [] ∧ (plan d mug job).put = d.put ∧ (plan d mug job).torn = true ∧
        (d.torn = true ∨ d.skew ≠ 0)) ∨
      (d.put ≠ [] ∧ (plan d mug job).put = d.put ++ [d.next mug job] ∧
        (plan d mug job).torn = false ∧ d.torn = false ∧ d.skew = 0) := by
  unfold plan
  simp only
  split
  · rename_i hp
    exact Or.inl ⟨hp, rfl, rfl⟩
  rename_i hp
  split
  · rename_i ht
    exact Or.inr (Or.inl ⟨hp, rfl, ht, Or.inl ht⟩)
  rename_i ht
  split
  · rename_i hs
    exact Or.inr (Or.inr ⟨hp, rfl, by simpa using ht, by simpa using ht, hs⟩)
  · rename_i hs
    exact Or.inr (Or.inl ⟨hp, rfl, rfl, Or.inr hs⟩)

theorem Ok.torn_put {d : Disk} (h : d.Ok) (hp : d.put = []) : d.torn = false := by
  by_contra ht
  obtain ⟨k, hk, hlt, hput⟩ := h.put_torn (by simpa using ht)
  have h1 : 0 < d.put.length := by
    rw [hput, List.length_take, List.length_drop, ← h.sen_eq]
    omega
  rw [hp] at h1
  cases h1

theorem ok_plan {d : Disk} (hd : d.Ok) (mug : ℕ) (job : Noun) : (plan d mug job).Ok := by
  obtain ⟨h1, h2, h3, h4, h5, h6, h7, h8, h9, h10⟩ := plan_frame d mug job
  have hall : d.dun ≤ d.all.length := by rw [← hd.sen_eq]; exact hd.dun_le
  have hdrop : (d.all ++ [d.next mug job]).drop d.dun = d.all.drop d.dun ++ [d.next mug job] :=
    List.drop_append_of_le_length hall
  refine ⟨?_, ?_, ?_, ?_, ?_, ?_, ?_, ?_, ?_, ?_⟩
  · rw [h4]
    refine hd.numbered.append ⟨?_, trivial⟩
    rw [next, hd.sen_eq, Nat.zero_add]
  · rw [h1, h4, List.length_append, hd.sen_eq]; rfl
  · rw [h1, h2]; exact Nat.le_succ_of_le hd.dun_le
  · rw [h2, h3]; exact hd.epo_le
  · rw [h3, h4, h6, List.take_append_of_le_length (le_trans hd.epo_le hall)]
    exact hd.old_eq
  · rw [h3, h4, h5, h7, List.take_append_of_le_length (by rw [← hd.sen_eq]; exact hd.durable_le)]
    exact hd.mdb_eq
  · rw [h8, h9, h10, h1, h2, h4, hdrop]
    intro ht
    obtain ⟨hl, hb⟩ := hd.bat_eq ht
    refine ⟨by omega, ?_⟩
    rw [List.take_append_of_le_length (by rw [List.length_drop, ← hd.sen_eq]; omega)]
    exact hb
  · intro ht
    rw [h2, h4, hdrop]
    rcases plan_put d mug job with ⟨hp, hp', _⟩ | ⟨_, _, ht', _⟩ | ⟨_, hp', _, ht', _⟩
    · rw [hp', ← hd.put_eq (hd.torn_put hp), hp]
      rfl
    · rw [ht'] at ht; cases ht
    · rw [hp', hd.put_eq ht']
  · intro ht
    rw [h1, h2, h4, hdrop]
    rcases plan_put d mug job with ⟨hp, _, ht'⟩ | ⟨hp, hp', _, hwhy⟩ | ⟨_, _, ht', _⟩
    · rw [ht', hd.torn_put hp] at ht; cases ht
    · cases htorn : d.torn with
      | true =>
        obtain ⟨k, hk, hlt, hput⟩ := hd.put_torn htorn
        refine ⟨k, hk, by omega, ?_⟩
        rw [hp', List.take_append_of_le_length (by rw [List.length_drop, ← hd.sen_eq]; omega)]
        exact hput
      | false =>
        have hlt : d.dun < d.sen :=
          lt_of_le_of_ne hd.dun_le fun he => hp ((hd.put_eq_nil htorn).mpr he)
        refine ⟨d.sen - d.dun, by omega, by omega, ?_⟩
        rw [hp', hd.put_eq htorn, List.take_append_of_le_length, List.take_of_length_le]
        all_goals rw [List.length_drop, ← hd.sen_eq]
    · rw [ht'] at ht; cases ht
  · intro hp
    rcases plan_put d mug job with ⟨_, hp', _⟩ | ⟨hne, hp', _⟩ | ⟨_, hp', _⟩
    · rw [hp'] at hp; cases hp
    · exact absurd (hp'.symm.trans hp) hne
    · rw [hp'] at hp; simp at hp

/-! ### The thread -/

/-- **The batch is written or the table stays.** -/
theorem ok_write {d : Disk} (hd : d.Ok) (ht : d.ted = true) (hr : d.ran = false) (ok : Bool) :
    (d.write ok).Ok ∧ (d.write ok).ret = ok := by
  obtain ⟨hlen, hbat⟩ := hd.bat_eq ht
  have hdun : d.durable = d.dun := by rw [durable, hr]; simp
  have hall : d.dun ≤ d.all.length := by rw [← hd.sen_eq]; exact hd.dun_le
  have hmdb : d.mdb = (d.all.take d.dun).drop d.epo := by rw [← hdun]; exact hd.mdb_eq
  cases ok with
  | false =>
    refine ⟨⟨hd.numbered, hd.sen_eq, hd.dun_le, hd.epo_le, hd.old_eq, ?_, hd.bat_eq, hd.put_eq,
      hd.put_torn, hd.skew_eq⟩, rfl⟩
    have h1 : (d.write false).durable = d.dun := by simp [durable, write]
    rw [h1]
    exact hmdb
  | true =>
    have hnum : Numbered d.epo d.mdb := by
      have h1 := (hd.numbered.take d.dun).drop d.epo
        (by rw [List.length_take, min_eq_left hall]; exact hd.epo_le)
      rw [Nat.zero_add] at h1
      rwa [hmdb]
    have hend : d.epo + d.mdb.length = d.dun := by
      have := hd.epo_le
      rw [hmdb, List.length_drop, List.length_take, min_eq_left hall]
      omega
    have hbnum : Numbered d.dun d.bat := by
      have h1 := hd.numbered.drop d.dun hall
      rw [Nat.zero_add] at h1
      rw [hbat]
      exact h1.take d.len
    have hsave : lmdbSave d.mdb d.bat = some (d.mdb ++ d.bat) := hnum.lmdbSave (by rw [hend]; exact hbnum)
    have hw : d.write true = { d with mdb := d.mdb ++ d.bat, ret := true, ran := true } := by
      simp only [write, if_true, hsave]
    rw [hw]
    refine ⟨⟨hd.numbered, hd.sen_eq, hd.dun_le, hd.epo_le, hd.old_eq, ?_, hd.bat_eq, hd.put_eq,
      hd.put_torn, hd.skew_eq⟩, rfl⟩
    have h1 : durable { d with mdb := d.mdb ++ d.bat, ret := true, ran := true } = d.dun + d.len := by
      simp [durable, ht]
    rw [h1]
    show d.mdb ++ d.bat = (d.all.take (d.dun + d.len)).drop d.epo
    rw [List.take_add, List.drop_append_of_le_length, hmdb, hbat]
    rw [List.length_take, min_eq_left hall]
    exact hd.epo_le

/-- The write leaves the queue and its events alone. -/
theorem write_frame (d : Disk) (ok : Bool) :
    (d.write ok).sen = d.sen ∧ (d.write ok).dun = d.dun ∧ (d.write ok).torn = d.torn ∧
      (d.write ok).all = d.all ∧ (d.write ok).skew = d.skew ∧ (d.write ok).ted = d.ted ∧
      (d.write ok).old = d.old ∧ (d.write ok).epo = d.epo := by
  unfold write
  split <;> exact ⟨rfl, rfl, rfl, rfl, rfl, rfl, rfl, rfl⟩

/-! ### The end of a commit -/

/-- The log once a batch is counted and before its events are freed. -/
structure Counted (d : Disk) (n : ℕ) : Prop where
  numbered : Numbered 0 d.all
  sen_eq : d.sen = d.all.length
  le_dun : n ≤ d.dun
  dun_le : d.dun ≤ d.sen
  epo_le : d.epo ≤ d.dun
  old_eq : d.old = d.all.take d.epo
  mdb_eq : d.mdb = (d.all.take d.dun).drop d.epo
  idle : d.ted = false
  put_eq : d.torn = false → d.put = d.all.drop n
  put_torn : d.torn = true → ∃ k, 0 < k ∧ n + k < d.sen ∧ d.put = (d.all.drop n).take k
  skew_eq : d.put = [] → d.skew = 0

/-- **A batch is counted only when it is in the table.** -/
theorem ok_done {d : Disk} (hd : d.Ok) (ht : d.ted = true) (hr : d.ran = true) :
    (done d).Counted d.dun := by
  obtain ⟨hlen, _⟩ := hd.bat_eq ht
  have hdur : d.durable = (done d).dun := by simp [durable, done, ht, hr]
  have hle : d.dun ≤ (done d).dun := by rw [← hdur]; exact Ok.dun_le_durable
  refine ⟨hd.numbered, hd.sen_eq, hle, ?_, le_trans hd.epo_le hle, hd.old_eq, ?_, rfl, hd.put_eq,
    hd.put_torn, hd.skew_eq⟩
  · rw [← hdur]; exact hd.durable_le
  · rw [← hdur]; exact hd.mdb_eq

/-- Freeing leaves everything but the queue alone. -/
theorem free_frame {d d' : Disk} (h : free d = some d') :
    d'.sen = d.sen ∧ d'.dun = d.dun ∧ d'.torn = d.torn ∧ d'.all = d.all ∧ d'.mdb = d.mdb ∧
      d'.old = d.old ∧ d'.epo = d.epo ∧ d'.ted = d.ted := by
  unfold free at h
  split at h
  · split at h
    · cases h
    · rw [← Option.some.inj h]; exact ⟨rfl, rfl, rfl, rfl, rfl, rfl, rfl, rfl⟩
  · rw [← Option.some.inj h]; exact ⟨rfl, rfl, rfl, rfl, rfl, rfl, rfl, rfl⟩

/-- What freeing makes of the queue. -/
theorem free_put {d d' : Disk} (h : free d = some d') :
    d'.put = d.put.dropWhile (·.eve ≤ d.dun) ∧ (d'.put = [] → d.torn = false ∧ d'.skew = 0) := by
  unfold free at h
  split at h
  · rename_i hp
    split at h
    · cases h
    · rename_i ht
      rw [← Option.some.inj h]
      exact ⟨hp.symm, fun _ => ⟨by simpa using ht, rfl⟩⟩
  · rename_i hp
    rw [← Option.some.inj h]
    exact ⟨hp.symm, fun hn => by cases hn⟩

theorem ok_free {d d' : Disk} {n : ℕ} (hd : d.Counted n) (h : free d = some d') : d'.Ok := by
  obtain ⟨h1, h2, h3, h4, h5, h6, h7, h8⟩ := free_frame h
  obtain ⟨hput, hnil⟩ := free_put h
  have hdun : d'.durable = d.dun := by rw [durable, h8, hd.idle, h2]; simp
  have hlen : n ≤ d.all.length := by
    rw [← hd.sen_eq]; exact le_trans hd.le_dun hd.dun_le
  have hnum : Numbered n (d.all.drop n) := by
    have h9 := hd.numbered.drop n hlen
    rwa [Nat.zero_add] at h9
  have hadd : n + (d.dun - n) = d.dun := Nat.add_sub_cancel' hd.le_dun
  refine ⟨h4 ▸ hd.numbered, ?_, ?_, ?_, ?_, ?_, ?_, ?_, ?_, fun hp => (hnil hp).2⟩
  · rw [h1, h4]; exact hd.sen_eq
  · rw [h1, h2]; exact hd.dun_le
  · rw [h2, h7]; exact hd.epo_le
  · rw [h4, h6, h7]; exact hd.old_eq
  · rw [h4, h5, h7, hdun]; exact hd.mdb_eq
  · rw [h8, hd.idle]; intro ht; cases ht
  · rw [h3, h4, h2]
    intro ht
    rw [hput, hd.put_eq ht, hnum.dropWhile hd.le_dun, List.drop_drop, hadd]
  · rw [h3, h4, h2, h1]
    intro ht
    obtain ⟨k, hk, hlt, hp⟩ := hd.put_torn ht
    have hp' : d'.put = ((d.all.drop d.dun).take (k - (d.dun - n))) := by
      rw [hput, hp, (hnum.take k).dropWhile hd.le_dun, List.drop_take, List.drop_drop, hadd]
    have hne : d'.put ≠ [] := fun hn => by rw [(hnil hn).1] at ht; cases ht
    have hpos : 0 < k - (d.dun - n) := by
      rcases Nat.eq_zero_or_pos (k - (d.dun - n)) with h0 | h0
      · rw [h0, List.take_zero] at hp'; exact absurd hp' hne
      · exact h0
    exact ⟨_, hpos, by omega, hp'⟩

/-- The events of an intact queue are always freed. -/
theorem free_some {d : Disk} (ht : d.torn = false) : ∃ d', free d = some d' := by
  unfold free
  split
  · rw [ht]; exact ⟨_, rfl⟩
  · exact ⟨_, rfl⟩

/-- Freeing and cutting the next batch, of an intact queue. -/
theorem free_commit_some {d : Disk} {n : ℕ} (hd : d.Counted n) (ht : d.torn = false) :
    ∃ d', d.free.bind commit = some d' := by
  obtain ⟨d1, h1⟩ := free_some ht
  have ht1 : d1.torn = false := (free_frame h1).2.2.1.trans ht
  obtain ⟨d2, h2⟩ := commit_some (ok_free hd h1) ht1
  exact ⟨d2, by rw [h1]; exact h2⟩

theorem free_commit_frame {d d' : Disk} {n : ℕ} (hd : d.Counted n) (h : d.free.bind commit = some d') :
    d'.Ok ∧ d'.sen = d.sen ∧ d'.dun = d.dun ∧ d'.torn = d.torn ∧ d'.all = d.all ∧ d'.old = d.old ∧
      d'.epo = d.epo := by
  obtain ⟨d1, h1, h2⟩ := Option.bind_eq_some_iff.mp h
  obtain ⟨a1, a2, a3, a4, a5, a6, a7, a8⟩ := free_frame h1
  obtain ⟨b1, b2, b3, b4, b5, b6, b7, b8⟩ := commit_frame h2
  exact ⟨ok_commit (ok_free hd h1) h2, b1.trans a1, b2.trans a2, b5.trans a3, b8.trans a4,
    b7.trans a6, b3.trans a7⟩

/-- Nothing waits and nothing is in flight. -/
structure Quiet (d : Disk) : Prop where
  ok : d.Ok
  dun : d.dun = d.sen
  torn : d.torn = false
  ted : d.ted = false

theorem Quiet.durable_eq {d : Disk} (h : d.Quiet) : d.durable = d.all.length := by
  rw [durable, h.ted, ← h.ok.sen_eq, ← h.dun]
  simp

/-- The tables hold the first `n` events, the current one those after the epoch. -/
structure Holds (d : Disk) (n : ℕ) : Prop where
  numbered : Numbered 0 d.all
  le : n ≤ d.all.length
  epo_le : d.epo ≤ n
  old_eq : d.old = d.all.take d.epo
  mdb_eq : d.mdb = (d.all.take n).drop d.epo

theorem Ok.holds {d : Disk} (h : d.Ok) : d.Holds d.durable :=
  ⟨h.numbered, by rw [← h.sen_eq]; exact h.durable_le, le_trans h.epo_le Ok.dun_le_durable, h.old_eq,
    h.mdb_eq⟩

/-- **The tables hold the events that are committed**, in order. -/
theorem Holds.tables {d : Disk} {n : ℕ} (h : d.Holds n) : d.old ++ d.mdb = d.all.take n := by
  rw [h.old_eq, h.mdb_eq, List.drop_take, ← List.take_add, Nat.add_sub_cancel' h.epo_le]

theorem Counted.holds {d : Disk} {n : ℕ} (h : d.Counted n) : d.Holds d.dun :=
  ⟨h.numbered, by rw [← h.sen_eq]; exact h.dun_le, h.epo_le, h.old_eq, h.mdb_eq⟩

/-! ### Boot events -/

/-- What `u3_disk_plan_list` leaves: the events are planned, without mugs. -/
structure Planned (d : Disk) (lit : List Noun) : Prop where
  ok : d.Ok
  dun : d.dun = 0
  epo : d.epo = 0
  skew : d.skew = 0
  torn : d.torn = false
  jobs : d.all.map Feat.job = lit
  mugs : ∀ f ∈ d.all, f.mug = 0

theorem planned_new : Planned new [] :=
  ⟨⟨trivial, rfl, le_refl _, le_refl _, rfl, rfl, nofun, fun _ => rfl, nofun, fun _ => rfl⟩, rfl, rfl, rfl,
    rfl, rfl, nofun⟩

theorem Planned.plan {d : Disk} {lit : List Noun} (h : Planned d lit) (i : Noun) :
    Planned (d.plan 0 i) (lit ++ [i]) := by
  obtain ⟨h1, h2, h3, h4, h5, h6, h7, h8, h9, h10⟩ := plan_frame d 0 i
  have hs : (d.plan 0 i).skew = 0 ∧ (d.plan 0 i).torn = false := by
    unfold Disk.plan
    simp only [h.torn, h.skew, if_true, Bool.false_eq_true, if_false]
    split <;> exact ⟨rfl, rfl⟩
  refine ⟨ok_plan h.ok 0 i, h2.trans h.dun, h3.trans h.epo, hs.1, hs.2, ?_, ?_⟩
  · rw [h4, List.map_append, h.jobs]
    rfl
  · rw [h4]
    intro f hf
    rcases List.mem_append.mp hf with hf | hf
    · exact h.mugs f hf
    · rw [List.mem_singleton.mp hf]
      rfl

theorem planned_list {d : Disk} {l : List Noun} (h : Planned d l) : ∀ lit : List Noun,
    Planned (planList d lit) (l ++ lit)
  | [] => by rw [List.append_nil]; exact h
  | i :: lit => by
    have h1 := planned_list (h.plan i) lit
    rw [List.append_assoc] at h1
    exact h1

/-- The size of a batch. -/
theorem batch_len {d d' : Disk} (h : batch d = some (d', true)) :
    d'.len = min ((d.sen - d.dun) % 2 ^ 32) 100 ∧ 0 < d'.len := by
  unfold batch at h
  simp only at h
  split at h
  · cases h
  rename_i hc
  rw [not_or] at hc
  obtain ⟨bat, _, hb⟩ := Option.map_eq_some_iff.mp h
  have h0 : d'.len = min ((d.sen - d.dun) % 2 ^ 32) 100 := by
    rw [← (Prod.mk.inj hb).1]
    unfold bump
    split <;> rfl
  refine ⟨h0, ?_⟩
  have := hc.1
  omega

/-- A synchronous commit is a batch put in flight, written, counted and freed. -/
theorem sync_cases {d d' : Disk} {ok : Bool} (h : sync d ok = some (d', true)) :
    ∃ d1, commit d = some d1 ∧ d1.ted = true ∧ d1.ran = false ∧ (d1.write ok).done.free = some d' ∧
      d1.len = min ((d.sen - d.dun) % 2 ^ 32) 100 ∧ 0 < d1.len := by
  unfold sync at h
  unfold commit
  obtain ⟨⟨d0, b⟩, h1, h2⟩ := Option.bind_eq_some_iff.mp h
  rw [h1]
  cases b with
  | false => simp at h2
  | true =>
    obtain ⟨d2, h3, h4⟩ := Option.map_eq_some_iff.mp h2
    obtain rfl : d2 = d' := (Prod.mk.inj h4).1
    obtain ⟨hl, hp⟩ := batch_len h1
    refine ⟨{ d0 with ted := true, ran := false }, rfl, rfl, rfl, ?_, hl, hp⟩
    rw [← h3]
    congr 1
    unfold write
    simp only
    split <;> rfl

/-- **The boot events that are committed are the first hundred.** -/
theorem sync_planned {d d' : Disk} {lit : List Noun} (h : Planned d lit)
    (hs : sync d true = some (d', true)) :
    d'.Ok ∧ d'.ted = false ∧ d'.epo = 0 ∧ d'.all = d.all ∧ d'.dun = min (lit.length % 2 ^ 32) 100 ∧
      0 < d'.dun := by
  obtain ⟨d1, h1, h2, h3, h4, h5, h6⟩ := sync_cases hs
  have hok := ok_commit h.ok h1
  obtain ⟨hw, hret⟩ := ok_write hok h2 h3 true
  obtain ⟨w1, w2, w3, w4, w5, w6, w7, w8⟩ := write_frame d1 true
  have hran : (d1.write true).ran = true := by
    unfold write
    split <;> rfl
  have hc := ok_done hw (w6.trans h2) hran
  obtain ⟨f1, f2, f3, f4, f5, f6, f7, f8⟩ := free_frame h4
  obtain ⟨c1, c2, c3, c4, c5, c6, c7, c8⟩ := commit_frame h1
  have hlen : (d1.write true).len = d1.len := by
    unfold write
    split <;> rfl
  have hsen : d.sen = lit.length := by rw [h.ok.sen_eq, ← h.jobs, List.length_map]
  have hdun : d'.dun = d1.len := by
    rw [f2]
    show (if (d1.write true).ret = true then _ else _) = _
    rw [if_pos hret, hlen, w2, c2, h.dun, Nat.zero_add]
  refine ⟨ok_free hc h4, f8, ?_, ?_, ?_, by rw [hdun]; exact h6⟩
  · rw [f7]
    show (d1.write true).epo = 0
    rw [w8, c3, h.epo]
  · rw [f4]
    show (d1.write true).all = d.all
    rw [w4, c8]
  · rw [hdun, h5, h.dun, Nat.sub_zero, hsen]

end Disk
end Ursockets
