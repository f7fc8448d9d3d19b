/-
# Files, programs of file operations, and crashes

A file is what is durable of it and the changes made since it was last
synced. A crash may lose any of those changes, and tear any write: what
survives of it is any bytes, no more of them than it wrote, at its offset
(`Survives`). A sync makes the content durable. Names are created and
removed at once and in order.

A program (`Prog`) reads the disk and performs operations in order; it may
also stop early (an assertion, an exit). A crash can come after any prefix
of its operations (`CrashAt`). What holds of the disk at every such point is
proved along the program (`Always`), a rule for each way programs are put
together.

Key definitions: `pwrite`, `ftruncate`, `Survives`, `Prog`, `Always`, `CrashAt`.
Key theorems: `getD_pwrite`, `getD_ftruncate`, `Crash.synced`, `always_append`.
-/
import Mathlib.Algebra.Group.Defs
import Mathlib.Data.List.GetD
import Mathlib.Logic.Function.Basic
import Mathlib.Tactic.Set

namespace CrashFs

variable {α β γ ν : Type} [Zero α]

/-! ### Contents -/

/-- Two contents of one length that read the same are the same. -/
theorem ext_getD {a b : List α} (hl : a.length = b.length) (h : ∀ i, a.getD i 0 = b.getD i 0) :
    a = b := by
  refine List.ext_getElem hl fun i hi hi' => ?_
  have := h i
  rwa [List.getD_eq_getElem _ _ hi, List.getD_eq_getElem _ _ hi'] at this

/-- Write `data` at `off`; a gap before it reads as zeros. An empty write
changes nothing. -/
def pwrite (off : ℕ) (data b : List α) : List α :=
  if data = [] then b
  else b.take off ++ List.replicate (off - b.length) 0 ++ data ++ b.drop (off + data.length)

/-- Cut the content to `n` bytes, or extend it with zeros to them. -/
def ftruncate (n : ℕ) (b : List α) : List α :=
  b.take n ++ List.replicate (n - b.length) 0

/-- Read up to `n` bytes at `off`; fewer at the end of the file. -/
def pread (n off : ℕ) (b : List α) : List α := (b.drop off).take n

theorem length_pwrite {off : ℕ} {data : List α} (b : List α) (h : data ≠ []) :
    (pwrite off data b).length = max b.length (off + data.length) := by
  simp only [pwrite, if_neg h, List.length_append, List.length_take, List.length_replicate,
    List.length_drop]
  omega

theorem getD_pwrite (off : ℕ) (data b : List α) (i : ℕ) :
    (pwrite off data b).getD i 0 =
      if off ≤ i ∧ i < off + data.length then data.getD (i - off) 0 else b.getD i 0 := by
  by_cases hd : data = []
  · have : ¬ (off ≤ i ∧ i < off + data.length) := by
      rw [hd, List.length_nil]; omega
    rw [if_neg this, pwrite, if_pos hd]
  have hlen : (b.take off ++ List.replicate (off - b.length) 0).length = off := by
    simp only [List.length_append, List.length_take, List.length_replicate]; omega
  simp only [pwrite, if_neg hd, List.getD_eq_getElem?_getD]
  rw [List.append_assoc (b.take off ++ _)]
  rcases Nat.lt_or_ge i off with h1 | h1
  · rw [List.getElem?_append_left (by omega), if_neg (by omega)]
    rcases Nat.lt_or_ge i b.length with h2 | h2
    · rw [List.getElem?_append_left (by rw [List.length_take]; omega), List.getElem?_take_of_lt h1]
    · rw [List.getElem?_append_right (by rw [List.length_take]; omega), List.getElem?_replicate,
        if_pos (by rw [List.length_take]; omega), List.getElem?_eq_none h2]
      rfl
  · rw [List.getElem?_append_right (by omega), hlen]
    rcases Nat.lt_or_ge i (off + data.length) with h2 | h2
    · rw [List.getElem?_append_left (by omega), if_pos ⟨h1, h2⟩]
    · rw [List.getElem?_append_right (by omega), if_neg (by omega), List.getElem?_drop]
      congr 2; omega

/-- A write at the end appends. -/
theorem pwrite_length {data : List α} (b : List α) (h : data ≠ []) :
    pwrite b.length data b = b ++ data := by
  rw [pwrite, if_neg h, List.take_length, Nat.sub_self, List.replicate_zero, List.append_nil,
    List.drop_of_length_le (by omega), List.append_nil]

theorem length_ftruncate (n : ℕ) (b : List α) : (ftruncate n b).length = n := by
  simp only [ftruncate, List.length_append, List.length_take, List.length_replicate]
  omega

theorem getD_ftruncate (n : ℕ) (b : List α) (i : ℕ) :
    (ftruncate n b).getD i 0 = if i < n then b.getD i 0 else 0 := by
  have hl := length_ftruncate n b
  simp only [List.getD_eq_getElem?_getD]
  rcases Nat.lt_or_ge i n with h1 | h1
  · rw [if_pos h1, ftruncate]
    rcases Nat.lt_or_ge i b.length with h2 | h2
    · rw [List.getElem?_append_left (by rw [List.length_take]; omega), List.getElem?_take_of_lt h1]
    · rw [List.getElem?_append_right (by rw [List.length_take]; omega), List.getElem?_replicate,
        if_pos (by rw [List.length_take]; omega), List.getElem?_eq_none h2]
      rfl
  · rw [if_neg (by omega), List.getElem?_eq_none (by omega)]
    rfl

/-! ### Files -/

/-- A change to a file's content. -/
inductive Change (α : Type) where
  | pwrite (off : ℕ) (data : List α)
  | ftruncate (n : ℕ)

def Change.apply : Change α → List α → List α
  | .pwrite off data, b => CrashFs.pwrite off data b
  | .ftruncate n, b => CrashFs.ftruncate n b

@[simp] theorem Change.apply_pwrite (off : ℕ) (data b : List α) :
    (Change.pwrite off data).apply b = CrashFs.pwrite off data b := rfl

@[simp] theorem Change.apply_ftruncate (n : ℕ) (b : List α) :
    (Change.ftruncate n).apply b = CrashFs.ftruncate n b := rfl

/-- A file: its durable content, and the changes since, oldest first. -/
structure File (α : Type) where
  dur : List α
  pend : List (Change α)

namespace File

/-- What a read of the file sees. -/
def cur (f : File α) : List α := f.pend.foldl (fun b c => c.apply b) f.dur

def change (f : File α) (c : Change α) : File α := { f with pend := f.pend ++ [c] }

def sync (f : File α) : File α := ⟨f.cur, []⟩

@[simp] theorem cur_change (f : File α) (c : Change α) : (f.change c).cur = c.apply f.cur := by
  simp [cur, change]

@[simp] theorem cur_sync (f : File α) : f.sync.cur = f.cur := rfl

@[simp] theorem cur_mk_nil (b : List α) : (⟨b, []⟩ : File α).cur = b := rfl

end File

/-- What a crash may leave of a content `b` with unsynced changes: each change
is made, lost, or, a write, torn. -/
inductive Survives : List (Change α) → List α → List α → Prop
  | nil (b : List α) : Survives [] b b
  | lost {c : Change α} {cs : List (Change α)} {b b' : List α} :
      Survives cs b b' → Survives (c :: cs) b b'
  | made {c : Change α} {cs : List (Change α)} {b b' : List α} :
      Survives cs (c.apply b) b' → Survives (c :: cs) b b'
  | torn {off : ℕ} {data data' : List α} {cs : List (Change α)} {b b' : List α} :
      data'.length ≤ data.length → Survives cs (pwrite off data' b) b' →
      Survives (.pwrite off data :: cs) b b'

theorem survives_nil {b b' : List α} (h : Survives [] b b') : b' = b := by
  cases h; rfl

theorem survives_all : ∀ (cs : List (Change α)) (b : List α),
    Survives cs b (cs.foldl (fun b c => c.apply b) b)
  | [], b => .nil b
  | c :: cs, b => .made (survives_all cs (c.apply b))

/-! ### Disks and operations -/

/-- The files by name. -/
abbrev Disk (ν α : Type) := ν → Option (File α)

/-- The disk a crash leaves: every file is there as before, with what
survives of its content. -/
def Crash (d d' : Disk ν α) : Prop :=
  ∀ n, match d n with
    | none => d' n = none
    | some f => ∃ b, Survives f.pend f.dur b ∧ d' n = some ⟨b, []⟩

theorem Crash.absent {d d' : Disk ν α} (h : Crash d d') {n : ν} (hn : d n = none) : d' n = none := by
  have := h n
  rwa [hn] at this

theorem Crash.present {d d' : Disk ν α} (h : Crash d d') {n : ν} {f : File α} (hn : d n = some f) :
    ∃ b, Survives f.pend f.dur b ∧ d' n = some ⟨b, []⟩ := by
  have := h n
  rwa [hn] at this

/-- A synced file survives as it is. -/
theorem Crash.synced {d d' : Disk ν α} (h : Crash d d') {n : ν} {b : List α}
    (hn : d n = some ⟨b, []⟩) : d' n = some ⟨b, []⟩ := by
  obtain ⟨b', hb, he⟩ := h.present hn
  rw [he, survives_nil hb]

/-- A crash with nothing lost. -/
def settled (d : Disk ν α) : Disk ν α := fun n => (d n).map File.sync

theorem crash_settled (d : Disk ν α) : Crash d (settled d) := by
  intro n
  cases h : d n with
  | none => simp [settled, h]
  | some f => exact ⟨f.cur, survives_all _ _, by simp [settled, h, File.sync]⟩

/-- An operation on the disk. -/
inductive Op (ν α : Type) where
  | creat (n : ν)
  | unlink (n : ν)
  | change (n : ν) (c : Change α)
  | fsync (n : ν)

variable [DecidableEq ν]

def Op.apply : Op ν α → Disk ν α → Disk ν α
  | .creat n, d => Function.update d n (some ⟨[], []⟩)
  | .unlink n, d => Function.update d n none
  | .change n c, d => Function.update d n ((d n).map (·.change c))
  | .fsync n, d => Function.update d n ((d n).map (·.sync))

/-- The disk after a list of operations. -/
def applyAll (d : Disk ν α) (l : List (Op ν α)) : Disk ν α := l.foldl (fun d o => o.apply d) d

@[simp] theorem applyAll_nil (d : Disk ν α) : applyAll d [] = d := rfl

@[simp] theorem applyAll_cons (d : Disk ν α) (o : Op ν α) (l : List (Op ν α)) :
    applyAll d (o :: l) = applyAll (o.apply d) l := rfl

theorem applyAll_append (d : Disk ν α) (l l' : List (Op ν α)) :
    applyAll d (l ++ l') = applyAll (applyAll d l) l' := by
  simp [applyAll]

/-- The file an operation is about. -/
def Op.name : Op ν α → ν
  | .creat n | .unlink n | .change n _ | .fsync n => n

theorem apply_of_ne (o : Op ν α) (d : Disk ν α) {n : ν} (h : n ≠ o.name) : o.apply d n = d n := by
  cases o <;> exact Function.update_of_ne h _ _

/-- Operations about other files leave a file alone. -/
theorem applyAll_of_ne {n : ν} : ∀ (l : List (Op ν α)) (d : Disk ν α), (∀ o ∈ l, n ≠ o.name) →
    applyAll d l n = d n
  | [], _, _ => rfl
  | o :: l, d, h => by
    rw [applyAll_cons, applyAll_of_ne l _ fun o' ho' => h o' (List.mem_cons_of_mem _ ho'),
      apply_of_ne o d (h o List.mem_cons_self)]

/-- Changes to a file, one after the other. -/
theorem applyAll_changes (n : ν) : ∀ (cs : List (Change α)) (d : Disk ν α) (f : File α),
    d n = some f → applyAll d (cs.map (.change n)) n = some ⟨f.dur, f.pend ++ cs⟩
  | [], d, f, h => by simpa using h
  | c :: cs, d, f, h => by
    rw [List.map_cons, applyAll_cons,
      applyAll_changes n cs _ (f.change c) (by simp [Op.apply, h])]
    simp [File.change]

/-- A file that is there stays there unless it is unlinked. -/
theorem isSome_applyAll {n : ν} : ∀ (l : List (Op ν α)) (d : Disk ν α), (d n).isSome →
    (∀ o ∈ l, o ≠ .unlink n) → (applyAll d l n).isSome
  | [], _, h, _ => h
  | o :: l, d, h, hl => by
    refine isSome_applyAll l _ ?_ fun o' ho' => hl o' (List.mem_cons_of_mem _ ho')
    by_cases hn : n = o.name
    · cases o with
      | creat m => subst hn; simp [Op.apply]
      | unlink m => exact absurd (by rw [hn]; rfl) (hl _ List.mem_cons_self)
      | change m c => subst hn; simpa [Op.apply, Op.name] using h
      | fsync m => subst hn; simpa [Op.apply, Op.name] using h
    · show (o.apply d n).isSome
      rwa [apply_of_ne o d hn]

/-! ### Programs -/

/-- A program: from the disk it starts on, the operations it performs in
order and its result, none if it stops. -/
def Prog (ν α β : Type) := Disk ν α → List (Op ν α) × Option β

namespace Prog

def bind (p : Prog ν α β) (f : β → Prog ν α γ) : Prog ν α γ := fun d =>
  match p d with
  | (l, none) => (l, none)
  | (l, some a) => (l ++ (f a (applyAll d l)).1, (f a (applyAll d l)).2)

instance : Monad (Prog ν α) where
  pure a := fun _ => ([], some a)
  bind := bind

/-- Perform one operation. -/
def perform (o : Op ν α) : Prog ν α Unit := fun _ => ([o], some ())

/-- Read a file. -/
def look (n : ν) : Prog ν α (Option (File α)) := fun d => ([], some (d n))

/-- Stop: a failed assertion, or an exit. -/
def halt : Prog ν α β := fun _ => ([], none)

@[simp] theorem pure_run (a : β) (d : Disk ν α) : (pure a : Prog ν α β) d = ([], some a) := rfl

omit [Zero α] [DecidableEq ν] in
@[simp] theorem perform_run (o : Op ν α) (d : Disk ν α) : perform o d = ([o], some ()) := rfl

omit [Zero α] [DecidableEq ν] in
@[simp] theorem look_run (n : ν) (d : Disk ν α) : look n d = ([], some (d n)) := rfl

omit [Zero α] [DecidableEq ν] in
@[simp] theorem halt_run (d : Disk ν α) : (halt : Prog ν α β) d = ([], none) := rfl

theorem bind_run (p : Prog ν α β) (f : β → Prog ν α γ) (d : Disk ν α) : (p >>= f) d =
    match p d with
    | (l, none) => (l, none)
    | (l, some a) => (l ++ (f a (applyAll d l)).1, (f a (applyAll d l)).2) := rfl

/-- A program that goes on, then the next. -/
theorem bind_some {p : Prog ν α β} {f : β → Prog ν α γ} {d : Disk ν α} {l : List (Op ν α)} {a : β}
    (h : p d = (l, some a)) :
    (p >>= f) d = (l ++ (f a (applyAll d l)).1, (f a (applyAll d l)).2) := by
  rw [bind_run, h]

theorem bind_none {p : Prog ν α β} {f : β → Prog ν α γ} {d : Disk ν α} {l : List (Op ν α)}
    (h : p d = (l, none)) : (p >>= f) d = (l, none) := by
  rw [bind_run, h]

/-- The disk when the program is over. -/
def after (p : Prog ν α β) (d : Disk ν α) : Disk ν α := applyAll d (p d).1

end Prog

/-- A crash after the first `k` operations of the program. -/
def CrashAt (p : Prog ν α β) (d : Disk ν α) (k : ℕ) (d' : Disk ν α) : Prop :=
  Crash (applyAll d ((p d).1.take k)) d'

/-! ### What holds at every crash point -/

/-- `P` holds of the disk before, between and after the operations. -/
def Always (P : Disk ν α → Prop) (d : Disk ν α) (l : List (Op ν α)) : Prop :=
  ∀ k, P (applyAll d (l.take k))

theorem always_nil {P : Disk ν α → Prop} {d : Disk ν α} (h : P d) : Always P d [] := by
  intro k
  simpa using h

theorem always_cons {P : Disk ν α → Prop} {d : Disk ν α} {o : Op ν α} {l : List (Op ν α)}
    (h : P d) (hl : Always P (o.apply d) l) : Always P d (o :: l) := by
  intro k
  cases k with
  | zero => simpa using h
  | succ k => simpa using hl k

theorem always_append {P : Disk ν α → Prop} {d : Disk ν α} {l l' : List (Op ν α)}
    (h : Always P d l) (h' : Always P (applyAll d l) l') : Always P d (l ++ l') := by
  intro k
  rw [List.take_append, applyAll_append]
  by_cases hk : k ≤ l.length
  · have : k - l.length = 0 := by omega
    rw [this, List.take_zero]
    exact h k
  · rw [List.take_of_length_le (by omega)]
    exact h' _

theorem Always.mono {P Q : Disk ν α → Prop} {d : Disk ν α} {l : List (Op ν α)}
    (hPQ : ∀ d, P d → Q d) (h : Always P d l) : Always Q d l := fun k => hPQ _ (h k)

/-- What each operation of a list keeps, holds throughout. -/
theorem always_of_step {P : Disk ν α → Prop} : ∀ (l : List (Op ν α)) (d : Disk ν α), P d →
    (∀ o ∈ l, ∀ d, P d → P (o.apply d)) → Always P d l
  | [], _, h, _ => always_nil h
  | o :: l, d, h, hl => always_cons h (always_of_step l _ (hl o List.mem_cons_self d h)
      fun o' ho' => hl o' (List.mem_cons_of_mem _ ho'))

end CrashFs
