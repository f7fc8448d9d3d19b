/-
# Epochs

The event log is kept in epochs (`vere/disk.c`). The directory of an epoch holds the snapshot at its start, two
version files, and a database with its events. A load takes the latest epoch, or the one before if the latest is
bogus, which it deletes. A rollover makes the directory of a new epoch, or uses the one that is there, and writes its
files one after another; it can stop at any of them, or fail there and clean up.

The directories are kept with the latest first. An epoch is of the format of this runtime. A
snapshot is the number of its last event and the state after it. `_disk_epoc_kill` deletes all of
an epoch.

Key definitions: `Epoch`, `Pier`, `epocRoll`, `epocOpen`, `select`, `load`, `System`, `step`.
Key theorems: `dun_eq`, `gulf_empty_iff`, `made_keeps`, `made_new`, `made_events`.
-/
import Ursockets.Lib.Replay

namespace Ursockets
namespace Epochs

/-! ### What is on the disk -/

/-- A state, and the number of the event that it is after. -/
structure Snap (σ : Type) where
  eve : ℕ
  state : σ

/-- `image.bin`: a copy that stopped midway is torn. -/
inductive Image (σ : Type) where
  | whole (snap : Snap σ)
  | torn

/-- `data.mdb`: whether the metadata is saved, and the events after the epoch's number. -/
structure Db (ε : Type) where
  saved : Bool
  events : List ε

/-- An epoch's directory: `image.bin`, whether there is an `epoc.txt`, `vere.txt`, and `data.mdb`. -/
structure Epoch (σ ε V : Type) where
  image : Option (Image σ)
  epoc : Bool
  vere : Option V
  db : Option (Db ε)

/-- The epochs by their numbers. -/
abbrev Dirs (σ ε V : Type) := List (ℕ × Epoch σ ε V)

/-- A pier: its epochs, and the snapshot in `chk`, which is the first state's where there is none. -/
structure Pier (σ ε V : Type) where
  epochs : Dirs σ ε V
  chk : Image σ

variable {σ ε V : Type}

/-- A directory with nothing in it. -/
def Epoch.new : Epoch σ ε V := ⟨none, false, none, none⟩

def Epoch.events (x : Epoch σ ε V) : List ε := (x.db.map Db.events).getD []

/-- `u3_disk_read_meta`. -/
def Epoch.saved (x : Epoch σ ε V) : Bool := (x.db.map Db.saved).getD false

def Epoch.isEmpty (x : Epoch σ ε V) : Bool := x.image.isNone && !x.epoc && x.vere.isNone && x.db.isNone

/-- `u3_lmdb_gulf`: the first and the last event. -/
def gulf (n : ℕ) (x : Epoch σ ε V) : ℕ × ℕ := if x.events.isEmpty then (0, 0) else (n + 1, n + x.events.length)

/-- The last event that was committed, or the epoch's number. -/
def dun (n : ℕ) (x : Epoch σ ε V) : ℕ := if (gulf n x).2 ≠ 0 then (gulf n x).2 else n

/-! ### Directories -/

def mkdir (n : ℕ) : Dirs σ ε V → Dirs σ ε V
  | [] => [(n, .new)]
  | (m, x) :: es => if m < n then (n, .new) :: (m, x) :: es else if m = n then (m, x) :: es else (m, x) :: mkdir n es

/-- Files in a directory are written. -/
def write (n : ℕ) (f : Epoch σ ε V → Epoch σ ε V) (es : Dirs σ ε V) : Dirs σ ε V :=
  es.map fun p => if p.1 = n then (p.1, f p.2) else p

/-- Only an empty directory is removed. -/
def rmdir (n : ℕ) (es : Dirs σ ε V) : Dirs σ ε V := es.filter fun p => ¬ (p.1 = n ∧ p.2.isEmpty)

/-! ### A rollover -/

/-- Where a rollover stops: the runtime stops after so many steps, or the copy of the snapshot
cannot be opened, or made, or the directory synced, or one of the files after that written. -/
inductive Fault where
  | none
  | crash (steps : ℕ)
  | unopened
  | copy
  | sync
  | files (steps : ℕ)
  deriving DecidableEq

/-- The files that a rollover writes, in order: the copy of the snapshot, which is torn at first,
`epoc.txt`, `vere.txt`, the database, if there is none, and the metadata. -/
def rollSteps (snap : Snap σ) (ver : V) : List (Epoch σ ε V → Epoch σ ε V) :=
  [fun x => { x with image := some .torn }, fun x => { x with image := some (.whole snap) },
    fun x => { x with epoc := true },
    fun x => { x with vere := some ver }, fun x => { x with db := some (x.db.getD ⟨false, []⟩) },
    fun x => { x with db := x.db.map fun db => { db with saved := true } }]

/-- The first of them. -/
def made (snap : Snap σ) (ver : V) (steps : ℕ) (x : Epoch σ ε V) : Epoch σ ε V :=
  ((rollSteps snap ver).take steps).foldl (fun x f => f x) x

/-- `_disk_epoc_roll`. A failure unlinks the copy or the version files, and removes the directory if it is empty. -/
def epocRoll (n : ℕ) (snap : Snap σ) (ver : V) (fault : Fault) (es : Dirs σ ε V) : Bool × Dirs σ ε V :=
  if n = 0 then (false, es)
  else match fault with
    | .none => (true, write n (made snap ver 6) (mkdir n es))
    | .crash 0 => (false, es)
    | .crash (k + 1) => (false, write n (made snap ver k) (mkdir n es))
    | .unopened => (false, rmdir n (mkdir n es))
    | .copy => (false, rmdir n (write n (fun x => { x with image := none }) (mkdir n es)))
    | .sync => (false, rmdir n (write n (made snap ver 2) (mkdir n es)))
    | .files k =>
      (false, rmdir n (write n (fun x => { made snap ver (2 + k) x with epoc := false, vere := none }) (mkdir n es)))

/-! ### A load -/

/-- `u3_dlod_last`, or `u3_dlod_epoc` for a full replay. -/
inductive Mode where
  | last
  | epoc
  deriving DecidableEq

/-- What `_disk_epoc_load` comes to before versions are compared: `_epoc_gone` or `_epoc_void`, an
exit with the snapshot that is left, or the snapshot that was booted. -/
inductive Kind (σ : Type) where
  | bogus
  | exit (chk : Image σ)
  | good (snap : Snap σ)

/-- There is no version file, or no event and no metadata. -/
def Epoch.bogus (x : Epoch σ ε V) : Bool := !x.epoc || (x.events.isEmpty && !x.saved)

/-- The snapshot that is booted: for a full replay that of the epoch is copied, if there is one, or the first state is
used. -/
def bootImage (root : σ) (mode : Mode) (n : ℕ) (x : Epoch σ ε V) (chk : Image σ) : Option (Image σ) :=
  match mode with
  | .last => some chk
  | .epoc => if n = 0 then some (.whole ⟨0, root⟩) else x.image

/-- `_disk_epoc_load` up to the comparison of versions. -/
def epocOpen (root : σ) (mode : Mode) (n : ℕ) (x : Epoch σ ε V) (chk : Image σ) : Kind σ :=
  if x.bogus then .bogus
  else match bootImage root mode n x chk with
    | none => .exit chk
    | some .torn => .exit .torn
    | some (.whole snap) => if dun n x < snap.eve ∨ snap.eve < n then .exit (.whole snap) else .good snap

/-- The epoch that is loaded, and `u3A`. -/
structure Run (σ : Type) where
  epo : ℕ
  snap : Snap σ

/-- `u3_disk_load` up to the comparison of versions. -/
def select (root : σ) (mode : Mode) (p : Pier σ ε V) : Pier σ ε V × Option (Run σ) :=
  match p.epochs with
  | [] => (p, none)
  | (n, x) :: es =>
    match epocOpen root mode n x p.chk with
    | .good snap => ({ p with chk := .whole snap }, some ⟨n, snap⟩)
    | .exit chk => ({ p with chk := chk }, none)
    | .bogus =>
      match es with
      | [] => (p, none)
      | (m, y) :: fs =>
        match epocOpen root mode m y p.chk with
        | .good snap => (⟨(m, y) :: fs, .whole snap⟩, some ⟨m, snap⟩)
        | .exit chk => (⟨(m, y) :: fs, chk⟩, none)
        | .bogus => ({ p with epochs := (m, y) :: fs }, none)

variable [DecidableEq V]

/-- The rest of a load, by a runtime of some version: a rollover, if that is not the epoch's. -/
def finish (ver : V) (yolo : Bool) (fault : Fault) (p : Pier σ ε V) (r : Run σ) : Pier σ ε V × Option (Run σ) :=
  match p.epochs with
  | [] => (p, none)
  | (n, x) :: _ =>
    if yolo ∨ (n = 0 ∧ dun n x ≠ 0 ∧ r.snap.eve = 0) ∨ x.vere = some ver then (p, some r)
    else if dun n x ≠ r.snap.eve then (p, none)
    else
      let (ok, es) := epocRoll (dun n x) r.snap ver fault p.epochs
      ({ p with epochs := es }, if ok then some ⟨dun n x, r.snap⟩ else none)

/-- `u3_disk_load`. -/
def load (root : σ) (mode : Mode) (ver : V) (yolo : Bool) (fault : Fault) (p : Pier σ ε V) :
    Pier σ ε V × Option (Run σ) :=
  match select root mode p with
  | (p, none) => (p, none)
  | (p, some r) => finish ver yolo fault p r

/-! ### The system -/

/-- A pier, what is running on it, and all events that were committed. -/
structure System (σ ε V : Type) where
  pier : Pier σ ε V
  run : Option (Run σ)
  log : List ε

/-- A load, an event that is replayed or committed, a snapshot, a stop or a crash, a manual roll, or a chop. -/
inductive Event (ε V : Type) where
  | load (mode : Mode) (ver : V) (yolo : Bool) (fault : Fault)
  | play
  | commit (event : ε)
  | save
  | stop
  | roll (ver : V) (fault : Fault)
  | chop

/-- `u3_disk_roll`, after a snapshot is saved or loaded. -/
def diskRoll (ver : V) (fault : Fault) (p : Pier σ ε V) (r : Run σ) : Pier σ ε V × Option (Run σ) :=
  match p.epochs with
  | [] => (p, none)
  | (n, x) :: _ =>
    if (gulf n x).1 = (gulf n x).2 then (p, none)
    else if r.snap.eve ≠ (gulf n x).2 then (p, none)
    else
      let (ok, es) := epocRoll r.snap.eve r.snap ver fault p.epochs
      ({ p with epochs := es }, if ok then some ⟨r.snap.eve, r.snap⟩ else none)

/-- `u3_disk_chop`. -/
def diskChop (p : Pier σ ε V) : Pier σ ε V := if p.epochs.length ≤ 2 then p else { p with epochs := p.epochs.take 2 }

/-- A pier that was made, by a runtime of version `ver`. -/
def System.init (root : σ) (ver : V) : System σ ε V :=
  ⟨⟨[(0, ⟨none, true, some ver, some ⟨true, []⟩⟩)], .whole ⟨0, root⟩⟩, none, []⟩

/-- One event, where it can come. -/
def step (turn : σ → ε → Option σ) (root : σ) (s : System σ ε V) (e : Event ε V) : Option (System σ ε V) :=
  match e, s.run, s.pier.epochs with
  | .load mode ver yolo fault, none, _ =>
    some { s with pier := (load root mode ver yolo fault s.pier).1, run := (load root mode ver yolo fault s.pier).2 }
  | .play, some r, (n, x) :: _ =>
    x.events[r.snap.eve - n]?.bind fun event => (turn r.snap.state event).map fun a =>
      { s with run := some { r with snap := ⟨r.snap.eve + 1, a⟩ } }
  | .commit event, some r, (n, x) :: es =>
    if r.snap.eve = dun n x then
      (turn r.snap.state event).map fun a =>
        ⟨{ s.pier with
            epochs := (n, { x with db := x.db.map fun db => { db with events := db.events ++ [event] } }) :: es },
          some { r with snap := ⟨r.snap.eve + 1, a⟩ }, s.log ++ [event]⟩
    else none
  | .save, some r, _ => some { s with pier := { s.pier with chk := .whole r.snap } }
  | .stop, _, _ => some { s with run := none }
  | .roll ver fault, some r, _ =>
    let p := { s.pier with chk := .whole r.snap }
    some { s with pier := (diskRoll ver fault p r).1, run := (diskRoll ver fault p r).2 }
  | .chop, some _, _ => some { s with pier := diskChop s.pier, run := none }
  | _, _, _ => none

/-! ### Files -/

omit [DecidableEq V]

variable {n : ℕ} {x : Epoch σ ε V} {snap : Snap σ} {ver : V} {k : ℕ} {es : Dirs σ ε V}

theorem dun_eq : dun n x = n + x.events.length := by
  unfold dun gulf
  cases h : x.events with
  | nil => simp
  | cons e l => simp

theorem gulf_last (h : x.events ≠ []) : (gulf n x).2 = n + x.events.length := by
  unfold gulf
  rw [if_neg (by simpa using h)]

/-- The database is taken for empty if it is, and if there is one event in it. -/
theorem gulf_empty_iff : (gulf n x).1 = (gulf n x).2 ↔ x.events.length ≤ 1 := by
  unfold gulf
  cases h : x.events with
  | nil => simp
  | cons e l =>
    rw [List.isEmpty_cons, if_neg Bool.false_ne_true, List.length_cons]
    dsimp only
    omega

/-- What every step of a rollover keeps is kept wherever it stops. -/
theorem made_keeps (P : Epoch σ ε V → Prop) (hx : P x) (htorn : ∀ y, P y → P { y with image := some .torn })
    (hwhole : ∀ y, P y → P { y with image := some (.whole snap) }) (hepoc : ∀ y, P y → P { y with epoc := true })
    (hvere : ∀ y, P y → P { y with vere := some ver })
      (hdb : ∀ y, P y → P { y with db := some (y.db.getD ⟨false, []⟩) })
    (hsaved : ∀ y, P y → P { y with db := y.db.map fun db => { db with saved := true } }) : P (made snap ver k x) := by
  have hs : ∀ f ∈ rollSteps snap ver, ∀ y, P y → P (f y) :=
    List.forall_mem_cons.mpr ⟨htorn, List.forall_mem_cons.mpr ⟨hwhole, List.forall_mem_cons.mpr ⟨hepoc,
      List.forall_mem_cons.mpr ⟨hvere, List.forall_mem_cons.mpr ⟨hdb, List.forall_mem_singleton.mpr hsaved⟩⟩⟩⟩⟩
  unfold made
  generalize hl : (rollSteps snap ver).take k = l
  have hmem : ∀ f ∈ l, f ∈ rollSteps snap ver := fun f hf => List.mem_of_mem_take (hl ▸ hf)
  clear hl
  induction l generalizing x with
  | nil => exact hx
  | cons f l ih => exact ih (hs f (hmem f List.mem_cons_self) x hx) fun g hg => hmem g (List.mem_cons_of_mem f hg)

theorem made_full (h : 6 ≤ k) (x : Epoch σ ε V) : made snap ver k x = made snap ver 6 x := by
  unfold made
  rw [List.take_of_length_le (show (rollSteps (ε := ε) snap ver).length ≤ k from h)]
  rfl

/-- A rollover into a new directory is bogus until it is through. -/
theorem made_new (h : k < 6) : (made snap ver k (.new : Epoch σ ε V)).bogus = true := by
  match k, h with
  | 0, _ | 1, _ | 2, _ | 3, _ | 4, _ | 5, _ => rfl

/-- A rollover writes no event. -/
theorem made_events : (made snap ver k x).events = x.events := by
  refine made_keeps (fun y => y.events = x.events) rfl (fun _ h => h) (fun _ h => h) (fun _ h => h) (fun _ h => h)
    (fun y h => ?_) fun y h => ?_
  · rw [← h]
    unfold Epoch.events
    cases y.db <;> rfl
  · rw [← h]
    unfold Epoch.events
    cases y.db <;> rfl

/-- A rollover into a directory that is there keeps its metadata. -/
theorem made_saved (hx : x.saved = true) : (made snap ver k x).saved = true := by
  refine made_keeps (fun y => y.saved = true) hx (fun _ h => h) (fun _ h => h) (fun _ h => h) (fun _ h => h)
    (fun y h => ?_) fun y h => ?_
  all_goals
    unfold Epoch.saved at h ⊢
    cases hdb : y.db with
    | none =>
      rw [hdb] at h
      exact absurd h Bool.false_ne_true
    | some db =>
      rw [hdb] at h
      first | exact h | rfl

theorem made_epoc (hx : x.epoc = true) : (made snap ver k x).epoc = true :=
  made_keeps (fun y => y.epoc = true) hx (fun _ h => h) (fun _ h => h) (fun _ _ => rfl) (fun _ h => h) (fun _ h => h)
    fun _ h => h

/-- The copy in the epoch, where it is whole, is what it was or what was copied. -/
theorem made_image {c : Snap σ} (P : Snap σ → Prop) (hx : ∀ c, x.image = some (.whole c) → P c) (hsnap : P snap)
    (h : (made snap ver k x).image = some (.whole c)) : P c := by
  refine made_keeps (fun y => ∀ c, y.image = some (.whole c) → P c) hx (fun _ _ c hc => ?_) (fun _ _ c hc => ?_)
    (fun _ h => h) (fun _ h => h) (fun _ h => h) (fun _ h => h) c h
  · have h : Image.torn = Image.whole c := Option.some.inj hc
    cases h
  · obtain rfl := Image.whole.inj (Option.some.inj hc)
    exact hsnap

end Epochs
end Ursockets
