/-
# What the controller releases

The controller of `vere/lord.c` with its memory: a writ is made for each task and freed when it is
answered, its ovum or its peek given back with it, and all that is outstanding is freed when the
controller bails. A plea takes the writ at the head of the queue before it is looked at. What was taken
is lost where the plea turns out to be foul or of another kind, a quiz is answered and its writ kept, the
record of a peek is not freed with its writ, and a missing writ is read.

Key definitions: `Slot`, `Controller`, `lordBail`, `writNeed`, `onPlea`, `Event`, `Right`, `PleaFits`.
Key theorems: `bail_even_iff`, `pleaWork_right`, `pleaPeek_right`, `pleaLive_right`, `pleaQuiz_wrong`, `onPlea_right`,
`pleas_right_iff`.
-/
import Ursockets.Lib.Replay
import Ursockets.Lord

namespace Ursockets
namespace LordBail

open Mars (poke peek live quiz sync)

def ripe : ℕ := 0x65706972

def slog : ℕ := 0x676f6c73

def flog : ℕ := 0x676f6c66

/-! ### Writs and what they hold -/

/-- A writ of the queue; of a peek, whether it is of `u3_pico_once`. -/
structure Slot where
  id : ℕ
  wit : Writ
  once : Bool

/-- What is allocated for a writ: the writ, the record of its peek, and its ovum. -/
inductive Obj where
  | writ (id : ℕ)
  | peek (id : ℕ)
  | ovum (egg : ℕ)
  deriving DecidableEq

/-- The ovum of a poke. -/
def Slot.ova (s : Slot) : List Obj := (s.wit.egg.map Obj.ovum).toList

/-- The record of a peek. -/
def Slot.peeks (s : Slot) : List Obj := if s.wit.typ = .peek then [.peek s.id] else []

/-- All of what a writ holds. -/
def Slot.objs (s : Slot) : List Obj := s.ova ++ s.peeks ++ [.writ s.id]

/-- `u3_lord`: its writs, exit first, whether it is live and spins, and the last event. -/
structure Controller where
  ext : List Slot
  liv : Bool
  pin : Bool
  eve : UInt64
  /-- the next writ -/
  next : ℕ
  /-- how often the bail callback was called -/
  bails : ℕ
  /-- history: what was freed or given back; no function reads it -/
  freed : List Obj
  /-- history: what was made; no function reads it -/
  made : List Obj
  /-- it read a null pointer, failed an assertion, or bailed out of a noun -/
  fault : Bool

namespace Controller

def new : Controller := ⟨[], false, false, 0, 0, 0, [], [], false⟩

/-! ### Tasks -/

def free (c : Controller) (l : List Obj) : Controller := { c with freed := c.freed ++ l }

/-- The writ that a task makes. A save makes none. -/
def writOf : Task → Option Writ
  | .work egg _ job => some (.poke egg job)
  | .peek sam => some (.peek sam)
  | .meld => some .live
  | .pack => some .live
  | .quiz qiz => some (.quiz qiz)
  | .save => none
  | .exit => some .exit

/-- `_lord_writ_new`, and the spinner that `u3_lord_work` starts. -/
def task (c : Controller) (t : Task) (once : Bool) : Controller :=
  match writOf t with
  | none => c
  | some wit =>
    let s : Slot := ⟨c.next, wit, once⟩
    { c with ext := c.ext ++ [s], next := c.next + 1, made := c.made ++ s.objs, pin := c.pin || wit.typ = .poke }

/-! ### The end -/

/-- `_lord_writ_free`: an ovum is dropped, and of a peek its sample is. -/
def writFree (c : Controller) (s : Slot) : Controller := (c.free s.ova).free [.writ s.id]

/-- `_lord_stop`: close and dispose all resources. -/
def lordStop (c : Controller) : Controller := { c.ext.foldl writFree c with ext := [] }

/-- `_lord_bail`: serf/lord error. -/
def lordBail (c : Controller) : Controller :=
  let c := lordStop c
  { c with bails := c.bails + 1 }

/-! ### Pleas -/

/-- `_lord_writ_need`: require writ type. The message that a writ is missing reads the writ. -/
def writNeed (c : Controller) (typ : WritType) : Option (Option Slot × Controller) :=
  match c.ext with
  | [] => none
  | s :: ext =>
    let c := { c with ext }
    if typ ≠ s.wit.typ then some (none, lordBail c) else some (some s, c)

/-- `_lord_plea_foul`. -/
def pleaFoul (c : Controller) : Controller := lordBail c

/-- `_lord_plea_live`: hear serf %live ack. -/
def pleaLive (c : Controller) (dat : Noun) : Option Controller := do
  let (s, c) ← writNeed c .live
  if dat ≠ .atom 0 then some (pleaFoul c)
  else some (c.free (s.map fun s => Obj.writ s.id).toList)

/-- `u3r_safe_byte`, `u3r_safe_word` and `u3r_safe_chub`: an atom of so many bits. -/
def safe (bits : ℕ) : Noun → Option ℕ
  | .atom a => if a < 2 ^ bits then some a else none
  | .cell _ _ => none

/-- What `_lord_plea_ripe` reads: the version of the protocol and the last event. -/
def ripeOf : Noun → Option (ℕ × ℕ)
  | .cell (.cell pro _) (.cell (.cell _ _) (.cell eve mug)) => do
    let pro ← safe 8 pro
    let eve ← safe 64 eve
    let _ ← safe 32 mug
    some (pro, eve)
  | _ => none

/-- `_lord_plea_ripe`: hear serf startup state. -/
def pleaRipe (c : Controller) (dat : Noun) : Controller :=
  if c.liv then lordBail c
  else
    match ripeOf dat with
    | none => pleaFoul c
    | some (pro, eve) => if pro ≠ 2 then lordBail c else { c with eve := UInt64.ofNat eve, liv := true }

/-- `_lord_plea_flog`: hear serf debug output. -/
def pleaFlog (c : Controller) : Noun → Controller
  | .atom _ => c
  | .cell _ _ => pleaFoul c

section

variable (punt : Noun → Bool)

/-- `_lord_plea_peek_done`: the reply to a peek of `u3_pico_once` is a cell, or none. -/
def pleaPeekDone (c : Controller) (s : Slot) (rep : Noun) : Option Controller :=
  match s.once, rep with
  | true, .atom (_ + 1) => none
  | _, _ => some (c.free [.peek s.id])

/-- `_lord_plea_peek_bail`: the crash report is printed. -/
def pleaPeekBail (c : Controller) (s : Slot) (dud : Noun) : Option Controller :=
  if punt dud then some (c.free [.peek s.id]) else none

/-- `_lord_plea_peek`, once the writ is taken and freed. -/
def peekSwitch (c : Controller) (s : Slot) : Noun → Option Controller
  | .cell (.atom 0) rep => pleaPeekDone c s rep
  | .cell (.atom 1) dud => pleaPeekBail punt c s dud
  | _ => some (pleaFoul c)

/-- `_lord_plea_peek`: hear serf %peek response. -/
def pleaPeek (c : Controller) (dat : Noun) : Option Controller := do
  let (s, c) ← writNeed c .peek
  let s ← s
  peekSwitch punt (c.free [.writ s.id]) s dat

/-- `_lord_plea_quiz`: handle quiz. -/
def pleaQuiz (c : Controller) : Option Controller := do
  let (s, c) ← writNeed c .quiz
  let _ ← s
  some c

/-- `_lord_work_spin`: update spinner if more work is in progress. -/
def workSpin (c : Controller) : Option Controller :=
  if c.pin then some { c with pin := c.ext.any fun s => s.wit.typ = .poke } else none

/-- `_lord_plea_work_done`: the ovum goes back with the callback. -/
def pleaWorkDone (c : Controller) (s : Slot) : Option Controller := do
  let c ← workSpin { c with eve := c.eve + 1 }
  some (c.free s.ova)

/-- `_lord_plea_work_bail`. -/
def pleaWorkBail (c : Controller) (s : Slot) : Option Controller := do
  let c ← workSpin c
  some (c.free s.ova)

/-- `_lord_plea_work`, once the writ is taken and freed. -/
def workSwitch (c : Controller) (s : Slot) : Noun → Option Controller
  | .cell (.atom 0) _ => pleaWorkDone c s
  | .cell (.atom 1) _ => pleaWorkBail c s
  | _ => some (pleaFoul (c.free s.ova))

/-- `_lord_plea_work`: hear serf %work response. -/
def pleaWork (c : Controller) (dat : Noun) : Option Controller := do
  let (s, c) ← writNeed c .poke
  let s ← s
  workSwitch (c.free [.writ s.id]) s dat

/-- `_lord_on_plea`: handle plea from serf, of the noun that its bytes are cued to. -/
def onPlea (c : Controller) : Option Noun → Option Controller
  | none => some (pleaFoul c)
  | some (.cell (.atom tag) dat) =>
    if tag = poke then pleaWork c dat
    else if tag = peek then pleaPeek punt c dat
    else if tag = slog then some c
    else if tag = flog then some (pleaFlog c dat)
    else if tag = sync then some c
    else if tag = live then pleaLive c dat
    else if tag = ripe then some (pleaRipe c dat)
    else if tag = quiz then pleaQuiz c
    else some (pleaFoul c)
  | some _ => some (pleaFoul c)

end

end Controller

/-! ### Runs -/

/-- What comes: a task of the pier, or the bytes of a plea. -/
inductive Event where
  | task (t : Task) (once : Bool)
  | plea (byt : List UInt8)

section

-- what `u3s_cue_xeno_with` makes of bytes, if it comes back: a noun or none
variable (cue : List UInt8 → Option (Option Noun))
-- whether `u3_pier_punt_goof` comes back from a crash report
variable (punt : Noun → Bool)

/-- The controller after an event. After it has shut down, or faulted, there are no more. -/
def turn (c : Controller) : Event → Option Controller
  | .task t once => if c.fault ∨ 0 < c.bails then none else some (c.task t once)
  | .plea byt =>
    if c.fault ∨ 0 < c.bails then none
    else
      match (cue byt).bind (c.onPlea punt) with
      | none => some { c with fault := true }
      | some c => some c

/-- What the outstanding writs hold. -/
def objs (ext : List Slot) : List Obj := ext.flatMap Slot.objs

/-- **The controller is right**: it has not faulted; it is in order or has shut down, with one notification; and
what was made is, each once, what was freed or is still outstanding, which is nothing after the end. -/
structure Right (c : Controller) : Prop where
  fault : c.fault = false
  once : c.bails ≤ 1
  shut : c.bails = 1 → c.ext = []
  even : (c.freed ++ objs c.ext).Perm c.made

/-- No peek is outstanding. -/
def NoPeek (ext : List Slot) : Prop := ∀ s ∈ ext, s.wit.typ ≠ .peek

/-- The well formed answers to a peek: the reply, to a peek of `u3_pico_once` none or a cell, or a crash report
that is printed. -/
def Answers (s : Slot) : Noun → Prop
  | .cell (.atom 0) (.atom a) => s.once = true → a = 0
  | .cell (.atom 0) (.cell _ _) => True
  | .cell (.atom 1) dud => punt dud = true
  | _ => False

/-- The well formed answers to a poke. -/
def Works : Noun → Prop
  | .cell (.atom 0) _ => True
  | .cell (.atom 1) _ => True
  | _ => False

/-- The first message of the worker, as it should be. -/
def Ripe (c : Controller) (dat : Noun) : Prop := c.liv = false ∧ ∃ eve, Controller.ripeOf dat = some (2, eve)

/-- The nouns that are taken right: by kind, one for which the writ at the head is there and of its kind, and which
is well formed; or one on which the controller shuts down, with no peek outstanding and, but for a poke, no writ taken.
A quiz never is. -/
def NounFits (c : Controller) (tag : ℕ) (dat : Noun) : Prop :=
  if tag = poke then ∃ s ext, c.ext = s :: ext ∧ s.wit.typ = .poke ∧ (Works dat ∨ NoPeek ext)
  else if tag = peek then ∃ s ext, c.ext = s :: ext ∧ s.wit.typ = .peek ∧ Answers punt s dat
  else if tag = slog then True
  else if tag = flog then (∃ a, dat = .atom a) ∨ NoPeek c.ext
  else if tag = sync then True
  else if tag = live then ∃ s ext, c.ext = s :: ext ∧ s.wit.typ = .live ∧ dat = .atom 0
  else if tag = ripe then Ripe c dat ∨ NoPeek c.ext
  else if tag = quiz then False
  else NoPeek c.ext

def PleaFits (c : Controller) : Option Noun → Prop
  | some (.cell (.atom tag) dat) => NounFits punt c tag dat
  | _ => NoPeek c.ext

/-- The events that are taken right. -/
def Fits (c : Controller) : Event → Prop
  | .task _ _ => True
  | .plea byt => ∃ jar, cue byt = some jar ∧ PleaFits punt c jar

end

/-! ### What a bail releases -/

open Controller

variable {c c' : Controller} {s : Slot} {ext : List Slot} {lost fr : List Obj} {dat : Noun}

/-- What the end frees of the writs. -/
def released (ext : List Slot) : List Obj := ext.flatMap fun s => s.ova ++ [.writ s.id]

theorem foldl_writFree (ext : List Slot) (c : Controller) :
    ext.foldl writFree c = { c with freed := c.freed ++ released ext } := by
  induction ext generalizing c with
  | nil => simp [released]
  | cons s ext ih => simp [ih, writFree, free, released]

theorem lordBail_eq (c : Controller) :
    lordBail c = { c with ext := [], freed := c.freed ++ released c.ext, bails := c.bails + 1 } := by
  rw [lordBail, lordStop, foldl_writFree]

theorem objs_cons (s : Slot) (ext : List Slot) : objs (s :: ext) = s.objs ++ objs ext := List.flatMap_cons

theorem released_cons (s : Slot) (ext : List Slot) : released (s :: ext) = s.ova ++ [.writ s.id] ++ released ext :=
  List.flatMap_cons

theorem peeks_eq_nil (h : s.wit.typ ≠ .peek) : s.peeks = [] := if_neg h

theorem peeks_of_peek (h : s.wit.typ = .peek) : s.peeks = [.peek s.id] := if_pos h

/-- The records of the peeks are what the end does not free. -/
theorem length_objs (ext : List Slot) :
    (objs ext).length = (released ext).length + ext.countP fun s => s.wit.typ = .peek := by
  induction ext with
  | nil => rfl
  | cons s ext ih =>
    rw [objs_cons, released_cons, List.length_append, List.length_append, ih, List.countP_cons]
    by_cases hs : s.wit.typ = .peek
    · simp only [Slot.objs, peeks_of_peek hs, List.length_append, List.length_singleton, hs, decide_true, if_true]
      omega
    · simp only [Slot.objs, peeks_eq_nil hs, List.length_append, List.length_nil, hs, decide_false, Bool.false_eq_true,
        if_false]
      omega

theorem released_eq (h : NoPeek ext) : released ext = objs ext := by
  unfold released objs
  refine List.flatMap_congr fun s hs => ?_
  rw [Slot.objs, peeks_eq_nil (h s hs), List.append_nil]

/-- **A bail releases all just when nothing was lost before it, and no peek is outstanding.** -/
theorem bail_even_iff (heven : (c.freed ++ (lost ++ objs c.ext)).Perm c.made) :
    ((lordBail c).freed ++ objs (lordBail c).ext).Perm (lordBail c).made ↔ lost = [] ∧ NoPeek c.ext := by
  rw [lordBail_eq]
  constructor
  · intro h
    have h1 := h.length_eq
    have h2 := heven.length_eq
    have h3 := length_objs c.ext
    simp only [List.length_append, objs, List.flatMap_nil, List.length_nil] at h1 h2 h3
    have hlost : lost.length = 0 := by omega
    have hcount : (c.ext.countP fun s => s.wit.typ = .peek) = 0 := by omega
    refine ⟨List.length_eq_zero_iff.mp hlost, fun s hs htyp => ?_⟩
    exact List.countP_eq_zero.mp hcount s hs (decide_eq_true htyp)
  · rintro ⟨rfl, hno⟩
    show (c.freed ++ released c.ext ++ []).Perm c.made
    rw [List.append_nil, released_eq hno]
    exact heven

/-- A controller that has done nothing wrong yet, but for what it has lost. -/
structure Going (c : Controller) (lost : List Obj) : Prop where
  fault : c.fault = false
  bails : c.bails = 0
  even : (c.freed ++ (lost ++ objs c.ext)).Perm c.made

theorem Right.going (h : Right c) (hb : c.bails = 0) : Going c [] := ⟨h.fault, hb, h.even⟩

/-- The head of the queue is taken. -/
theorem Going.take (h : Going c []) (hext : c.ext = s :: ext) : Going { c with ext := ext } s.objs :=
  ⟨h.fault, h.bails, by
    have he := h.even
    rwa [hext, objs_cons] at he⟩

/-- Some of what was taken is freed. -/
theorem Going.free {l : List Obj} (h : Going c l) (hl : l.Perm (fr ++ lost)) : Going (c.free fr) lost := by
  refine ⟨h.fault, h.bails, ?_⟩
  show (c.freed ++ fr ++ (lost ++ objs c.ext)).Perm c.made
  rw [List.append_assoc, ← List.append_assoc fr]
  exact ((hl.symm.append_right (objs c.ext)).append_left c.freed).trans h.even

/-- **Where the controller goes on**, it is right just when nothing was lost. -/
theorem Going.right_iff (h : Going c lost) : Right c ↔ lost = [] := by
  constructor
  · intro hr
    have h1 := hr.even.length_eq
    have h2 := h.even.length_eq
    simp only [List.length_append] at h1 h2
    exact List.length_eq_zero_iff.mp (by omega)
  · rintro rfl
    exact ⟨h.fault, by rw [h.bails]; exact Nat.zero_le 1, fun hb => absurd (h.bails.symm.trans hb) (by decide), h.even⟩

/-- **Where it bails**, just when nothing was lost and no peek is outstanding. -/
theorem Going.bail_iff (h : Going c lost) : Right (lordBail c) ↔ lost = [] ∧ NoPeek c.ext := by
  rw [← bail_even_iff h.even]
  constructor
  · exact fun hr => hr.even
  · intro he
    refine ⟨?_, ?_, fun _ => ?_, he⟩
    · rw [lordBail_eq]
      exact h.fault
    · rw [lordBail_eq]
      show c.bails + 1 ≤ 1
      rw [h.bails]
    · rw [lordBail_eq]

/-! ### Pleas -/

/-- The spinner spins as long as a poke is outstanding. -/
def Spins (c : Controller) : Prop := c.pin = true ↔ ∃ s ∈ c.ext, s.wit.typ = .poke

/-- A plea is taken right just when `P`, and leaves the spinner as it should be: where the controller faults, `P` does
not hold. -/
def Takes (r : Option Controller) (P : Prop) : Prop :=
  (∀ c, r = some c → (Right c ↔ P) ∧ (c.bails = 0 → Spins c)) ∧ (r = none → ¬ P)

theorem Takes.of_some {P : Prop} (h : Right c ↔ P) (hs : c.bails = 0 → Spins c) : Takes (some c) P :=
  ⟨fun _ hc => Option.some.inj hc ▸ ⟨h, hs⟩, fun hn => (nomatch hn)⟩

theorem Takes.of_none {P : Prop} (h : ¬ P) : Takes none P := ⟨fun _ hc => (nomatch hc), fun _ => h⟩

theorem bails_lordBail (c : Controller) : (lordBail c).bails = c.bails + 1 := by rw [lordBail_eq]

theorem Takes.of_bail {P : Prop} (h : Right (lordBail c) ↔ P) : Takes (some (lordBail c)) P :=
  .of_some h fun hb => absurd ((bails_lordBail c).symm.trans hb) (Nat.succ_ne_zero _)

theorem writNeed_nil {typ : WritType} (h : c.ext = []) : writNeed c typ = none := by rw [writNeed, h]

theorem writNeed_ne {typ : WritType} (h : c.ext = s :: ext) (ht : typ ≠ s.wit.typ) :
    writNeed c typ = some (none, lordBail { c with ext := ext }) := by
  rw [writNeed, h]
  exact if_pos ht

theorem writNeed_head (h : c.ext = s :: ext) : writNeed c s.wit.typ = some (some s, { c with ext := ext }) := by
  rw [writNeed, h]
  exact if_neg fun hne => hne rfl

theorem objs_ne_nil (s : Slot) : s.objs ≠ [] := List.append_ne_nil_of_right_ne_nil _ (List.cons_ne_nil _ _)

/-- What was not there, or of another kind, is read all the same. -/
theorem need_other {typ : WritType} (h : ∀ s ext, c.ext = s :: ext → s.wit.typ ≠ typ)
    (f : Controller → Slot → Option Controller) :
    ((writNeed c typ).bind fun p => p.1.bind fun s => f p.2 s) = none := by
  cases hext : c.ext with
  | nil => rw [writNeed_nil hext, Option.bind_none]
  | cons s ext =>
    rw [writNeed_ne hext (h s ext hext).symm]
    rfl

/-- The spinner goes on. -/
theorem workSpin_going (h : Going c lost) (hpin : c.pin = true) :
    ∃ c', workSpin c = some c' ∧ Going c' lost ∧ c'.ext = c.ext ∧ Spins c' := by
  refine ⟨_, if_pos hpin, ⟨h.fault, h.bails, h.even⟩, rfl, ?_⟩
  simp [Spins]

/-- An answer to a poke, once the writ is freed. -/
theorem workSwitch_right (h : Going c s.ova) (hpin : c.pin = true) (dat : Noun) :
    ∃ c', workSwitch c s dat = some c' ∧ (Right c' ↔ Works dat ∨ NoPeek c.ext) ∧ (c'.bails = 0 → Spins c') := by
  have hova : s.ova.Perm (s.ova ++ []) := by rw [List.append_nil]
  have hgood {b : Controller} (hb : Going b s.ova) (hbp : b.pin = true) (hw : Works dat) :
      ∃ c', (do let b ← workSpin b; some (b.free s.ova)) = some c' ∧ (Right c' ↔ Works dat ∨ NoPeek c.ext) ∧
        (c'.bails = 0 → Spins c') := by
    obtain ⟨d, hd, hg, -, hsp⟩ := workSpin_going hb hbp
    rw [hd]
    exact ⟨_, rfl, iff_of_true ((hg.free hova).right_iff.mpr rfl) (.inl hw), fun _ => hsp⟩
  unfold workSwitch
  split
  · exact hgood (b := { c with eve := c.eve + 1 }) ⟨h.fault, h.bails, h.even⟩ hpin trivial
  · exact hgood h hpin trivial
  · next hn0 hn1 =>
    have hw : ¬ Works dat := by
      unfold Works
      split
      · exact absurd rfl (hn0 _)
      · exact absurd rfl (hn1 _)
      · exact not_false
    refine ⟨_, rfl, ?_, fun hb => ?_⟩
    · rw [pleaFoul, (h.free hova).bail_iff, or_iff_right hw]
      exact and_iff_right rfl
    · rw [pleaFoul, lordBail_eq] at hb
      cases hb

/-- What is said of the head of the queue. -/
theorem head_iff {Q : Slot → List Slot → Prop} (h : c.ext = s :: ext) :
    (∃ s ext, c.ext = s :: ext ∧ Q s ext) ↔ Q s ext := by
  constructor
  · rintro ⟨s', ext', h', hq⟩
    obtain ⟨rfl, rfl⟩ := List.cons.inj (h'.symm.trans h)
    exact hq
  · exact fun hq => ⟨s, ext, h, hq⟩

/-- A writ of another kind does not matter to the spinner. -/
theorem Spins.take (h : Spins c) (hext : c.ext = s :: ext) (htyp : s.wit.typ ≠ .poke) :
    Spins { c with ext := ext } := by
  refine Iff.trans h ?_
  rw [hext, List.exists_mem_cons_iff]
  exact or_iff_right htyp

/-- **An answer to a poke.** -/
theorem pleaWork_right (h : Right c) (hb : c.bails = 0) (hs : Spins c) (dat : Noun) :
    Takes (pleaWork c dat) (∃ s ext, c.ext = s :: ext ∧ s.wit.typ = .poke ∧ (Works dat ∨ NoPeek ext)) := by
  by_cases hhead : ∃ s ext, c.ext = s :: ext ∧ s.wit.typ = .poke
  · obtain ⟨s, ext, hext, htyp⟩ := hhead
    have hneed := writNeed_head hext
    have hobjs : s.objs.Perm ([.writ s.id] ++ s.ova) := by
      rw [Slot.objs, peeks_eq_nil (htyp ▸ by decide), List.append_nil]
      exact List.perm_append_comm
    have hpin : c.pin = true := hs.mpr ⟨s, hext ▸ List.mem_cons_self, htyp⟩
    obtain ⟨c', hc', hr, hsp⟩ := workSwitch_right (((h.going hb).take hext).free hobjs) hpin dat
    rw [htyp] at hneed
    have hplea : pleaWork c dat = some c' := by
      rw [pleaWork, hneed]
      exact hc'
    rw [hplea, head_iff hext]
    exact .of_some (hr.trans (and_iff_right htyp).symm) hsp
  · have hnone : pleaWork c dat = none :=
      need_other (fun s ext hext htyp => hhead ⟨s, ext, hext, htyp⟩) fun c s => workSwitch (c.free [.writ s.id]) s dat
    rw [hnone]
    exact .of_none fun ⟨s, ext, hext, htyp, _⟩ => hhead ⟨s, ext, hext, htyp⟩

section

variable (punt : Noun → Bool)

/-- The record of a peek is freed with its answer. -/
theorem freed_right {P : Prop} (h : Going c [.peek s.id]) (hs : Spins c) (hP : P) :
    Takes (some (c.free [.peek s.id])) P :=
  .of_some (iff_of_true ((h.free (List.Perm.refl _)).right_iff.mpr rfl) hP) fun _ => hs

/-- The reply to a peek. -/
theorem pleaPeekDone_right (h : Going c [.peek s.id]) (hs : Spins c) (rep : Noun) :
    Takes (pleaPeekDone c s rep) (Answers punt s (.cell (.atom 0) rep)) := by
  unfold pleaPeekDone
  cases rep with
  | cell p q =>
    cases s.once with
    | false => exact freed_right h hs trivial
    | true => exact freed_right h hs trivial
  | atom a =>
    cases hos : s.once with
    | false => exact freed_right h hs fun ho => (nomatch hos.symm.trans ho)
    | true =>
      cases a with
      | zero => exact freed_right h hs fun _ => rfl
      | succ a => exact .of_none fun ha => absurd (ha hos) (Nat.succ_ne_zero a)

/-- An answer to a peek, once the writ is freed. -/
theorem peekSwitch_right (h : Going c [.peek s.id]) (hs : Spins c) (dat : Noun) :
    Takes (peekSwitch punt c s dat) (Answers punt s dat) := by
  unfold peekSwitch
  split
  · exact pleaPeekDone_right punt h hs _
  · next dud =>
    unfold pleaPeekBail
    split
    · next hp => exact freed_right h hs hp
    · next hp => exact .of_none hp
  · next hn0 hn1 =>
    refine .of_bail ?_
    rw [h.bail_iff]
    refine iff_of_false (fun hl => List.cons_ne_nil _ _ hl.1) ?_
    unfold Answers
    split
    · exact absurd rfl (hn0 _)
    · exact absurd rfl (hn0 _)
    · exact absurd rfl (hn1 _)
    · exact not_false

theorem ova_eq_nil (h : s.wit.typ ≠ .poke) : s.ova = [] := by
  unfold Slot.ova
  cases hw : s.wit with
  | poke egg job => exact absurd (congrArg Writ.typ hw) h
  | peek sam => rfl
  | live => rfl
  | quiz qiz => rfl
  | exit => rfl

/-- **An answer to a peek.** -/
theorem pleaPeek_right (h : Right c) (hb : c.bails = 0) (hs : Spins c) (dat : Noun) :
    Takes (pleaPeek punt c dat) (∃ s ext, c.ext = s :: ext ∧ s.wit.typ = .peek ∧ Answers punt s dat) := by
  by_cases hhead : ∃ s ext, c.ext = s :: ext ∧ s.wit.typ = .peek
  · obtain ⟨s, ext, hext, htyp⟩ := hhead
    have hneed := writNeed_head hext
    have hpoke : s.wit.typ ≠ .poke := htyp ▸ by decide
    have hobjs : s.objs.Perm ([.writ s.id] ++ [.peek s.id]) := by
      rw [Slot.objs, peeks_of_peek htyp, ova_eq_nil hpoke]
      exact List.Perm.swap _ _ _
    have hright := peekSwitch_right punt (((h.going hb).take hext).free hobjs) (hs.take hext hpoke) dat
    rw [htyp] at hneed
    have hplea : pleaPeek punt c dat = peekSwitch punt ({ c with ext := ext }.free [.writ s.id]) s dat := by
      rw [pleaPeek, hneed]
      rfl
    rw [hplea, head_iff hext, and_iff_right htyp]
    exact hright
  · have hnone : pleaPeek punt c dat = none :=
      need_other (fun s ext hext htyp => hhead ⟨s, ext, hext, htyp⟩)
        fun c s => peekSwitch punt (c.free [.writ s.id]) s dat
    rw [hnone]
    exact .of_none fun ⟨s, ext, hext, htyp, _⟩ => hhead ⟨s, ext, hext, htyp⟩

/-- **An answer to a meld or a pack.** -/
theorem pleaLive_right (h : Right c) (hb : c.bails = 0) (hs : Spins c) (dat : Noun) :
    Takes (pleaLive c dat) (∃ s ext, c.ext = s :: ext ∧ s.wit.typ = .live ∧ dat = .atom 0) := by
  cases hext : c.ext with
  | nil =>
    have hnone : pleaLive c dat = none := by
      rw [pleaLive, writNeed_nil hext]
      rfl
    rw [hnone]
    exact .of_none fun ⟨s, ext, hn, _⟩ => absurd hn (List.cons_ne_nil _ _).symm
  | cons s ext =>
    have htake := (h.going hb).take hext
    rw [← hext, head_iff hext]
    by_cases htyp : s.wit.typ = .live
    · have hneed := writNeed_head hext
      rw [htyp] at hneed
      have hpoke : s.wit.typ ≠ .poke := htyp ▸ by decide
      have hobjs : s.objs = [.writ s.id] := by
        rw [Slot.objs, peeks_eq_nil (htyp ▸ by decide), ova_eq_nil hpoke]
        rfl
      by_cases hdat : dat = .atom 0
      · have hplea : pleaLive c dat = some ({ c with ext := ext }.free [.writ s.id]) := by
          rw [pleaLive, hneed]
          exact if_neg (not_not_intro hdat)
        rw [hplea]
        rw [hobjs] at htake
        exact .of_some (iff_of_true ((htake.free (List.Perm.refl _)).right_iff.mpr rfl) ⟨htyp, hdat⟩)
          fun _ => hs.take hext hpoke
      · have hplea : pleaLive c dat = some (lordBail { c with ext := ext }) := by
          rw [pleaLive, hneed]
          exact if_pos hdat
        rw [hplea]
        exact .of_bail (iff_of_false (fun hr => objs_ne_nil s (htake.bail_iff.mp hr).1) fun hp => hdat hp.2)
    · -- it has shut down, with the writ lost, and goes on with none
      have hneed := writNeed_ne hext (Ne.symm htyp)
      by_cases hdat : dat = .atom 0
      · have hplea : pleaLive c dat = some (lordBail { c with ext := ext }) := by
          rw [pleaLive, hneed]
          refine (if_neg (not_not_intro hdat)).trans ?_
          exact congrArg (fun l => some { lordBail { c with ext := ext } with freed := l }) (List.append_nil _)
        rw [hplea]
        exact .of_bail (iff_of_false (fun hr => objs_ne_nil s (htake.bail_iff.mp hr).1) fun hp => htyp hp.1)
      · have hplea : pleaLive c dat = some (lordBail (lordBail { c with ext := ext })) := by
          rw [pleaLive, hneed]
          exact if_pos hdat
        rw [hplea]
        refine .of_bail (iff_of_false (fun hr => absurd hr.once ?_) fun hp => htyp hp.1)
        rw [bails_lordBail, bails_lordBail]
        omega

/-- **The answer to a quiz is never right**: its writ is kept. -/
theorem pleaQuiz_wrong (h : Right c) (hb : c.bails = 0) (hs : Spins c) : Takes (pleaQuiz c) False := by
  by_cases hhead : ∃ s ext, c.ext = s :: ext ∧ s.wit.typ = .quiz
  · obtain ⟨s, ext, hext, htyp⟩ := hhead
    have hneed := writNeed_head hext
    rw [htyp] at hneed
    have hplea : pleaQuiz c = some { c with ext := ext } := by
      rw [pleaQuiz, hneed]
      rfl
    rw [hplea]
    exact .of_some (iff_of_false (fun hr => objs_ne_nil s (((h.going hb).take hext).right_iff.mp hr)) not_false)
      fun _ => hs.take hext (htyp ▸ by decide)
  · have hnone : pleaQuiz c = none :=
      need_other (fun s ext hext htyp => hhead ⟨s, ext, hext, htyp⟩) fun c _ => some c
    rw [hnone]
    exact .of_none not_false

/-- A message on which it bails with no writ taken. -/
theorem bail_right (h : Right c) (hb : c.bails = 0) : Takes (some (lordBail c)) (NoPeek c.ext) :=
  .of_bail ((h.going hb).bail_iff.trans (and_iff_right rfl))

/-- A message that changes no writ and does not bail. -/
theorem kept_right {P : Prop} (h : Right c) (hs : Spins c) (hP : P) : Takes (some c) P :=
  .of_some (iff_of_true h hP) fun _ => hs

/-- **The first message of the worker.** -/
theorem pleaRipe_right (h : Right c) (hb : c.bails = 0) (hs : Spins c) (dat : Noun) :
    Takes (some (pleaRipe c dat)) (Ripe c dat ∨ NoPeek c.ext) := by
  have hbail (hr : ¬ Ripe c dat) : Takes (some (lordBail c)) (Ripe c dat ∨ NoPeek c.ext) := by
    rw [or_iff_right hr]
    exact bail_right h hb
  unfold pleaRipe
  split
  · next hliv => exact hbail fun hr => absurd (hr.1.symm.trans hliv) (by decide)
  · next hliv =>
    split
    · next hnone => exact hbail fun ⟨_, eve, he⟩ => absurd (hnone.symm.trans he) (Option.some_ne_none _).symm
    · next pro eve hsome =>
      split
      · next hpro =>
        refine hbail fun ⟨_, eve', he⟩ => hpro ?_
        exact (Prod.mk.inj (Option.some.inj (hsome.symm.trans he))).1
      · next hpro =>
        obtain rfl : pro = 2 := not_not.mp hpro
        have hripe : Ripe c dat := ⟨Bool.eq_false_iff.mpr hliv, eve, hsome⟩
        exact kept_right ⟨h.fault, h.once, h.shut, h.even⟩ hs (.inl hripe)

/-- **What is to be printed.** -/
theorem pleaFlog_right (h : Right c) (hb : c.bails = 0) (hs : Spins c) (dat : Noun) :
    Takes (some (pleaFlog c dat)) ((∃ a, dat = .atom a) ∨ NoPeek c.ext) := by
  cases dat with
  | atom a => exact kept_right h hs (.inl ⟨a, rfl⟩)
  | cell p q =>
    rw [or_iff_right fun ⟨a, ha⟩ => Noun.noConfusion ha]
    exact bail_right h hb

/-- **A message is taken right just when it fits.** -/
theorem onPlea_right (h : Right c) (hb : c.bails = 0) (hs : Spins c) (jar : Option Noun) :
    Takes (onPlea punt c jar) (PleaFits punt c jar) := by
  unfold onPlea PleaFits
  split
  · exact bail_right h hb
  · next tag dat =>
    show Takes _ (NounFits punt c tag dat)
    unfold NounFits
    split_ifs
    · exact pleaWork_right h hb hs dat
    · exact pleaPeek_right punt h hb hs dat
    · exact kept_right h hs trivial
    · exact pleaFlog_right h hb hs dat
    · exact kept_right h hs trivial
    · exact pleaLive_right h hb hs dat
    · exact pleaRipe_right h hb hs dat
    · exact pleaQuiz_wrong h hb hs
    · exact bail_right h hb
  · next jar hn =>
    split
    · next tag dat hj => exact absurd (Option.some.inj hj) (hn tag dat)
    · exact bail_right h hb

/-! ### Runs -/

/-- What a task makes is outstanding. -/
theorem task_right (h : Right c) (hb : c.bails = 0) (t : Task) (once : Bool) : Right (c.task t once) := by
  unfold Controller.task
  split
  · exact h
  · next wit hwit =>
    refine ⟨h.fault, h.once, fun h1 => absurd (hb.symm.trans h1) (by decide), ?_⟩
    show (c.freed ++ objs (c.ext ++ [_])).Perm (c.made ++ _)
    rw [objs, List.flatMap_append, List.flatMap_singleton, ← List.append_assoc]
    exact h.even.append_right _

/-- The spinner is started for a poke. -/
theorem task_spins (hs : Spins c) (t : Task) (once : Bool) : Spins (c.task t once) := by
  unfold Controller.task
  split
  · exact hs
  · unfold Spins at hs ⊢
    simp only [Bool.or_eq_true, decide_eq_true_eq, List.mem_append, List.mem_singleton, or_and_right, exists_or,
      exists_eq_left, hs]

/-- What holds as long as the run is right. -/
def Well (c : Controller) : Prop := Right c ∧ (c.bails = 0 → Spins c)

variable (cue : List UInt8 → Option (Option Noun)) {e : Event}

/-- **An event is taken right just when it fits.** -/
theorem turn_right (h : Well c) (ht : turn cue punt c e = some c') :
    (Right c' ↔ Fits cue punt c e) ∧ (c'.fault = false → c'.bails = 0 → Spins c') := by
  cases e with
  | task t once =>
    obtain ⟨hgo, ht⟩ := Option.ite_none_left_eq_some.mp ht
    have hb : c.bails = 0 := Nat.eq_zero_of_not_pos fun hp => hgo (.inr hp)
    obtain rfl := Option.some.inj ht
    exact ⟨iff_of_true (task_right h.1 hb t once) trivial, fun _ _ => task_spins (h.2 hb) t once⟩
  | plea byt =>
    obtain ⟨hgo, ht⟩ := Option.ite_none_left_eq_some.mp ht
    have hb : c.bails = 0 := Nat.eq_zero_of_not_pos fun hp => hgo (.inr hp)
    have hstop (hx : ¬ Fits cue punt c (.plea byt)) (he : some { c with fault := true } = some c') :
        (Right c' ↔ Fits cue punt c (.plea byt)) ∧ (c'.fault = false → c'.bails = 0 → Spins c') := by
      obtain rfl := Option.some.inj he
      exact ⟨iff_of_false (fun hr => Bool.noConfusion hr.fault) hx, fun hf => Bool.noConfusion hf⟩
    cases hcue : cue byt with
    | none =>
      rw [hcue] at ht
      exact hstop (fun ⟨_, hj, _⟩ => nomatch hcue.symm.trans hj) ht
    | some jar =>
      have hfits : Fits cue punt c (.plea byt) ↔ PleaFits punt c jar :=
        ⟨fun ⟨_, hj, hf⟩ => Option.some.inj (hcue.symm.trans hj) ▸ hf, fun hf => ⟨jar, hcue, hf⟩⟩
      have htakes := onPlea_right punt h.1 hb (h.2 hb) jar
      rw [hcue, Option.bind_some] at ht
      cases hon : onPlea punt c jar with
      | none =>
        rw [hon] at ht
        exact hstop (fun hf => htakes.2 hon (hfits.mp hf)) ht
      | some d =>
        rw [hon] at ht
        obtain rfl := Option.some.inj ht
        exact ⟨(htakes.1 d hon).1.trans hfits.symm, fun _ => (htakes.1 d hon).2⟩

/-- **Over any run of tasks and messages**, the controller processes each message or shuts down with one notification,
and releases all it has made once, in every state, just when each event fits. -/
theorem pleas_right_iff {l : List Event} {b : Controller} (h : Replay.follow (turn cue punt) .new l = some b) :
    (∀ n a, Replay.At (turn cue punt) .new l n a → Right a) ↔
      Replay.Along (turn cue punt) (Fits cue punt) .new l := by
  have hnew : Right .new := ⟨rfl, Nat.zero_le _, fun _ => rfl, List.Perm.refl _⟩
  refine Replay.Along.iff_all_with (fun _ => True) Well Right (fun _ _ _ _ _ => trivial) ?_ ?_ trivial ?_ hnew h
  · intro a e b _ hw hfit ht
    obtain ⟨hr, hs⟩ := turn_right punt cue hw ht
    have hb := hr.mpr hfit
    exact ⟨hb, hs hb.fault⟩
  · exact fun a e b _ hw _ ht => (turn_right punt cue hw ht).1
  · refine ⟨hnew, fun _ => iff_of_false Bool.false_ne_true ?_⟩
    exact fun ⟨_, hs, _⟩ => List.not_mem_nil hs

end

/-- The bytes of `[%quiz 0]`. -/
def quizByt : List UInt8 := [0x01, 0x3f, 0xae, 0x2e, 0x4d, 0x2f]

def cueQuiz (byt : List UInt8) : Option (Option Noun) :=
  if byt = quizByt then some (some (.cell (.atom quiz) (.atom 0))) else some none

/-- No bytes at all, while a poke is outstanding: it shuts down, and gives the ovum back. -/
theorem pleas_right_shut :
    (∃ b, Replay.follow (turn cueQuiz fun _ => true) .new [.task (.work 7 0 (.atom 0)) false, .plea []] = some b ∧
      b.bails = 1) ∧
    ((∀ n a, Replay.At (turn cueQuiz fun _ => true) .new [.task (.work 7 0 (.atom 0)) false, .plea []] n a →
      Right a) ↔
      Replay.Along (turn cueQuiz fun _ => true) (Fits cueQuiz fun _ => true) .new
        [.task (.work 7 0 (.atom 0)) false, .plea []]) := by
  exact ⟨⟨_, rfl, rfl⟩, pleas_right_iff _ _ rfl⟩

/-- The answer to a quiz, whose writ is lost; and with no writ outstanding, where one is read that is missing. -/
theorem quiz_kept_and_missing :
    (∃ b, Replay.follow (turn cueQuiz fun _ => true) .new [.task (.quiz 1) false, .plea quizByt] = some b ∧
      b.fault = false ∧ b.bails = 0 ∧ ¬ Right b) ∧
    ∃ b, Replay.follow (turn cueQuiz fun _ => true) .new [.plea quizByt] = some b ∧ b.fault = true := by
  refine ⟨⟨_, rfl, rfl, rfl, fun h => ?_⟩, _, rfl, rfl⟩
  exact absurd h.even.length_eq (by decide)

end LordBail
end Ursockets
