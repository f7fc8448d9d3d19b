/-
# Booting, loading and replaying

A ship is booted once (`boot`): its events are logged, at most a hundred of
them, and the kernel state is computed from those that were. Later starts load
an image and replay the events of the log after it (`load`, `playStart`,
`playBatch`); from no image, the kernel is first made of the boot sequence of
the log. Then the process works (`Mars.step`), until it ends or is killed. What
it leaves on disk (`Pier`) is the tables of the log, the image, and the copy of
the image that the epoch began with.

Key definitions: `Pier`, `World`, `boot`, `load`, `playBatch`, `World.step`, `Reach`.
-/
import Ursockets.MarsOrder

namespace Ursockets
namespace Mars

/-- What a ship has on disk: the table of the current epoch and those before it, the number the epoch
began at, the length of the boot sequence, the image, and the image of the epoch. -/
structure Pier where
  mdb : List Feat
  old : List Feat
  epo : ℕ
  lif : ℕ
  img : Arvo
  bak : Arvo

/-- No image: the loom is fresh. -/
def blank : Arvo := ⟨.atom 0, 0⟩

/-! ### Reading the log -/

/-- The loop of `u3_lmdb_read`: up to `n` events in a row. -/
def readWalk : ℕ → ℕ → List Feat → Option (List Feat)
  | _, 0, _ => some []
  | _, _ + 1, [] => some []
  | eve, n + 1, f :: fs => if f.eve = eve then (readWalk (eve + 1) n fs).map (f :: ·) else none

/-- A cursor set to an event, which must be there. -/
def cursor (tab : List Feat) (eve : ℕ) : Option (List Feat) :=
  match tab.dropWhile (·.eve < eve) with
  | f :: fs => if f.eve = eve then some (f :: fs) else none
  | [] => none

/-- `u3_disk_read_list`. -/
def readList (tab : List Feat) (eve len : ℕ) : Option (List Noun) :=
  (cursor tab eve).bind fun rows => (readWalk eve len rows).map fun fs => fs.map Feat.job

/-! ### Booting -/

/-- `_mars_do_boot`: the kernel is made of the events of the log up to a number. -/
def doBoot (K : Kernel) (tab : List Feat) (eve : ℕ) (why : Option Goof) : Option Arvo :=
  (readList tab 1 eve).bind fun lit =>
    match soft why (K.life lit) with
    | .ok cor => some ⟨cor, lit.length⟩
    | .error _ => none

/-- `u3_mars_boot`, of the boot sequence of the pill and the events after it. -/
def boot (K : Kernel) (bot rest : List Noun) : Option Pier :=
  (Disk.sync (Disk.planList Disk.new (bot ++ rest)) true).bind fun r =>
    if r.2 then
      (doBoot K r.1.mdb r.1.dun none).map fun arv => ⟨r.1.mdb, [], 0, bot.length, arv, blank⟩
    else none

/-! ### Loading -/

/-- How the process is started: whether from the beginning of the epoch (`u3_dlod_epoc`), whether the
binary is not the one of the epoch, whether epochs are not to be rolled (`u3o_yolo`), whether it is to
work after the replay, the event to replay up to and how often to save, whether mugs are not to be
checked (`u3o_soft_mugs`), and what interrupts a boot. -/
structure Opts where
  full : Bool
  diff : Bool
  yolo : Bool
  serve : Bool
  eve : ℕ
  sap : ℕ
  mugs : Bool
  why : Option Goof

/-- `u3_lmdb_gulf`: the first and the last event number of a table, zeros if it is empty. -/
def gulf (tab : List Feat) : ℕ × ℕ := ((tab.head?.map Feat.eve).getD 0, (tab.getLast?.map Feat.eve).getD 0)

/-- The log as `u3_disk_load` opens it. -/
def openLog (p : Pier) : Disk :=
  let las := (gulf p.mdb).2
  let dun := if las ≠ 0 then las else p.epo
  ⟨dun, dun, p.epo, List.replicate 100 0, [], 0, false, false, false, false, 0, 0, [], p.mdb, p.old,
    p.old ++ p.mdb⟩

/-- `_disk_epoc_roll`: an epoch begins at the last event. -/
def epocRoll (d : Disk) (eve : ℕ) : Disk :=
  { d with epo := eve, old := d.old ++ d.mdb, mdb := [] }

/-- The image a process starts from. -/
def startImg (p : Pier) (full : Bool) : Arvo :=
  if full then (if p.epo = 0 then blank else p.bak) else p.img

/-- The state that `u3_mars_load` sets up. -/
def loaded (log : Disk) (lif : ℕ) (img : Arvo) : Mars where
  sen := img.eve
  dun := img.eve
  mug := img.roc.mug.toNat
  sat := .work
  gif := []
  fag := 0
  mas := 0
  sac := .atom 0
  sav := 0
  lif := lif
  log := log
  arv := img
  img := img
  io := []

/-- `u3_mars_load`, with the state and the image of the epoch; nothing when it exits. -/
def load (p : Pier) (o : Opts) : Option (Mars × Arvo) :=
  let log := openLog p
  let img := startImg p o.full
  if log.dun < img.eve ∨ img.eve < p.epo then none
  else if o.yolo ∨ (p.epo = 0 ∧ log.dun ≠ 0 ∧ img.eve = 0) ∨ ¬ o.diff then
    some (loaded log p.lif img, p.bak)
  else if log.dun ≠ img.eve ∨ log.dun = 0 then none
  else some (loaded (epocRoll log log.dun) p.lif img, img)

/-! ### Replaying -/

/-- How a batch of the replay ends; `die` is a bail outside of any protection. -/
inductive PlayEnd where
  | yes
  | mem
  | int
  | log
  | mug
  | bad
  | die
  deriving DecidableEq

def awry : ℕ := 0x79727761
def intr : ℕ := 0x72746e69
def meme : ℕ := 0x656d656d

/-- Why an event failed, as `_mars_play_batch` sorts it. -/
def sortGoof (g : Goof) : PlayEnd :=
  if g.mot = meme then .mem else if g.mot = intr then .int else if g.mot = awry then .mug else .bad

/-- `_mars_poke_play`: replay an event. -/
def pokePlay (K : Kernel) (mugs : Bool) (why : Option Goof) (arv : Arvo) (tac : Feat) :
    Except PlayEnd Arvo :=
  match soft why (K.poke arv.roc tac.job) with
  | .error g => .error (sortGoof g)
  | .ok (.atom _) => .error .die
  | .ok (.cell _ cor) =>
    if tac.mug ≠ 0 ∧ tac.mug ≠ cor.mug.toNat ∧ ¬ mugs then .error .mug
    else .ok ⟨cor, arv.eve + 1⟩

/-- The loop of `_mars_play_batch`: the walk stands at event `nex`, and `las` is its last. -/
def playWalk (K : Kernel) (mugs : Bool) (why : ℕ → Option Goof) (las : ℕ) :
    ℕ → List Feat → Mars → PlayEnd × Mars
  | nex, [], m => if las < nex then (.yes, m) else (.log, m)
  | nex, f :: fs, m =>
    if las < nex then (.yes, m)
    else if f.eve ≠ nex then (.log, m)
    else if m.sen + 1 ≠ f.eve then (.die, m)
    else
      match pokePlay K mugs (why f.eve) m.arv f with
      | .error e => (e, { m with sen := m.dun })
      | .ok arv =>
        playWalk K mugs why las (nex + 1) fs { m with sen := m.sen + 1, dun := m.sen + 1, arv := arv }

/-- The replay between two batches: the event to reach, how often to save, the last event saved, the
last event that ran out of memory and how often it did, and what the process is started for. -/
structure Play where
  tgt : ℕ
  sap : ℕ
  pas : ℕ
  mem : ℕ
  try_ : ℕ
  opt : Opts

/-- A ship: at rest, replaying, or working. -/
inductive World where
  | down (p : Pier)
  | play (m : Mars) (bak : Arvo) (p : Play)
  | work (m : Mars) (bak : Arvo)

/-- What a process leaves on disk. -/
def pier (m : Mars) (bak : Arvo) : Pier := ⟨m.log.mdb, m.log.old, m.log.epo, m.lif, m.img, bak⟩

/-- `u3_mars_work`, if the process is to work: it exits when events are missing. -/
def enter (m : Mars) (bak : Arvo) (o : Opts) : World :=
  if o.serve ∧ ¬ m.dun < m.log.dun then .work { m with sav := m.dun } bak else .down (pier m bak)

/-- `u3_mars_play` up to its loop. -/
def playStart (K : Kernel) (m : Mars) (bak : Arvo) (o : Opts) : World :=
  if o.eve ≠ 0 ∧ o.eve ≤ m.dun then enter m bak o
  else
    let tgt := if o.eve = 0 then m.log.dun else min o.eve m.log.dun
    if m.dun = m.log.dun then enter m bak o
    else if m.dun = 0 then
      match doBoot K m.log.mdb m.lif o.why with
      | none => .down (pier m bak)
      | some arv =>
        .play { m with arv := arv, img := arv, sen := m.lif, dun := m.lif } bak ⟨tgt, o.sap, m.lif, 0, 0, o⟩
    else .play m bak ⟨tgt, o.sap, m.dun, 0, 0, o⟩

/-- The end of `u3_mars_play`: the state is saved, and the first epoch is over once all of it is
replayed. `u3_disk_roll` exits on a log of one event. -/
def playDone (m : Mars) (bak : Arvo) (o : Opts) : World :=
  let m := { m with img := m.arv }
  if m.dun = m.log.dun ∧ m.log.epo = 0 ∧ ¬ o.yolo then
    if (gulf m.log.mdb).1 = (gulf m.log.mdb).2 ∨ m.dun ≠ (gulf m.log.mdb).2 then .down (pier m bak)
    else enter { m with log := epocRoll m.log m.dun } m.arv o
  else enter m bak o

/-- A turn of the loop of `u3_mars_play`: a batch of at most 1024 events. -/
def playBatch (K : Kernel) (m : Mars) (bak : Arvo) (p : Play) (why : ℕ → Option Goof) : World :=
  if m.dun < p.tgt then
    match cursor m.log.mdb (m.dun + 1) with
    | none => .down (pier { m with img := m.arv } bak)
    | some rows =>
      match playWalk K p.opt.mugs why (min (m.dun + 1024) m.log.dun) (m.dun + 1) rows m with
      | (.yes, m) =>
        if p.sap ≠ 0 ∧ p.sap ≤ m.dun - p.pas then
          .play { m with img := m.arv } bak { p with pas := m.dun }
        else .play m bak p
      | (.mem, m) =>
        if p.mem ≠ m.dun then .play m bak { p with mem := m.dun, try_ := 0 }
        else if p.try_ + 1 = 3 then .down (pier { m with img := m.arv } bak)
        else .play m bak { p with try_ := p.try_ + 1 }
      | (.die, m) => .down (pier m bak)
      | (_, m) => .down (pier { m with img := m.arv } bak)
  else playDone m bak p.opt

/-- What happens to a ship: its process is started, goes through a batch of the replay, gets an
input, or is killed. -/
inductive Ask where
  | start (o : Opts)
  | batch (why : ℕ → Option Goof)
  | input (i : Input)
  | kill

/-- One thing happening. -/
def World.step (K : Kernel) : World → Ask → World
  | .down p, .start o =>
    match load p o with
    | none => .down { p with img := startImg p o.full }
    | some (m, bak) => playStart K m bak o
  | .play m bak p, .batch why => playBatch K m bak p why
  | .work m bak, .input i =>
    match Mars.step K m i with
    | .ok m => .work m bak
    | .error (_, m) => .down (pier m bak)
  | .play m bak _, .kill => .down (pier m bak)
  | .work m bak, .kill => .down (pier m bak)
  | w, _ => w

/-- The image on disk. -/
def World.img : World → Arvo
  | .down p => p.img
  | .play m _ _ => m.img
  | .work m _ => m.img

/-- A ship booted from a pill, after some things happened, with the images that were on disk. -/
inductive Reach (K : Kernel) (bot rest : List Noun) : World → List Arvo → Prop
  | boot (p : Pier) : Mars.boot K bot rest = some p → Reach K bot rest (.down p) [p.img]
  | step {w : World} {imgs : List Arvo} (ask : Ask) : Reach K bot rest w imgs →
      Reach K bot rest (w.step K ask) ((w.step K ask).img :: imgs)

end Mars
end Ursockets
