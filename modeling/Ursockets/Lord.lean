/-
# The controller and its worker

`u3_lord` is the controller's side of the worker process: a task is noted as a
writ at the end of a queue and sent, and a plea of the worker takes the writ at
the head, which has to be of the plea's kind (`writNeed`). A save is sent without
a writ, and its plea is ignored; an exit has a writ and no plea. The two
processes are joined by two pipes (`Duo`), each of which keeps its order.

Key definitions: `Writ`, `Lord`, `Lord.task`, `Lord.onPlea`, `Duo`, `Duo.turn`.
-/
import Ursockets.MarsOrder

namespace Ursockets

/-- `u3_writ_type`. -/
inductive WritType where
  | poke
  | peek
  | live
  | quiz
  | exit
  deriving DecidableEq

/-- `u3_writ`: what the controller waits for. A poke is of an ovum. -/
inductive Writ where
  | poke (egg : ℕ) (job : Noun)
  | peek (sam : Noun)
  | live
  | quiz (qiz : ℕ)
  | exit
  deriving DecidableEq

def Writ.typ : Writ → WritType
  | .poke _ _ => .poke
  | .peek _ => .peek
  | .live => .live
  | .quiz _ => .quiz
  | .exit => .exit

/-- The ovum that a writ is of. -/
def Writ.egg : Writ → Option ℕ
  | .poke egg _ => some egg
  | _ => none

/-- `u3_lord`, once the worker is live. -/
structure Lord where
  /-- writs, exit first -/
  ext : List Writ
  /-- spinner active -/
  pin : Bool
  /-- last event -/
  eve : ℕ
  /-- history: the ova given to `u3_lord_work`; no function reads it -/
  asked : List ℕ
  /-- history: the ova done (`true`) or bailed; no function reads it -/
  told : List (ℕ × Bool)

/-- How the controller gives up: it bails, or it reads a pointer that is null or fails an assertion. -/
inductive Down where
  | bail
  | fault
  deriving DecidableEq

/-- What the controller is asked to do. -/
inductive Task where
  | work (egg : ℕ) (mil : UInt32) (job : Noun)
  | peek (sam : Noun)
  | meld
  | pack
  | quiz (qiz : ℕ)
  | save
  | exit

namespace Lord

open Mars (poke peek live quiz exit sync save meld pack)

def new (eve : ℕ) : Lord := ⟨[], false, eve, [], []⟩

/-! ### Tasks -/

/-- `_lord_writ_new`: a writ at the end of the queue. -/
def writNew (god : Lord) (wit : Writ) : Lord := { god with ext := god.ext ++ [wit] }

/-- `u3_lord_work`: attempt work. The spinner is started if it does not spin. -/
def work (god : Lord) (egg : ℕ) (mil : UInt32) (job : Noun) : Lord × Noun :=
  ({ writNew god (.poke egg job) with pin := true, asked := god.asked ++ [egg] },
    .cell (.atom poke) (.cell (.atom mil.toNat) job))

/-- `u3_lord_peek`, `u3_lord_meld`, `u3_lord_pack`, `u3_lord_quiz`, `u3_lord_save`, `u3_lord_exit`
and `u3_lord_work`: the controller afterwards, and what it sends. -/
def task (god : Lord) : Task → Lord × Noun
  | .work egg mil job => work god egg mil job
  | .peek sam => (writNew god (.peek sam), .cell (.atom peek) (.cell (.atom 0) sam))
  | .meld => (writNew god .live, .cell (.atom live) (.cell (.atom meld) (.atom 0)))
  | .pack => (writNew god .live, .cell (.atom live) (.cell (.atom pack) (.atom 0)))
  | .quiz qiz => (writNew god (.quiz qiz), .cell (.atom quiz) (.cell (.atom qiz) (.atom 0)))
  | .save => (god, .cell (.atom sync) (.cell (.atom save) (.atom 0)))
  | .exit => (writNew god .exit, .cell (.atom exit) (.atom 0))

/-! ### Pleas -/

/-- `_lord_writ_need`: require writ type. A missing writ is read for the message that it is missing;
after a writ of another type the controller has bailed. -/
def writNeed (god : Lord) (typ : WritType) : Except Down (Writ × Lord) :=
  match god.ext with
  | [] => .error .fault
  | wit :: ext => if wit.typ = typ then .ok (wit, { god with ext := ext }) else .error .bail

/-- `_lord_work_spin`: update spinner if more work is in progress. -/
def workSpin (god : Lord) : Except Down Lord :=
  if god.pin then .ok { god with pin := god.ext.any fun wit => wit.typ = .poke } else .error .fault

/-- `_lord_plea_work`: hear serf %work response. -/
def pleaWork (god : Lord) (dat : Noun) : Except Down Lord :=
  (writNeed god .poke).bind fun (wit, god) =>
    match dat with
    | .cell (.atom 0) _ =>
      (workSpin { god with eve := god.eve + 1 }).map fun god =>
        { god with told := god.told ++ (wit.egg.map fun egg => (egg, true)).toList }
    | .cell (.atom 1) _ =>
      (workSpin god).map fun god =>
        { god with told := god.told ++ (wit.egg.map fun egg => (egg, false)).toList }
    | _ => .error .bail

/-- `_lord_plea_peek`: hear serf %peek response. -/
def pleaPeek (god : Lord) (dat : Noun) : Except Down Lord :=
  (writNeed god .peek).bind fun (_, god) =>
    match dat with
    | .cell (.atom 0) _ => .ok god
    | .cell (.atom 1) _ => .ok god
    | _ => .error .bail

/-- `_lord_plea_live`: hear serf %live ack. -/
def pleaLive (god : Lord) (dat : Noun) : Except Down Lord :=
  (writNeed god .live).bind fun (_, god) => if dat = .atom 0 then .ok god else .error .bail

/-- `_lord_plea_quiz`: handle quiz. -/
def pleaQuiz (god : Lord) : Except Down Lord := (writNeed god .quiz).map Prod.snd

/-- `_lord_on_plea`: handle plea from serf. The pleas that only print are not among those of a
worker that runs, and any other is foul. -/
def onPlea (god : Lord) : Noun → Except Down Lord
  | .cell (.atom tag) dat =>
    if tag = poke then pleaWork god dat
    else if tag = peek then pleaPeek god dat
    else if tag = sync then .ok god
    else if tag = live then pleaLive god dat
    else if tag = quiz then pleaQuiz god
    else .error .bail
  | _ => .error .bail

end Lord

/-- The two processes and the pipes between them. -/
structure Duo where
  god : Lord
  /-- how the controller gave up -/
  down : Option Down
  /-- tasks on their way -/
  inn : List Noun
  mar : Mars
  /-- how the worker ended -/
  fate : Option Fate
  /-- pleas on their way -/
  out : List Noun

namespace Duo

open Mars

/-- What may happen next: the controller is given a task or hears a plea; the worker looks at a task
or is woken by its timer; the thread is through with a batch; the commit ends. -/
inductive Move where
  | task (t : Task)
  | plea
  | kick (env : Env)
  | timer
  | write (ok : Bool)
  | after

/-- The gifts that the worker sent between two states. -/
def news (m m' : Mars) : List Noun := (WriteAhead.sent (m'.io.drop m.io.length)).map WriteAhead.Item.load

/-- The worker takes a step: what it sends is on its way. -/
def worked (s : Duo) (inn : List Noun) : Except (Fate × Mars) Mars → Duo
  | .ok m => { s with inn := inn, mar := m, out := s.out ++ news s.mar m }
  | .error (f, m) => { s with inn := inn, mar := m, fate := some f, out := s.out ++ news s.mar m }

/-- One move, if it can happen. A task that the worker does not take stays where it is. -/
def turn (K : Kernel) (s : Duo) (a : Move) : Option Duo :=
  if s.down.isSome then none
  else
    match a with
    | .task t => some { s with god := (s.god.task t).1, inn := s.inn ++ [(s.god.task t).2] }
    | .plea =>
      match s.out with
      | [] => none
      | jar :: out =>
        match s.god.onPlea jar with
        | .ok god => some { s with god := god, out := out }
        | .error d => some { s with down := some d, out := out }
    | .kick env =>
      match s.fate, s.inn with
      | none, jar :: inn =>
        -- `u3_mars_kick` takes the message in working mode only
        some (s.worked (if s.mar.sat = .work then inn else s.inn) (step K s.mar (.kick env (some jar))))
      | _, _ => none
    | .timer => if s.fate = none then some (s.worked s.inn (step K s.mar .timer)) else none
    | .write ok => if s.fate = none then some (s.worked s.inn (step K s.mar (.write ok))) else none
    | .after => if s.fate = none then some (s.worked s.inn (step K s.mar .after)) else none

/-- A session starts with a worker that waits for its first task. -/
def new (m : Mars) : Duo := ⟨Lord.new m.dun, none, [], m, none, []⟩

end Duo

end Ursockets
