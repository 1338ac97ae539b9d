import Pseudocode.Run.Eval

/-!
# What a run leaves behind

Before a script can run it is read and its definitions are made. The
outcome of a run is its status, what it wrote, the steps it reported and,
if it failed, the error. A script that is not a program gives a failed
outcome of a run that did nothing; one whose definitions fail, or which
does not define its own routine, has no outcome.
-/

namespace Pseudocode.Run

open Text Script

/-- The depth of recursion that a run may use. -/
def ampleFuel : Nat := Nat.pow 10 12

inductive Unready where
  /-- It is not a program, at a pseudocode line if it has one. -/
  | invalid (line : Option Nat)
  /-- Its definitions fail. -/
  | raised (fault : Fault)
deriving Repr

structure Prepared where
  script : Executable
  /-- The state that its definitions leave. -/
  start : Machine
  /-- The script's own routine. -/
  entry : Value
deriving Repr

/-- The state in which the definitions of a script are made. -/
def Machine.initial : Machine :=
  { frames := #[{ vars := [("__name__".toList, .str "pseudoflow_program")] }] }

/-- The state in which a run can begin. There was no host before, so of
what was shown there is only what went past it. -/
def Machine.beforeRun (m : Machine) : Machine :=
  { m with log := m.log.filter fun
      | (_, .print _) => true
      | _ => false }

/-- Makes the definitions of a script. -/
def Prepared.ofExecutable (x : Executable) : Except Unready Prepared :=
  match execBlock x ampleFuel {} x.body Machine.initial with
  | (.error (.failed fault _), _) => .error (.raised fault)
  | (_, m) =>
    match m.var? 0 x.entryPoint with
    | some entry => .ok ⟨x, m.beforeRun, entry⟩
    | none => .error (.raised (.missingKey (quoted x.entryPoint)))

def prepare (settings : Settings) (lines : Lines) : Except Unready Prepared :=
  match load settings lines with
  | .ok x => Prepared.ofExecutable x
  | .error (.invalid line) => .error (.invalid line)
  | .error .nullCharacter =>
    .error (.raised (.other .value "source code string cannot contain null bytes"))

/-- How a run ended, with everything that it showed to its host. -/
structure Ended where
  stop : Option Stop
  log : List Event
  /-- What was shown, as it is at the end. -/
  kept : List Event
  inputs : List Datum
deriving Repr

def exec (fuel : Nat) (p : Prepared) (inputs : List Datum) : Ended :=
  let run : Exec Value := do
    let v ← call p.script fuel {} p.entry ⟨[.host], []⟩
    awaitValue p.script fuel {} v
  let (result, m) := run { p.start with inputs }
  let stop := match result with
    | .ok _ => none
    | .error stop => some stop
  let log := m.log.toList
  ⟨stop, log.map Prod.snd, log.map fun p => m.heap.event p.1, m.inputs⟩

inductive Status where
  | completed
  | failed
  | cancelled
deriving DecidableEq, Repr

def Status.name : Status → Text
  | .completed => "completed"
  | .failed => "failed"
  | .cancelled => "cancelled"

structure RunError where
  message : Text
  line : Option Int
deriving DecidableEq, Repr

def RunError.text (e : RunError) : Text :=
  match e.line with
  | some line => "Error (linea " ++ ofInt line ++ "): " ++ e.message
  | none => "Error: " ++ e.message

def RunError.ofFault (fault : Fault) (places : Traceback) : RunError :=
  ⟨fault.message, places.line.map Int.ofNat⟩

/-- The error of a read for which there is no input left. -/
def RunError.starved (label : Text) : RunError :=
  ⟨"No hay mas datos de entrada para \"" ++ label ++ "\".", none⟩

def RunError.invalidScript (line : Option Nat) : RunError :=
  ⟨"codigo generado invalido", line.map Int.ofNat⟩

structure Outcome where
  status : Status
  output : List Datum := []
  trace : List TraceEvent := []
  error : Option RunError := none
deriving Repr

def Outcome.ok (o : Outcome) : Bool :=
  o.status == .completed

def Outcome.text? (o : Outcome) : Option Text :=
  (o.output.mapM Datum.str?).map List.flatten

def written (log : List Event) : List Datum :=
  log.filterMap fun
    | .write d => some d
    | _ => none

def traced (log : List Event) : List TraceEvent :=
  log.filterMap fun
    | .trace e => some e
    | _ => none

def Outcome.ofLog (status : Status) (log : List Event) (error : Option RunError) : Outcome :=
  ⟨status, written log, traced log, error⟩

/-- The outcome of a run whose inputs were all given at its start. -/
def Ended.outcome (e : Ended) : Outcome :=
  match e.stop with
  | none => .ofLog .completed e.kept none
  | some (.failed fault places) => .ofLog .failed e.kept (some (.ofFault fault places))
  | some (.starved label _) => .ofLog .failed e.kept (some (.starved label))
  | some .outOfFuel => .ofLog .cancelled e.kept none

def Outcome.invalid (line : Option Nat) : Outcome :=
  { status := .failed, error := some (.invalidScript line) }

def runScript (settings : Settings) (lines : Lines) (inputs : List Datum) : Except Fault Outcome :=
  match prepare settings lines with
  | .ok p => .ok (exec ampleFuel p inputs).outcome
  | .error (.invalid line) => .ok (.invalid line)
  | .error (.raised fault) => .error fault

end Pseudocode.Run
