import Pseudocode.Analysis
import Pseudocode.Text.Quoted

/-!
# What an analysis logs

Every part of an analysis logs what it did. A journal is the list of
these lines, up to the part that fails if one does; how many of them are
shown depends on how much the user asked for.
-/

namespace Pseudocode.Command

open Text

inductive LogLevel where
  | debug
  | info
  | error
deriving DecidableEq, Repr

/-- The name of a level, five characters wide. -/
def LogLevel.name : LogLevel → Text
  | .debug => "DEBUG"
  | .info => "INFO "
  | .error => "ERROR"

/-- A level is shown when the user asked `verbosity` times for more. -/
def LogLevel.shown (verbosity : Nat) : LogLevel → Bool
  | .debug => 2 ≤ verbosity
  | .info => 1 ≤ verbosity
  | .error => true

structure LogLine where
  level : LogLevel
  part : Text
  message : Text
deriving DecidableEq, Repr

def LogLine.render (time : Text) (l : LogLine) : Text :=
  time ++ " [" ++ l.level.name ++ "] " ++ l.part ++ ": " ++ l.message ++ "\n"

def detail (part message : Text) : LogLine :=
  ⟨.debug, "pseudoflow." ++ part, message⟩

def remarkLine : Remark → LogLine
  | .unrecognized t => detail "grammar" ("unrecognized statement: " ++ quoted t)
  | .dropped line => detail "parser" ("line " ++ ofNat line ++ " is outside any scope, dropped")

def parsedLine (p : Parsed) : LogLine :=
  detail "parser" ("parsed " ++ ofNat p.program.functions.length ++ " function(s), " ++
    ofNat p.program.main.length ++ " main statement(s), " ++ ofNat p.diagnostics.length ++
    " diagnostic(s)")

def variablesLine (v : Variables) : LogLine :=
  detail "scope" ("variable tables: " ++ ofNat v.tables.length ++ " scope(s), " ++
    ofNat v.slots.length ++ " slot(s)")

def chartLines (body : List Statement) : List LogLine :=
  (Flow.Chart.ignoredLines body).map (fun line =>
    detail "flowgraph" ("line " ++ ofNat line ++ ": closer without open loop ignored")) ++
  [detail "flowgraph" ("flow graph: " ++ (Flow.Chart.ofBody body).summary)]

def doneLine (p : Parsed) : LogLine :=
  ⟨.info, "pseudoflow.pipeline", "analysis done: " ++ ofNat p.diagnostics.length ++
    " diagnostic(s), " ++ ofNat (Flow.Chart.ofBody p.program.main).size ++ " flow node(s)"⟩

def listingLines (settings : Settings) (p : Parsed) : List LogLine :=
  match CSource.ofProgram settings p.program with
  | .error _ => []
  | .ok l =>
    detail "c_backend" ("emitted " ++ ofNat l.size ++ " line(s) of C") ::
      match Script.ofProgram settings (Variables.ofProgram p.program) p.program with
      | .error _ => []
      | .ok l =>
        [detail "trace_backend" ("emitted " ++ ofNat l.size ++ " line(s) of instrumented Python"),
          doneLine p]

def journal (settings : Settings) (t : Text) : List LogLine :=
  if !settings.problems.isEmpty then []
  else
    (Program.remarks settings t).map remarkLine ++
      match Program.parse settings t with
      | .error _ => []
      | .ok p =>
        parsedLine p :: variablesLine (Variables.ofProgram p.program) ::
          (chartLines p.program.main ++ listingLines settings p)

end Pseudocode.Command
