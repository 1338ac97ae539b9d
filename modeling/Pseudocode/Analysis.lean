import Pseudocode.CSource
import Pseudocode.Flow.Steps
import Pseudocode.Program.Scan
import Pseudocode.Script.Emit

/-!
# Everything that is known of one text

An analysis reads a text once and derives all the rest from the program:
its variables, its flow chart and steps, its C listing and its traced
script. It depends on the text and the settings alone.
-/

namespace Pseudocode

open Expression

inductive AnalysisFault where
  | settings (problems : List Settings.Problem)
  /-- A line has no reading. -/
  | statement (fault : Statement.Fault)
  /-- An index cannot be counted from zero. -/
  | index (fault : IndexFault)
deriving DecidableEq, Repr

/-- Everything that is known of one text. -/
structure Analysis where
  settings : Settings
  parsed : Parsed
  scopes : Variables
  chart : Flow.Chart
  steps : List Flow.Step
  cListing : Listing Text Nat
  script : Script.Lines

namespace Analysis

def ofText (settings : Settings) (t : Text) : Except AnalysisFault Analysis := do
  if !settings.problems.isEmpty then throw (.settings settings.problems)
  let parsed ← (Program.parse settings t).mapError .statement
  let scopes := Variables.ofProgram parsed.program
  let cListing ← (CSource.ofProgram settings parsed.program).mapError .index
  let script ← (Script.ofProgram settings scopes parsed.program).mapError .index
  return {
    settings, parsed, scopes, cListing, script
    chart := Flow.Chart.ofBody parsed.program.main
    steps := Flow.stepsOfBody parsed.program.main }

def program (a : Analysis) : Program :=
  a.parsed.program

/-- What was found wrong with the text. -/
def diagnostics (a : Analysis) : List Diagnostic :=
  a.parsed.diagnostics

/-- Something found is an error. -/
def hasErrors (a : Analysis) : Bool :=
  Diagnostic.anyError a.diagnostics

def cText (a : Analysis) : Text :=
  a.cListing.render a.settings.cIndent id

def scriptText (a : Analysis) : Text :=
  a.script.render a.settings.scriptIndent Script.Code.text

end Analysis

end Pseudocode
