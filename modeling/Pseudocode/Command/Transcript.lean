import Pseudocode.Command.Invocation
import Pseudocode.Command.Journal
import Pseudocode.Command.Paths
import Pseudocode.Report.Forms
import Pseudocode.Run.Outcome
import Pseudocode.Text.Lines

/-!
# What a command writes

The transcript of an invocation is what it has written to its streams
and what it does next: it exits with a code, or it waits for a line of
input. It is a function of the source and of the lines read so far, and
it only grows as more lines are read, so an interactive host shows what
is new each time.

Exit codes: 0 for success, 1 for a program with errors, 2 for an
invocation that cannot be carried out and 3 for a run that failed.
-/

namespace Pseudocode.Command

open Text Run Script

inductive Source where
  | text (t : Text)
  | missing (path : Text)
  /-- The file is not text. -/
  | undecodable
deriving DecidableEq, Repr

inductive Crash where
  | undecodable
  | statement
  | index
  /-- The definitions of the script fail. -/
  | script (fault : Fault)
deriving DecidableEq, Repr

inductive Next where
  | exit (code : Nat)
  /-- It waits for a line of input. -/
  | ask
  | crash (c : Crash)
deriving DecidableEq, Repr

structure Transcript where
  out : Text := []
  err : Text := []
  /-- What is to be written to the output file. -/
  file : Option Text := none
  next : Next := .exit 0
deriving DecidableEq, Repr

namespace Transcript

def toErr (t : Transcript) (text : Text) : Transcript :=
  { t with err := t.err ++ text }

def toOut (t : Transcript) (text : Text) : Transcript :=
  { t with out := t.out ++ text }

def exit (t : Transcript) (code : Nat) : Transcript :=
  { t with next := .exit code }

end Transcript

structure Host where
  /-- The time of day that log lines show. -/
  time : Text
  /-- The lines of standard input read so far. -/
  lines : List Text := []
  /-- There are no more lines. -/
  closed : Bool := true
deriving DecidableEq, Repr

/-- Log lines on standard error, as far as they are asked for. -/
def Transcript.logAll (t : Transcript) (i : Invocation) (host : Host) (lines : List LogLine) :
    Transcript :=
  t.toErr ((lines.filter fun l => l.level.shown i.verbosity).flatMap (LogLine.render host.time))

def Invocation.sourceName (i : Invocation) : Text :=
  if i.source = "-" then "<stdin>" else i.source

def Invocation.toFile (i : Invocation) : Bool :=
  i.output.any fun path => path ≠ "-".toList

def diagnosticLines (i : Invocation) (ds : List Diagnostic) : Text :=
  ds.flatMap fun d => d.render i.sourceName ++ "\n"

def diagnosticCode (ds : List Diagnostic) : Nat :=
  if Diagnostic.anyError ds then 1 else 0

def checkText (i : Invocation) (format : CheckFormat) (ds : List Diagnostic) : Text :=
  match format with
  | .gcc => diagnosticLines i ds
  | .json => ds.flatMap fun d => d.json.text ++ "\n"
  | .summary =>
    diagnosticLines i ds ++ "\n--- " ++ ofNat ds.length ++ " diagnostic(s), " ++
      ofNat (Diagnostic.errorCount ds) ++ " error(s) ---\n"

def stepsText (steps : List Flow.Step) : Text :=
  join "\n" (steps.mapIdx fun n step =>
    padLeft ' ' 3 (ofNat n) ++ "  " ++ step.label ++
      match step.backTo with
      | some target => "  (vuelve a " ++ ofNat target ++ ")"
      | none => [])

def variablesText (v : Variables) : Text :=
  join "\n" (v.tables.map fun table =>
    let names := join ", " table.names
    table.scope ++ ": " ++ if names.isEmpty then ['-'] else names)

/-- Output to the output file or to standard output. -/
def Transcript.write (t : Transcript) (i : Invocation) (text : Text) : Transcript :=
  if i.toFile then { t with file := some text } else t.toOut text

/-- A listing as output, with the diagnostics on standard error. -/
def Transcript.deliver (t : Transcript) (i : Invocation) (a : Analysis) (text : Text) :
    Transcript :=
  ((t.write i (endLine text)).toErr (diagnosticLines i a.diagnostics)).exit
    (diagnosticCode a.diagnostics)

def shown (d : Datum) : Text :=
  d.show?.getD []

/-- The line of a step that a run reports. -/
def traceText (labels : List Text) (e : TraceEvent) : Text :=
  let entries := (labels.zip e.snapshot).filterMap fun (label, entry) =>
    entry.map fun (entry : Entry) =>
      label ++ (if entry.state.str? = some "unset".toList then "=?"
        else if entry.state.str? = some "cleared".toList then "=-"
        else "=" ++ shown entry.value : Text)
  "[linea " ++ e.line.text?.getD [] ++ "] " ++ join " " entries ++ "\n"

/-- What an event of a run puts on standard output. -/
def outputOf (prompting : Bool) : Event → Text
  | .write d => d.text?.getD [] ++ "\n"
  | .trace _ => []
  | .read label => if prompting then label ++ "? " else []
  | .print t => t

/-- What an event of a traced run puts on standard error. -/
def traceOf (labels : List Text) : Event → Text
  | .trace e => traceText labels e
  | _ => []

def runLine (message : Text) : LogLine :=
  ⟨.info, "pseudoflow.runtime", message⟩

def Transcript.conclude (t : Transcript) (i : Invocation) (host : Host) :
    Option RunError → Transcript
  | none => (t.logAll i host [runLine "run finished: completed"]).exit 0
  | some error =>
    ((t.logAll i host [runLine "run finished: failed"]).toErr (error.text ++ "\n")).exit 3

/-- Runs a script that was loaded. Without inputs in the invocation it
reads lines of standard input. -/
def Transcript.run (t : Transcript) (i : Invocation) (host : Host) (labels inputs : List Text)
    (trace : Bool) (p : Prepared) : Transcript :=
  let prompting := inputs.isEmpty
  let ended := exec ampleFuel p ((if prompting then host.lines else inputs).map Datum.str)
  let t := t.toOut (ended.log.flatMap (outputOf prompting))
  let t := if trace then t.toErr (ended.log.flatMap (traceOf labels)) else t
  match ended.stop with
  | none => t.conclude i host none
  | some (.failed fault places) => t.conclude i host (some (.ofFault fault places))
  | some (.starved label places) =>
    if !prompting then t.conclude i host (some (.starved label))
    else if host.closed then t.conclude i host (some (.ofFault .endOfInput places))
    else { t with next := .ask }
  | some .outOfFuel => t.exit 3

def Transcript.runProgram (t : Transcript) (i : Invocation) (host : Host) (a : Analysis)
    (inputs : List Text) (trace force : Bool) : Transcript :=
  if a.hasErrors && !force then
    ((t.toErr (diagnosticLines i a.diagnostics)).logAll i host
      [⟨.error, programName, "program has errors; use --force to run it anyway"⟩]).exit 1
  else match prepare a.settings a.script with
    | .ok p => t.run i host a.scopes.labels inputs trace p
    | .error (.raised fault) => { t with next := .crash (.script fault) }
    | .error (.invalid line) =>
      let error := RunError.invalidScript line
      ((t.logAll i host [runLine ("program failed to load: " ++ error.text)]).toErr
        (error.text ++ "\n")).exit 3

def Transcript.perform (t : Transcript) (i : Invocation) (host : Host) (a : Analysis) :
    Transcript :=
  match i.task with
  | .check format =>
    (t.write i (checkText i format a.diagnostics)).exit (diagnosticCode a.diagnostics)
  | .c => t.deliver i a a.cText
  | .script => t.deliver i a a.scriptText
  | .flow json => t.deliver i a (if json then a.chart.json.pretty 0 else a.chart.render)
  | .steps => t.deliver i a (stepsText a.steps)
  | .vars json =>
    t.deliver i a (if json then a.scopes.json.pretty 0 else variablesText a.scopes)
  | .run inputs trace force => t.runProgram i host a inputs trace force

def Invocation.transcript (i : Invocation) (source : Source) (host : Host) : Transcript :=
  match source with
  | .undecodable => { next := .crash .undecodable }
  | .missing path =>
    (({} : Transcript).logAll i host
      [⟨.error, programName, "source file not found: " ++ path⟩]).exit 2
  | .text text =>
    let t := ({} : Transcript).logAll i host (journal i.settings text)
    match Analysis.ofText i.settings text with
    | .ok a => t.perform i host a
    | .error (.settings problems) =>
      (t.logAll i host [⟨.error, programName, Settings.problemText problems⟩]).exit 2
    | .error (.statement _) => { t with next := .crash .statement }
    | .error (.index _) => { t with next := .crash .index }

end Pseudocode.Command
