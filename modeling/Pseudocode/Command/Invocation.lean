import Pseudocode.Command.Arguments
import Pseudocode.Number.Reading
import Pseudocode.Settings

/-!
# What a command line asks for

A command line names one of the commands, the source of the program and
options of the command. Options before the command are about the whole
program: help, the version and how much is logged.
-/

namespace Pseudocode.Command

open Text

inductive CheckFormat where
  | gcc
  | json
  | summary
deriving DecidableEq, Repr

inductive Task where
  | check (format : CheckFormat)
  | c
  | script
  | flow (json : Bool)
  | steps
  | vars (json : Bool)
  | run (inputs : List Text) (trace force : Bool)
deriving DecidableEq, Repr

structure Invocation where
  task : Task
  /-- A file's path, or `-` for standard input. -/
  source : Text
  indentWidth : Option Int
  bufferSize : Option Int
  /-- A file's path; `-` or nothing for standard output. -/
  output : Option Text
  verbosity : Nat
deriving DecidableEq, Repr

def Invocation.settings (i : Invocation) : Settings :=
  let d : Settings := {}
  { d with
    indentWidth := i.indentWidth.getD d.indentWidth
    bufferSize := i.bufferSize.getD d.bufferSize }

inductive Key where
  | help
  | version
  | verbose
  | indentWidth
  | bufferSize
  | output
  | format
  | input
  | trace
  | force
deriving DecidableEq, Repr

def programName : Text := "pseudoflow"

def versionText : Text := "pseudoflow 0.1.0\n"

/-- The names of the commands; the second one is another name of the
first. -/
def commandNames : List Text :=
  List.map String.toList ["check", "lint", "c", "python", "flow", "steps", "vars", "run"]

def helpOption : OptionSpec Key := ⟨.help, ["-h", "--help"].map String.toList, false⟩

def generalOptions : List (OptionSpec Key) := [
  helpOption,
  ⟨.version, ["--version"].map String.toList, false⟩,
  ⟨.verbose, ["-v", "--verbose"].map String.toList, false⟩]

def sourceOptions : List (OptionSpec Key) := [
  helpOption,
  ⟨.indentWidth, ["--indent-width"].map String.toList, true⟩,
  ⟨.bufferSize, ["--buffer-size"].map String.toList, true⟩]

def outputOption : OptionSpec Key := ⟨.output, ["-o", "--output"].map String.toList, true⟩

def formatOption : OptionSpec Key := ⟨.format, ["-f", "--format"].map String.toList, true⟩

def runOptions : List (OptionSpec Key) := [
  ⟨.input, ["-i", "--input"].map String.toList, true⟩,
  ⟨.trace, ["--trace"].map String.toList, false⟩,
  ⟨.force, ["--force"].map String.toList, false⟩]

/-- The formats that a command can write, the usual one first. -/
def formats (command : Text) : List Text :=
  List.map String.toList
    (if command = "check" then ["gcc", "json", "summary"]
    else if command = "flow" then ["mermaid", "json"]
    else if command = "vars" then ["text", "json"]
    else [])

def optionsOf (command : Text) : List (OptionSpec Key) :=
  sourceOptions ++
    (if command = "run" then runOptions
    else if (formats command).isEmpty then [outputOption]
    else [outputOption, formatOption])

/-- What is known of a command while its arguments are read. -/
structure Draft where
  source : Option Text := none
  indentWidth : Option Int := none
  bufferSize : Option Int := none
  output : Option Text := none
  format : Text
  inputs : List Text := []
  trace : Bool := false
  force : Bool := false
deriving DecidableEq, Repr

def Draft.task (d : Draft) (command : Text) : Task :=
  if command = "check" then
    .check (if d.format = "json" then .json else if d.format = "summary" then .summary else .gcc)
  else if command = "c" then .c
  else if command = "python" then .script
  else if command = "flow" then .flow (d.format = "json")
  else if command = "steps" then .steps
  else if command = "vars" then .vars (d.format = "json")
  else .run d.inputs d.trace d.force

def integer (option value : Text) : Except Misuse Int :=
  match Number.readInt value with
  | .value n => .ok n
  | _ => .error (.badInteger option value)

def Draft.take (command : Text) (d : Draft) (key : Key) (value : Option Text) :
    Except Halt Draft :=
  let value := value.getD []
  match key with
  | .help => .error .help
  | .version => .error .version
  | .verbose => .ok d
  | .indentWidth => do
    let n ← (integer "--indent-width" value).mapError (.misuse (programName ++ " " ++ command))
    return { d with indentWidth := some n }
  | .bufferSize => do
    let n ← (integer "--buffer-size" value).mapError (.misuse (programName ++ " " ++ command))
    return { d with bufferSize := some n }
  | .output => .ok { d with output := some value }
  | .format =>
    if (formats command).contains value then .ok { d with format := value }
    else .error (.misuse (programName ++ " " ++ command)
      (.badChoice formatOption.title value (formats command)))
  | .input => .ok { d with inputs := d.inputs ++ [value] }
  | .trace => .ok { d with trace := true }
  | .force => .ok { d with force := true }

/-- Reads the arguments of a command; what is left over is given too. -/
def readCommand (command : Text) (arguments : List Text) :
    Except Halt (Draft × Text × List Text) := do
  let title := programName ++ " " ++ command
  let reader : Reader Key Draft :=
    { options := optionsOf command
      placing := .single
      take := Draft.take command
      place := fun d args => .ok { d with source := args.head? } }
  let r ← reader.run title { format := (formats command).head?.getD [] } arguments
  match r.state.source with
  | some source => return (r.state, source, r.leftOver)
  | none => throw (.misuse title (.required "SOURCE"))

/-- What is known of a command line while it is read. -/
structure LineDraft where
  verbosity : Nat := 0
  command : Option (Text × Draft × Text) := none
  leftOver : List Text := []
deriving DecidableEq, Repr

def LineDraft.take (l : LineDraft) (key : Key) (_ : Option Text) : Except Halt LineDraft :=
  match key with
  | .help => .error .help
  | .version => .error .version
  | .verbose => .ok { l with verbosity := l.verbosity + 1 }
  | _ => .ok l

def LineDraft.place (l : LineDraft) (arguments : List Text) : Except Halt LineDraft := do
  match arguments with
  | [] => return l
  | name :: rest =>
    if commandNames.contains name then
      let command : Text := if name = "lint" then "check" else name
      let (draft, source, leftOver) ← readCommand command rest
      return { l with command := some (command, draft, source), leftOver }
    else throw (.misuse programName (.badChoice "<command>" name commandNames))

/-- Reads a command line. Without a command there is nothing to do. -/
def Invocation.ofArguments (arguments : List Text) : Except Halt (Option Invocation) := do
  let reader : Reader Key LineDraft :=
    { options := generalOptions
      placing := .gathering
      take := LineDraft.take
      place := LineDraft.place }
  let r ← reader.run programName {} arguments
  let leftOver := r.leftOver ++ r.state.leftOver
  if !leftOver.isEmpty then throw (.misuse programName (.unrecognized leftOver))
  return r.state.command.map fun (command, d, source) =>
    { task := d.task command
      source
      indentWidth := d.indentWidth
      bufferSize := d.bufferSize
      output := d.output
      verbosity := r.state.verbosity }

end Pseudocode.Command
