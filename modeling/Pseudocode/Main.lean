import Pseudocode.Command.Transcript
import Std.Time

/-!
# The program

Reads the arguments and the source, and then shows the transcript of the
invocation as it grows, reading a line of standard input whenever the
transcript asks for one.
-/

namespace Pseudocode.Command

open Text

def helpText : String :=
  "usage: pseudoflow [-h] [--version] [-v] <command> SOURCE [options]\n\n" ++
  "commands:\n" ++
  "  check, lint  report diagnostics          -f gcc|json|summary  -o FILE\n" ++
  "  c            print the C listing         -o FILE\n" ++
  "  python       print the traced script     -o FILE\n" ++
  "  flow         print the flow chart        -f mermaid|json  -o FILE\n" ++
  "  steps        print the linear steps      -o FILE\n" ++
  "  vars         print the variables         -f text|json  -o FILE\n" ++
  "  run          run the program             -i VALUE  --trace  --force\n\n" ++
  "options of every command:\n" ++
  "  --indent-width N  --buffer-size N\n"

def clock : IO Text := do
  let now ← Std.Time.PlainDateTime.now
  return (now.format "HH:mm:ss").toList

def readSource (path : Text) : IO Source := do
  match ← (IO.FS.readBinFile (String.ofList path)).toBaseIO with
  | .ok bytes =>
    match String.fromUTF8? bytes with
    | some t => return .text (unifyLineEnds t.toList)
    | none => return .undecodable
  | .error (.noFileOrDirectory ..) => return .missing path
  | .error e => throw e

def writeOutput (path text : Text) : IO Unit := do
  IO.FS.createDirAll (String.ofList (parentPath path))
  IO.FS.writeFile (String.ofList path) (String.ofList text)

def showNew (before now : Transcript) : IO Unit := do
  IO.eprint (String.ofList (now.err.drop before.err.length))
  IO.print (String.ofList (now.out.drop before.out.length))
  (← IO.getStdout).flush

partial def interact (i : Invocation) (source : Source) (host : Host) (before : Transcript) :
    IO Transcript := do
  let now := i.transcript source host
  showNew before now
  match now.next with
  | .ask =>
    let line ← (← IO.getStdin).getLine
    if line.isEmpty then interact i source { host with closed := true } now
    else
      let lines := linesOf (unifyLineEnds line.toList)
      interact i source { host with lines := host.lines ++ lines } now
  | _ => return now

def carryOut (i : Invocation) : IO UInt32 := do
  let directory := (← IO.currentDir).toString.toList
  let home := ((← IO.getEnv "HOME").getD "").toList
  let fromInput := i.source = "-".toList
  let source ←
    if fromInput then
      pure (Source.text (unifyLineEnds (← (← IO.getStdin).readToEnd).toList))
    else readSource (resolvePath directory home i.source)
  let t ← interact i source { time := ← clock, closed := fromInput } {}
  match t.file, i.output with
  | some text, some path => writeOutput (resolvePath directory home path) text
  | _, _ => pure ()
  match t.next with
  | .exit code => return code.toUInt32
  | .ask => return 3
  | .crash _ =>
    IO.eprintln "pseudoflow: the source cannot be analysed"
    return 1

def start (arguments : List Text) : IO UInt32 := do
  match Invocation.ofArguments arguments with
  | .ok (some i) => carryOut i
  | .ok none =>
    IO.eprint helpText
    return 2
  | .error .help =>
    IO.print helpText
    return 0
  | .error .version =>
    IO.print (String.ofList versionText)
    return 0
  | .error (.misuse command m) =>
    IO.eprintln (String.ofList (command ++ ": error: " ++ m.message))
    return 2

end Pseudocode.Command

def main (arguments : List String) : IO UInt32 :=
  Pseudocode.Command.start (arguments.map String.toList)
