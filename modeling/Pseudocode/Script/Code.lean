import Pseudocode.Listing
import Pseudocode.Statement.Basic
import Pseudocode.Text.Quoted

/-!
# The lines of a traced script

A traced script is a program in Python that runs the pseudocode and
reports every step to its host. `Code` lists the lines it is made of,
with the parts that vary; `Code.text` writes them. Expressions are kept
as text, already counted from zero and with operators as words.

The names that start with two underscores belong to the script itself:
`__UNSET` is the value of a variable before anything is stored in it,
`__slot` describes a variable for a snapshot, `__trace`, `__write` and
`__read` talk to the host, `__text` writes a value as output and `__span`
lists the values of a counted loop's counter.
-/

namespace Pseudocode.Script

open Text

/-- How a snapshot shows a variable that has a value. -/
inductive SlotState where
  | value
  /-- The value a counted loop has just given to its counter. -/
  | forced
  /-- The value it has as its function returns. -/
  | cleared
deriving DecidableEq, Repr

def SlotState.name : SlotState → Text
  | .value => "value"
  | .forced => "forced"
  | .cleared => "cleared"

/-- What a snapshot asks for one slot. -/
inductive SlotView where
  /-- The slot is of another scope. -/
  | elsewhere
  | shown (name : Text) (state : SlotState)
deriving DecidableEq, Repr

inductive Code where
  | comment (text : Text)
  /-- A line that is the same in every script. -/
  | support (text : Text)
  | entry (name : Text)
  | defineMain
  | define (name : Text) (params : List Text)
  | unset (name : Text)
  | declare (type : ValueType) (name : Text) (size : Option Nat)
  /-- Stores a value from the host in a variable or a cell. -/
  | read (target name : Text)
  /-- Reports a step, with the output variable of a write. -/
  | trace (line : Nat) (snapshot : List SlotView) (output : Option Nat)
  | whileTest (condition : Text)
  | count (counter start stop : Text)
  /-- The head of a loop that is left by a test inside it. -/
  | forever
  | ifTest (condition : Text)
  | otherwise
  | leaveLoop
  | compose (output : Nat) (parts : List Text)
  | write (output : Nat)
  | leaveScope
  /-- Calls a function of the program, or anything else. -/
  | call (isFunction : Bool) (text : Text)
  /-- Does nothing, where a line is needed. -/
  | pass
deriving DecidableEq, Repr

def firstValue : ValueType → Text
  | .entero => "0"
  | .booleano => "False"
  | .caracter => "\"\""
  | .cadena => "\"\""

def outputName (n : Nat) : Text :=
  "__out" ++ ofNat n

def SlotView.text : SlotView → Text
  | .elsewhere => "None"
  | .shown name .value => "__slot(" ++ name ++ ")"
  | .shown name state => "__slot(" ++ name ++ ", " ++ quoted state.name ++ ")"

def Code.text : Code → Text
  | .comment t => CommentStyle.hash.comment t
  | .support t => t
  | .entry name => "async def " ++ name ++ "(io):"
  | .defineMain => "async def __main():"
  | .define name params => "async def " ++ name ++ "(" ++ join ", " params ++ "):"
  | .unset name => name ++ " = __UNSET"
  | .declare type name none => name ++ " = " ++ firstValue type
  | .declare type name (some size) =>
    name ++ " = [" ++ firstValue type ++ "] * " ++ ofNat size
  | .read target name => target ++ " = await __read(" ++ quoted name ++ ")"
  | .trace line snapshot output =>
    let output : Text := match output with
      | some n => ", " ++ outputName n
      | none => []
    "__trace(" ++ ofNat line ++ ", [" ++ join ", " (snapshot.map SlotView.text) ++ "]" ++
      output ++ ")"
  | .whileTest condition => "while " ++ condition ++ ":"
  | .count counter start stop =>
    "for " ++ counter ++ " in __span(" ++ start ++ ", " ++ stop ++ "):"
  | .forever => "while True:"
  | .ifTest condition => "if " ++ condition ++ ":"
  | .otherwise => "else:"
  | .leaveLoop => "break"
  | .compose output parts =>
    let value := if parts.isEmpty then quoted [] else join " + " parts
    outputName output ++ " = " ++ value
  | .write output => "__write(" ++ outputName output ++ ")"
  | .leaveScope => "return"
  | .call isFunction t => if isFunction then "await " ++ t else t
  | .pass => "pass"

abbrev Lines := Listing Code Nat

/-- The lines of the routines that every traced script defines first. -/
def supportLines : List Text := List.map String.toList [
  "__UNSET = object()",
  "",
  "def __slot(value, state=\"value\"):",
  "    if value is __UNSET:",
  "        return \x7b\"state\": \"unset\", \"value\": None\x7d",
  "    if isinstance(value, list):",
  "        value = list(value)",
  "    return \x7b\"state\": state, \"value\": value\x7d",
  "",
  "def __trace(line, snapshot, output=\"\"):",
  "    hook = getattr(io, \"trace\", None)",
  "    if hook is not None:",
  "        hook(line, snapshot, output)",
  "",
  "def __text(value):",
  "    if value is __UNSET:",
  "        return \"undefined\"",
  "    if value is True:",
  "        return \"verdadero\"",
  "    if value is False:",
  "        return \"falso\"",
  "    return str(value)",
  "",
  "def __write(text):",
  "    io.write(text)",
  "",
  "def __coerce(raw):",
  "    if not isinstance(raw, str):",
  "        return raw",
  "    text = raw.strip()",
  "    try:",
  "        return int(text)",
  "    except ValueError:",
  "        pass",
  "    try:",
  "        return float(text)",
  "    except ValueError:",
  "        return raw",
  "",
  "async def __read(label):",
  "    return __coerce(await io.read(label))",
  "",
  "def __span(start, end):",
  "    start, end = int(start), int(end)",
  "    if start <= end:",
  "        return range(start, end + 1)",
  "    return range(start, end - 1, -1)"]

end Pseudocode.Script
