import Pseudocode.Script.Code
import Pseudocode.Script.ReadNode
import Pseudocode.Settings

/-!
# Reading a script

A traced script holds text that a user wrote, so it may fail to be a
program. It is read from its rendered text, whose line ends need not be
those of the listing, and a fault is reported by the origin that the
listing has for the number of its line.

A fault in the tokens that stops the cutting is reported before a fault
in the statements, wherever it is, unless the first is only a bracket
that is not closed or a line that cannot be placed.
-/

namespace Pseudocode.Script

open Text

inductive LoadFault where
  | invalid (line : Option Nat)
  | nullCharacter
deriving DecidableEq, Repr

structure Executable where
  entryPoint : Text
  body : List Node
  /-- The origins of the script's lines, in order. -/
  origins : Array (Option Nat)
deriving Repr

def Executable.origin (x : Executable) (line : Nat) : Option Nat :=
  if line = 0 then none else (x.origins[line - 1]?).join

def ScanEnd.line : ScanEnd → Nat
  | .complete line => line
  | .invalid line => line
  | .unclosed line => line
  | .broken line _ => line

/-- The line that is reported for a fault on a line, when a token on
line `last` was the last one read. -/
def ScanEnd.report (e : ScanEnd) (line last : Nat) : Nat :=
  match e with
  | .invalid l => l
  | .unclosed l | .broken _ (some l) => if l < last then l else line
  | .complete _ | .broken _ none => line

def ReadFault.line (e : ScanEnd) : ReadFault → Nat
  | .unexpected line => e.report line line
  | .misplaced line => line
  | .exhausted => e.line
  | .incomplete line last => e.report line last

/-- Reads the statements of a script; the line of the first fault, if it
has one. -/
def readText (t : Text) : Except Nat (List Node) :=
  let t := unifyLineEnds t
  let (tokens, ending) := scan t
  match (readScript (exprFuel t)).run { tokens } with
  | .error fault => .error (fault.line ending)
  | .ok (nodes, s) =>
    match ending, s.nameFaults ++ s.codeFaults with
    | .complete _, [] => .ok nodes
    | .complete _, line :: _ => .error line
    | ending, _ => .error ending.line

/-- Reads a text as a script whose lines have the given origins. -/
def loadText (entryPoint : Text) (origins : Array (Option Nat)) (t : Text) :
    Except LoadFault Executable :=
  let x : Executable := ⟨entryPoint, [], origins⟩
  if t.contains (Char.ofNat 0) then .error .nullCharacter
  else match readText t with
    | .error line => .error (.invalid (x.origin line))
    | .ok body => .ok { x with body }

def load (settings : Settings) (l : Lines) : Except LoadFault Executable :=
  loadText settings.entryPoint (l.lines.map (Listing.originOf Code.text))
    (l.render settings.scriptIndent Code.text)

end Pseudocode.Script
