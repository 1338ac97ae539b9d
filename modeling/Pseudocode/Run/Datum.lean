import Pseudocode.Number.Shortest
import Pseudocode.Text.Digits
import Pseudocode.Text.Quoted

/-!
# Values outside a run

Inputs, outputs and snapshots are data: values with everything in them
written out. A datum is shown as it would be written in a script.
-/

namespace Pseudocode.Run

open Text

/-- A value as it goes into a run or comes out of it. -/
inductive Datum where
  | nothing
  | bool (b : Bool)
  | int (n : Int)
  | float (x : Float)
  | str (t : Text)
  | list (items : List Datum)
  | tuple (items : List Datum)
  | set (items : List Datum)
  | dict (entries : List (Datum × Datum))
  /-- A value of which only the type and how it is shown matter. -/
  | object (type shown : Text)
deriving Inhabited, Repr

/-- An integer that is written in no more digits than are allowed. -/
def isShort (n : Int) : Bool :=
  n.natAbs < Nat.pow 10 digitLimit

def bracketed (opening : Text) (parts : List Text) (closing : Text) : Text :=
  opening ++ join ", " parts ++ closing

mutual

/-- A datum as it is shown inside an array or in a trace; `none` if it
holds an integer of too many digits. -/
def Datum.show? : Datum → Option Text
  | .nothing => some "None"
  | .bool true => some "True"
  | .bool false => some "False"
  | .int n => if isShort n then some (ofInt n) else none
  | .float x => some (Number.ofFloat x)
  | .str t => some (quoted t)
  | .list items => do return bracketed "[" (← Datum.showAll? items) "]"
  | .tuple items => do
    match ← Datum.showAll? items with
    | [only] => return "(" ++ only ++ ",)"
    | parts => return bracketed "(" parts ")"
  | .set items => do
    match ← Datum.showAll? items with
    | [] => return "set()"
    | parts => return bracketed "\x7b" parts "\x7d"
  | .dict entries => do return bracketed "\x7b" (← Datum.showEntries? entries) "\x7d"
  | .object _ shown => some shown

/-- The same for several data, in order. -/
def Datum.showAll? : List Datum → Option (List Text)
  | [] => some []
  | d :: rest => do
    let t ← d.show?
    return t :: (← Datum.showAll? rest)

/-- The same for the entries of a dictionary, in order. -/
def Datum.showEntries? : List (Datum × Datum) → Option (List Text)
  | [] => some []
  | (key, d) :: rest => do
    let k ← key.show?
    let t ← d.show?
    return (k ++ ": " ++ t) :: (← Datum.showEntries? rest)

end

/-- A datum as output text: a text as it is, anything else as shown. -/
def Datum.text? : Datum → Option Text
  | .str t => some t
  | d => d.show?

def Datum.str? : Datum → Option Text
  | .str t => some t
  | _ => none

end Pseudocode.Run
