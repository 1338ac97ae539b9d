import Pseudocode.Script.Scan
import Pseudocode.Script.Syntax

/-!
# Reading tokens

A reader takes tokens from the front and may fail at one of them. It
keeps what is known of the routine it is in: the names that the routine
binds and the loops around. Some faults do not stop the reading; they
are noted with their lines and reported if nothing worse is found.
-/

namespace Pseudocode.Script

inductive ReadFault where
  | unexpected (line : Nat)
  /-- At a line that is indented without a reason. -/
  | misplaced (line : Nat)
  | exhausted
  /-- At an expression on a line, when a token on a later one was read. -/
  | incomplete (line last : Nat)
deriving DecidableEq, Repr

/-- What is known of a routine while it is read. -/
structure RoutineDraft where
  /-- What stands before the names of routines defined here. -/
  path : Text := []
  isRoutine : Bool := false
  isAsync : Bool := false
  locals : List Text := []
  yields : Bool := false
  /-- The lines on which it ends with a value. -/
  results : List Nat := []
  loops : Nat := 0
deriving DecidableEq, Repr

structure ReadState where
  tokens : List Placed
  line : Nat := 1
  routine : RoutineDraft := {}
  /-- The lines on which a routine has a parameter twice. -/
  nameFaults : List Nat := []
  /-- The lines with other faults that do not stop the reading. -/
  codeFaults : List Nat := []
  /-- The reader only tries whether an expression could follow. -/
  trying : Bool := false
deriving Repr

abbrev Read := StateT ReadState (Except ReadFault)

namespace Read

def fail {α : Type} : Read α := do
  match (← get).tokens with
  | [] => throw .exhausted
  | p :: _ => throw (if p.token == .indent || p.token == .dedent then .misplaced p.line
      else .unexpected p.line)

def token? : Read (Option Token) :=
  return (← get).tokens.head?.map Placed.token

/-- The line of the next token; at the end, that of the statement. -/
def lineHere : Read Nat := do
  let s ← get
  return (s.tokens.head?.map Placed.line).getD s.line

def advance : Read Unit :=
  modify fun s => { s with tokens := s.tokens.drop 1 }

def next (p : Token → Bool) : Read Bool :=
  return (← token?).any p

def accept (p : Token → Bool) : Read Bool := do
  if ← next p then
    advance
    return true
  else return false

def nextOp (t : Text) : Read Bool :=
  next (Token.isOp t)

def acceptOp (t : Text) : Read Bool :=
  accept (Token.isOp t)

def expectOp (t : Text) : Read Unit := do
  if !(← acceptOp t) then fail

def nextWord (t : Text) : Read Bool :=
  next (Token.isKeyword t)

def acceptWord (t : Text) : Read Bool :=
  accept (Token.isKeyword t)

def expectWord (t : Text) : Read Unit := do
  if !(← acceptWord t) then fail

def expectName : Read Text := do
  match ← token? with
  | some (.name t) =>
    advance
    return t
  | _ => fail

def acceptNameBefore (op : Text) : Read (Option Text) := do
  match (← get).tokens with
  | ⟨.name t, _, _⟩ :: ⟨.op o, _, _⟩ :: rest =>
    if o = op then
      modify fun s => { s with tokens := rest }
      return some t
    else return none
  | _ => return none

/-- Notes a fault that does not stop the reading. -/
def note : Read Unit := do
  let line ← lineHere
  modify fun s => { s with codeFaults := s.codeFaults ++ [line] }

def require (condition : Bool) : Read Unit := do
  if !condition then note

def bindName (name : Text) : Read Unit := do
  require (name ≠ "__debug__".toList)
  modify fun s =>
    if s.routine.locals.contains name then s
    else { s with routine := { s.routine with locals := s.routine.locals ++ [name] } }

/-- An expression that starts on a line, marked if its statement starts
on another one. -/
def mark (line : Nat) (e : Expr) : Read Expr := do
  return if line = (← get).line then e else .located line e

/-- Reads inside another routine; gives also what is known of it then. -/
def within {α : Type} (r : RoutineDraft) (read : Read α) : Read (α × RoutineDraft) := do
  let outer := (← get).routine
  modify fun s => { s with routine := r }
  let a ← read
  let inner := (← get).routine
  modify fun s => { s with routine := outer }
  return (a, inner)

end Read

def Token.startsExpr : Token → Bool
  | .name _ | .int _ | .float _ | .imaginary _ | .str _ | .bytes _ | .template _ _ => true
  | .unusable => true
  | .keyword t =>
    (List.map String.toList ["not", "lambda", "await", "None", "True", "False"]).contains t
  | .op t =>
    (List.map String.toList ["(", "[", "\x7b", "-", "+", "~", "...", "*"]).contains t
  | .newline | .indent | .dedent => false

mutual

/-- An expression that a value can be stored in. -/
def Expr.isTarget : Expr → Bool
  | .name _ | .attribute _ _ | .item _ _ => true
  | .tuple items | .list items => Expr.areTargets items
  | .spread e | .located _ e => e.isTarget
  | _ => false

/-- The same for all expressions of a list. -/
def Expr.areTargets : List Expr → Bool
  | [] => true
  | e :: rest => e.isTarget && Expr.areTargets rest

end

mutual

def Expr.targetNames : Expr → List Text
  | .name t => [t]
  | .tuple items | .list items => Expr.allTargetNames items
  | .spread e | .located _ e => e.targetNames
  | _ => []

def Expr.allTargetNames : List Expr → List Text
  | [] => []
  | e :: rest => e.targetNames ++ Expr.allTargetNames rest

end

/-- An expression that stands for all values of another one. -/
def Expr.isSpread (e : Expr) : Bool :=
  match e.bare with
  | .spread _ => true
  | _ => false

mutual

/-- At most one of the parts of a target, and of each of its parts, takes
all values that are left over. -/
def Expr.spreadsOnce : Expr → Bool
  | .tuple items | .list items =>
    (items.filter Expr.isSpread).length ≤ 1 && Expr.allSpreadOnce items
  | .spread e | .located _ e => e.spreadsOnce
  | _ => true

/-- The same for all expressions of a list. -/
def Expr.allSpreadOnce : List Expr → Bool
  | [] => true
  | e :: rest => e.spreadsOnce && Expr.allSpreadOnce rest

end

/-- An expression that can be deleted. -/
def Expr.isDeletable (e : Expr) : Bool :=
  e.isTarget && !e.isSpread

/-- An expression of one place, which a value can be added to. -/
def Expr.isPlace (e : Expr) : Bool :=
  match e.bare with
  | .name _ | .attribute _ _ | .item _ _ => true
  | _ => false

end Pseudocode.Script
