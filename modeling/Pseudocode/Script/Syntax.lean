import Pseudocode.Script.Token

/-!
# What a script says

The syntax of a script that was read: expressions, and statements made
of them. Parts of an expression that start on another line than their
statement are marked with their line, so that a fault can be told by its
line. Targets, which values are stored in, are expressions too.
-/

namespace Pseudocode.Script

inductive BinaryOp where
  | add
  | sub
  | mul
  | div
  | floorDiv
  | mod
  | power
  | matMul
  | shiftLeft
  | shiftRight
  | bitAnd
  | bitXor
  | bitOr
deriving DecidableEq, Repr

inductive UnaryOp where
  | plus
  | minus
  | invert
deriving DecidableEq, Repr

inductive CompareOp where
  | eq
  | ne
  | lt
  | le
  | gt
  | ge
  | within
  | notWithin
  | same
  | notSame
deriving DecidableEq, Repr

def BinaryOp.text : BinaryOp → Text
  | .add => "+"
  | .sub => "-"
  | .mul => "*"
  | .div => "/"
  | .floorDiv => "//"
  | .mod => "%"
  | .power => "**"
  | .matMul => "@"
  | .shiftLeft => "<<"
  | .shiftRight => ">>"
  | .bitAnd => "&"
  | .bitXor => "^"
  | .bitOr => "|"

def BinaryOp.all : List BinaryOp :=
  [.add, .sub, .mul, .div, .floorDiv, .mod, .power, .matMul, .shiftLeft, .shiftRight, .bitAnd,
    .bitXor, .bitOr]

def BinaryOp.ofText? (t : Text) : Option BinaryOp :=
  BinaryOp.all.find? fun op => op.text == t

def UnaryOp.text : UnaryOp → Text
  | .plus => "+"
  | .minus => "-"
  | .invert => "~"

def UnaryOp.ofText? (t : Text) : Option UnaryOp :=
  [UnaryOp.plus, .minus, .invert].find? fun op => op.text == t

def CompareOp.text : CompareOp → Text
  | .eq => "=="
  | .ne => "!="
  | .lt => "<"
  | .le => "<="
  | .gt => ">"
  | .ge => ">="
  | .within => "in"
  | .notWithin => "not in"
  | .same => "is"
  | .notSame => "is not"

def CompareOp.ofSign? (t : Text) : Option CompareOp :=
  [CompareOp.eq, .ne, .lt, .le, .gt, .ge].find? fun op => op.text == t

/-- How a parameter takes its argument. -/
inductive ParamKind where
  | position
  | plain
  /-- All arguments by position that are left over. -/
  | others
  | named
  /-- All arguments by name that are left over. -/
  | otherNames
deriving DecidableEq, Repr

structure Param (ε : Type) where
  kind : ParamKind
  name : Text
  initial : Option ε := none
  note : Option ε := none
deriving Repr

/-- A source of values for a collection, with the conditions on them. -/
structure Clause (ε : Type) where
  target : ε
  source : ε
  conditions : List ε
deriving Repr

/-- What a collection of values makes. -/
inductive Collection where
  | list
  | set
  | dict
  /-- Values that are made when they are asked for. -/
  | stream
deriving DecidableEq, Repr

/-- How a value is turned into text inside a template. -/
inductive Conversion where
  | plain
  | text
  | shown
  | ascii
deriving DecidableEq, Repr

inductive Expr where
  | nothing
  | bool (b : Bool)
  | int (n : Nat)
  | float (x : Float)
  | str (t : Text)
  | bytes (t : Text)
  | imaginary (x : Float)
  | ellipsis
  | name (t : Text)
  | tuple (items : List Expr)
  | list (items : List Expr)
  | set (items : List Expr)
  /-- Entries with their keys; one without a key stands for all entries of
  another. -/
  | dict (entries : List (Option Expr × Expr))
  /-- All values of another one, in a list, a tuple or a call. -/
  | spread (e : Expr)
  | attribute (e : Expr) (name : Text)
  | item (e index : Expr)
  | slice (low high step : Option Expr)
  /-- A call, with arguments by position and by name; one without a name
  stands for all entries of a dictionary. -/
  | call (callee : Expr) (args : List Expr) (named : List (Option Text × Expr))
  | unary (op : UnaryOp) (e : Expr)
  | binary (op : BinaryOp) (left right : Expr)
  /-- A chain of comparisons with its first operand. -/
  | compare (first : Expr) (rest : List (CompareOp × Expr))
  | and (left right : Expr)
  | or (left right : Expr)
  | not (e : Expr)
  | choice (test yes no : Expr)
  | lambda (path : Text) (params : List (Param Expr)) (locals : List Text) (body : Expr)
  | store (name : Text) (e : Expr)
  /-- A value, or a key and a value, for all values of the clauses, with
  the names that the clauses bind. -/
  | collect (kind : Collection) (key : Option Expr) (value : Expr)
      (clauses : List (Clause Expr)) (locals : List Text)
  | await (e : Expr)
  | yield (e : Option Expr)
  | template (parts : List Expr)
  | formatted (e : Expr) (conversion : Conversion) (format : Option Expr)
  /-- An expression that starts on another line than its statement. -/
  | located (line : Nat) (e : Expr)
deriving Repr

/-- An expression without the mark of its line. -/
def Expr.bare : Expr → Expr
  | .located _ e => e.bare
  | e => e

inductive Action where
  | evaluate (e : Expr)
  | assign (targets : List Expr) (e : Expr)
  /-- Names the type of a target, and may store a value in it. -/
  | annotate (target note : Expr) (e : Option Expr)
  | augment (op : BinaryOp) (target e : Expr)
  | delete (targets : List Expr)
  | assert (test : Expr) (message : Option Expr)
  | raise (e cause : Option Expr)
  | leaveLoop
  | nextRound
  | leaveScope (e : Option Expr)
  | pass
deriving Repr

structure RoutineOf (σ : Type) where
  name : Text
  /-- Its name with the names of the routines around it. -/
  path : Text
  isAsync : Bool
  /-- It gives values out as it runs. -/
  yields : Bool
  params : List (Param Expr)
  note : Option Expr
  /-- The names that it binds, parameters included. -/
  locals : List Text
  body : List σ
deriving Repr

/-- What is done about faults of a block. -/
structure HandlerOf (σ : Type) where
  line : Nat
  /-- The faults it is for; all, if it does not say. -/
  kind : Option Expr
  name : Option Text
  body : List σ
deriving Repr

/-- A statement, with the line it starts on. The second block of a loop
runs when the loop ends without being left. -/
inductive Node where
  | action (line : Nat) (a : Action)
  | choice (line : Nat) (test : Expr) (body otherwise : List Node)
  | whileLoop (line : Nat) (test : Expr) (body otherwise : List Node)
  | forLoop (line : Nat) (target source : Expr) (body otherwise : List Node)
  | guarded (line : Nat) (body : List Node) (handlers : List (HandlerOf Node))
      (otherwise final : List Node)
  | define (line : Nat) (r : RoutineOf Node)
deriving Repr

abbrev Routine := RoutineOf Node

end Pseudocode.Script
