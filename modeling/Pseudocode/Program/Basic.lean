import Pseudocode.Statement.Basic

/-!
# Programs

A program is a list of functions and a main body. A body is the flat
list of its statements: a block is the run of statements from its
opening to its closing one, and every user of a body finds the nesting
again in one pass.
-/

namespace Pseudocode

structure Function where
  name : Text
  params : List Text
  headerLine : Nat
  body : List Statement
deriving DecidableEq, Repr

/-- The name of a function's scope, the same for functions of the same
name. -/
def Function.scopeName (f : Function) : Text :=
  "fn:" ++ f.name

structure Program where
  /-- The name that the first `programa` line gives. -/
  name : Option Text
  functions : List Function
  main : List Statement
deriving DecidableEq, Repr

namespace Program

def mainScope : Text := "main"

def findFunction? (p : Program) (name : Text) : Option Function :=
  p.functions.find? fun f => f.name == name

/-- The scopes with their bodies, main first. -/
def scopes (p : Program) : List (Text × List Statement) :=
  (mainScope, p.main) :: p.functions.map fun f => (f.scopeName, f.body)

end Program

/-- What a line opens: a scope, or a block inside one. -/
inductive Block where
  | function
  | main
  | whileLoop
  | forLoop
  | repeatLoop
  | ifTest
deriving DecidableEq, Repr

namespace Block

def word : Block → Text
  | .function => "funcion"
  | .main => "inicio"
  | .whileLoop => "mientras"
  | .forLoop => "para"
  | .repeatLoop => "repetir"
  | .ifTest => "si"

/-- What closes the block, as a user writes it. -/
def closer : Block → Text
  | .function => "fin"
  | .main => "fin"
  | .whileLoop => "finmientras"
  | .forLoop => "finpara"
  | .repeatLoop => "hasta(...)"
  | .ifTest => "finsi"

def isScope : Block → Bool
  | .function => true
  | .main => true
  | _ => false

end Block

def Kind.opens? : Kind → Option Block
  | .function => some .function
  | .malformedFunction => some .function
  | .main => some .main
  | .whileLoop => some .whileLoop
  | .forLoop => some .forLoop
  | .repeatLoop => some .repeatLoop
  | .ifTest => some .ifTest
  | _ => none

def Kind.closes? : Kind → Option Block
  | .endWhile => some .whileLoop
  | .endFor => some .forLoop
  | .untilTest => some .repeatLoop
  | .endIf => some .ifTest
  | _ => none

def Kind.closingWord : Kind → Text
  | .endWhile => "finmientras"
  | .endFor => "finpara"
  | .untilTest => "hasta"
  | .endIf => "finsi"
  | .endScope => "fin"
  | _ => []

end Pseudocode
