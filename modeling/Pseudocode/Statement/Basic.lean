import Pseudocode.Text.Basic

/-!
# The forms of a statement

A program is a sequence of lines, and each line that is not blank is one
statement. `Form` lists the forms a line can have, with the parts of the
line that each form keeps; `Kind` is a form without its parts. Blocks
are not nested here: they are the statements between an opening and a
closing form.
-/

namespace Pseudocode

/-- The types a variable can be declared with. -/
inductive ValueType where
  | entero
  | cadena
  | caracter
  | booleano
deriving DecidableEq, Repr

namespace ValueType

def word : ValueType → Text
  | .entero => "entero"
  | .cadena => "cadena"
  | .caracter => "caracter"
  | .booleano => "booleano"

/-- All types, in the order in which the grammar tries their words. -/
def all : List ValueType :=
  [.entero, .cadena, .caracter, .booleano]

end ValueType

/-- What a statement is, without its parts. -/
inductive Kind where
  | comment
  | program
  | function
  | malformedFunction
  | main
  | endScope
  | endWhile
  | endFor
  | endIf
  | whileLoop
  | forLoop
  | repeatLoop
  | untilTest
  | thenBranch
  | elseBranch
  | ifTest
  | declare
  | legacyArray
  | read
  | write
  | returnScope
  | call
  | unrecognized
deriving DecidableEq, Repr

def Kind.name : Kind → Text
  | .comment => "comment"
  | .program => "program"
  | .function => "function"
  | .malformedFunction => "malformed_function"
  | .main => "main"
  | .endScope => "end"
  | .endWhile => "end_while"
  | .endFor => "end_for"
  | .endIf => "end_if"
  | .whileLoop => "while"
  | .forLoop => "for"
  | .repeatLoop => "repeat"
  | .untilTest => "until"
  | .thenBranch => "then"
  | .elseBranch => "else"
  | .ifTest => "if"
  | .declare => "declare"
  | .legacyArray => "legacy_array"
  | .read => "read"
  | .write => "write"
  | .returnScope => "return"
  | .call => "call"
  | .unrecognized => "opaque"

inductive Form where
  | comment (text : Text)
  | program (name : Text)
  | function (name : Text) (params : List Text)
  /-- `funcion` followed by anything else. -/
  | malformedFunction (text : Text)
  /-- `inicio` -/
  | main
  /-- `fin` -/
  | endScope
  /-- `finmientras` -/
  | endWhile
  /-- `finpara` -/
  | endFor
  /-- `finsi` -/
  | endIf
  | whileLoop (condition : Text)
  /-- `para counter desde start hasta stop hacer` -/
  | forLoop (counter start stop : Text)
  /-- `repetir` -/
  | repeatLoop
  | untilTest (condition : Text)
  /-- `entonces` -/
  | thenBranch
  /-- `sino` -/
  | elseBranch
  | ifTest (condition : Text)
  | declare (type : ValueType) (name : Text) (size : Option Nat)
  /-- `arreglo …`, a syntax no longer accepted. -/
  | legacyArray (text : Text)
  | read (target name : Text) (index : Option Text)
  | write (arguments : Text)
  /-- `volver` -/
  | returnScope
  | call (callee : Text)
  /-- A line of no known form. -/
  | unrecognized (text : Text)
deriving DecidableEq, Repr

def Form.kind : Form → Kind
  | .comment _ => .comment
  | .program _ => .program
  | .function .. => .function
  | .malformedFunction _ => .malformedFunction
  | .main => .main
  | .endScope => .endScope
  | .endWhile => .endWhile
  | .endFor => .endFor
  | .endIf => .endIf
  | .whileLoop _ => .whileLoop
  | .forLoop .. => .forLoop
  | .repeatLoop => .repeatLoop
  | .untilTest _ => .untilTest
  | .thenBranch => .thenBranch
  | .elseBranch => .elseBranch
  | .ifTest _ => .ifTest
  | .declare .. => .declare
  | .legacyArray _ => .legacyArray
  | .read .. => .read
  | .write _ => .write
  | .returnScope => .returnScope
  | .call _ => .call
  | .unrecognized _ => .unrecognized

/-- One statement: the trimmed line, its number counted from one, and
its form. -/
structure Statement where
  text : Text
  line : Nat
  form : Form
deriving DecidableEq, Repr

def Statement.kind (s : Statement) : Kind :=
  s.form.kind

end Pseudocode
