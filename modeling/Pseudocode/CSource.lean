import Pseudocode.Expression.Arguments
import Pseudocode.Expression.Subscript
import Pseudocode.Listing
import Pseudocode.Program.Basic
import Pseudocode.Settings

/-!
# A program in C

The listing has a prototype and a definition for every function, and
`main`. Text values are `char` buffers of a fixed size; a read target
that is never declared is such a buffer, declared at the top of its
scope. `scanf` and `printf` convert by the type known for a name.
Counted loops only count upwards.
-/

namespace Pseudocode.CSource

open Text Expression

/-- The types of values in C. -/
inductive CType where
  | int
  | char
  /-- A buffer of characters. -/
  | text
deriving DecidableEq, Repr

def CType.of : ValueType → CType
  | .entero => .int
  | .booleano => .int
  | .caracter => .char
  | .cadena => .text

/-- What is known about the names of one scope. -/
structure Names where
  /-- The type of each name; an earlier entry wins. -/
  types : List (Text × CType) := []
  arrays : List Text := []
  /-- The parameters and declared names. -/
  declared : List Text := []
  /-- The read targets that are never declared, in order. -/
  buffers : List Text := []
deriving DecidableEq, Repr

namespace Names

def typeOf? (n : Names) (name : Text) : Option CType :=
  n.types.lookup name

/-- What a declaration or a counted loop tells about its name. -/
def declareName (n : Names) (s : Statement) : Names :=
  match s.form with
  | .declare type name size =>
    { n with
      types := (name, CType.of type) :: n.types
      arrays := if size.isSome then name :: n.arrays else n.arrays
      declared := name :: n.declared }
  | .forLoop counter _ _ =>
    if (n.typeOf? counter).isSome then n else { n with types := (counter, .int) :: n.types }
  | _ => n

/-- A read into a name that is never declared makes it a buffer. -/
def bufferName (n : Names) (s : Statement) : Names :=
  match s.form with
  | .read _ name none =>
    if n.declared.contains name || n.buffers.contains name then n
    else { n with types := (name, .text) :: n.types, buffers := n.buffers ++ [name] }
  | _ => n

/-- What is known about the names of a scope: all its declarations count
before any of its reads. -/
def ofBody (params : List Text) (body : List Statement) : Names :=
  let n : Names := { types := params.map (·, .text), declared := params }
  body.foldl bufferName (body.foldl declareName n)

def cellName? (t : Text) : Option Text := do
  let (name, rest) ← takeName? t
  match rest.dropWhile isBlank with
  | '[' :: inside =>
    if inside.length ≥ 2 && inside.getLast? == some ']' then some name else none
  | _ => none

/-- A numeral, with a minus sign or without. -/
def isInteger : Text → Bool
  | '-' :: t => isNumeral t
  | t => isNumeral t

/-- Two numerals with a point between them, with a minus sign or
without. -/
def isDecimal (t : Text) : Bool :=
  let t := match t with
    | '-' :: t => t
    | t => t
  match t.dropWhile isDigit with
  | '.' :: fraction => isNumeral (t.takeWhile isDigit) && isNumeral fraction
  | _ => false

/-- The type of a name, of a cell of a named array or of a numeral, if
it is known. A whole array has no type. -/
def valueType? (n : Names) (expr : Text) : Option CType :=
  let t := trim expr
  if isName t then if n.arrays.contains t then none else n.typeOf? t
  else match cellName? t with
    | some name => n.typeOf? name
    | none => if isInteger t then some .int else none

end Names

/-- The buffers' size and the names of the scope being written. -/
structure Context where
  bufferSize : Int
  names : Names
  inMain : Bool
deriving DecidableEq, Repr

/-- The conversion of `printf` for an argument that is no literal. -/
def conversion (n : Names) (arg : Text) : Text :=
  match n.valueType? arg with
  | some .int => "%d"
  | some .char => "%c"
  | _ => if Names.isDecimal arg then "%g" else "%s"

/-- The piece of the format for one argument: a literal's inside with
percent signs doubled, or a conversion. -/
def formatPiece (n : Names) (arg : Text) : Text :=
  if isLiteralText arg then
    (arg.drop 1).dropLast.flatMap fun c => if c = '%' then "%%" else [c]
  else conversion n arg

/-- The call of `printf` for the arguments of an output statement. -/
def printf (n : Names) (args : List Text) : Except IndexFault Text := do
  let values ← (args.filter (!isLiteralText ·)).mapM shift
  return "printf(\"" ++ args.flatMap (formatPiece n) ++ "\\n\"" ++
    values.flatMap (fun v => (", " : Text) ++ v) ++ ");"

def scanf (ctx : Context) (name : Text) (index : Option Text) : Except IndexFault Text := do
  let target ← match index with
    | some index => shiftCell name index
    | none => pure name
  return match (ctx.names.typeOf? name).getD .text with
    | .int => "scanf(\"%d\", &" ++ target ++ ");"
    | .char => "scanf(\" %c\", &" ++ target ++ ");"
    | .text => "scanf(\"%" ++ ofInt (ctx.bufferSize - 1) ++ "s\", " ++ target ++ ");"

def declaration (bufferSize : Int) (type : ValueType) (name : Text) (size : Option Nat) : Text :=
  let extent : Text := match size with
    | some size => "[" ++ ofNat size ++ "]"
    | none => []
  match CType.of type with
  | .int => "int " ++ name ++ extent ++ ";"
  | .char => "char " ++ name ++ extent ++ ";"
  | .text => "char " ++ name ++ extent ++ "[" ++ ofInt bufferSize ++ "];"

/-- The header of a counted loop; a counter without a declaration is
declared there. -/
def forHeader (n : Names) (counter start stop : Text) : Text :=
  let init := if n.declared.contains counter then counter else "int " ++ counter
  "for (" ++ init ++ " = " ++ start ++ "; " ++ counter ++ " <= " ++ stop ++ "; " ++ counter ++
    " += 1) \x7b"

/-- One statement; the level never goes below `floor`. -/
def statement (ctx : Context) (floor : Int) (l : Listing Text Nat) (s : Statement) :
    Except IndexFault (Listing Text Nat) := do
  let l := l.setOrigin (some s.line)
  match s.form with
  | .comment _ => return l.emitAll (CommentStyle.slashStar.comments (commentBody s.text))
  | .declare type name size => return l.emit (declaration ctx.bufferSize type name size)
  | .read _ name index => return l.emit (← scanf ctx name index)
  | .whileLoop condition => return (l.emit ("while (" ++ (← shift condition) ++ ") \x7b")).indent
  | .forLoop counter start stop =>
    return (l.emit (forHeader ctx.names counter (← shift start) (← shift stop))).indent
  | .repeatLoop => return (l.emit "do \x7b").indent
  | .untilTest condition =>
    return (l.dedent floor).emit ("\x7d while (!(" ++ (← shift condition) ++ "));")
  | .ifTest condition => return (l.emit ("if (" ++ (← shift condition) ++ ") \x7b")).indent
  | .elseBranch => return ((l.dedent floor).emit "\x7d else \x7b").indent
  | .endWhile | .endFor | .endIf => return (l.dedent floor).emit "\x7d"
  | .thenBranch => return l
  | .write args => return l.emit (← printf ctx.names (arguments args))
  | .returnScope => return l.emit (if ctx.inMain then "return 0;" else "return;")
  | .call _ =>
    let call ← shift s.text
    return l.emit (if call.getLast? = some ';' then call else call ++ ";")
  | _ => return l.emitAll (CommentStyle.slashStar.comments s.text)

/-- The buffers and statements of a scope. -/
def body (settings : Settings) (inMain : Bool) (params : List Text) (body : List Statement)
    (l : Listing Text Nat) : Except IndexFault (Listing Text Nat) :=
  let names := Names.ofBody params body
  let ctx : Context := ⟨settings.bufferSize, names, inMain⟩
  let l := l.emitAll (names.buffers.map fun name =>
    "char " ++ name ++ "[" ++ ofInt settings.bufferSize ++ "];")
  body.foldlM (statement ctx l.level) l

def signature (f : Function) : Text :=
  let params : Text := if f.params.isEmpty then "void"
    else join ", " (f.params.map fun p => "const char* " ++ p)
  "void " ++ f.name ++ "(" ++ params ++ ")"

def prototypes (fs : List Function) (l : Listing Text Nat) : Listing Text Nat :=
  if fs.isEmpty then l else (l.emitAll (fs.map fun f => signature f ++ ";")).blank

def definition (settings : Settings) (l : Listing Text Nat) (f : Function) :
    Except IndexFault (Listing Text Nat) := do
  let l := ((l.setOrigin (some f.headerLine)).emit (signature f ++ " \x7b")).indent
  let l ← body settings false f.params f.body l
  return ((l.dedent.setOrigin none).emit "\x7d").blank

def ofProgram (settings : Settings) (p : Program) : Except IndexFault (Listing Text Nat) := do
  let l := (({} : Listing Text Nat).emit "#include <stdio.h>").blank
  let l ← p.functions.foldlM (definition settings) (prototypes p.functions l)
  let l ← body settings true [] p.main (l.emit "int main(void) \x7b").indent
  return ((l.setOrigin none).emit "return 0;").dedent.emit "\x7d"

end Pseudocode.CSource
