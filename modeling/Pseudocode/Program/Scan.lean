import Pseudocode.Program.Basic
import Pseudocode.Program.Lines
import Pseudocode.Settings
import Pseudocode.Statement.Classify

/-!
# From a text to a program

One pass over the lines keeps the blocks that are open, the level of
indentation, and where statements go: into the last function while it
is open, else into the main body while that is open, else nowhere. A
problem becomes a diagnostic and the pass goes on, so there is always a
program.

A line stands at the current level, except that `finsi` stands two
levels back (it closes the `si` and the branch) and `sino` and the other
closing lines stand one level back.
-/

namespace Pseudocode

open Text

structure Frame where
  block : Block
  line : SourceLine
deriving DecidableEq, Repr

/-- What the pass remarks on a line besides diagnostics. -/
inductive Remark where
  /-- A line of no known form. -/
  | unrecognized (text : Text)
  /-- A statement outside every scope. -/
  | dropped (line : Nat)
deriving DecidableEq, Repr

structure Scan where
  /-- The open blocks, innermost first. -/
  stack : List Frame := []
  level : Nat := 0
  inFunction : Bool := false
  /-- Statements outside functions go into the main body. -/
  inMain : Bool := false
  name : Option Text := none
  functions : List Function := []
  main : List Statement := []
  diagnostics : List Diagnostic := []
  remarks : List Remark := []
deriving DecidableEq, Repr

namespace Scan

def report (s : Scan) (code : DiagnosticCode) (span : Span) (message : Text) : Scan :=
  { s with diagnostics := s.diagnostics ++ [Diagnostic.of code span message] }

def remark (s : Scan) (r : Remark) : Scan :=
  { s with remarks := s.remarks ++ [r] }

def intoLast (stmt : Statement) : List Function → List Function
  | [] => []
  | [f] => [{ f with body := f.body ++ [stmt] }]
  | f :: g :: rest => f :: intoLast stmt (g :: rest)

/-- Puts a statement where statements go. -/
def append (s : Scan) (stmt : Statement) : Scan :=
  if s.inFunction then { s with functions := intoLast stmt s.functions }
  else if s.inMain then { s with main := s.main ++ [stmt] }
  else s.remark (.dropped stmt.line)

def expectedLevel (s : Scan) : Kind → Nat
  | .endIf => s.level - 2
  | .elseBranch | .endScope | .endWhile | .endFor | .untilTest => s.level - 1
  | _ => s.level

def checkTabs (s : Scan) (l : SourceLine) : Scan :=
  if l.leading.contains '\t' then
    s.report .tabIndent l.leadingSpan "La indentacion debe usar espacios, no tabulaciones."
  else s

/-- Reports a number of leading spaces that the level does not ask for. -/
def checkSpaces (s : Scan) (width : Int) (l : SourceLine) (kind : Kind) : Scan :=
  let expected := (s.expectedLevel kind : Int) * width
  if (l.leading.count ' ' : Int) = expected then s
  else s.report .badIndent l.leadingSpan ("Se esperaban " ++ ofInt expected ++ " espacios.")

/-- Opens a block. A function header starts a function, `inicio` opens
the main body, and any other opening statement is also a statement. -/
def openBlock (s : Scan) (block : Block) (l : SourceLine) (stmt : Statement) : Scan :=
  let s := { s with level := s.level + 1, stack := ⟨block, l⟩ :: s.stack }
  match stmt.form with
  | .malformedFunction _ =>
    { s.report .badFunctionHeader l.span
        "Encabezado de funcion invalido. Usa: funcion Nombre(param)" with inFunction := false }
  | .function name params =>
    { s with functions := s.functions ++ [⟨name, params, l.number, []⟩], inFunction := true }
  | .main => { s with inMain := true }
  | _ => s.append stmt

/-- Closes a block inside a scope. The innermost block is closed even
when it is another one, but then the statement is not kept. -/
def closeBlock (s : Scan) (wanted : Block) (l : SourceLine) (stmt : Statement) : Scan :=
  let top := s.stack.head?
  let s := { s with stack := s.stack.tail }
  if top.map Frame.block = some wanted then
    let back := if stmt.kind = .endIf then 2 else 1
    { s with level := s.level - back }.append stmt
  else
    s.report .unmatchedCloser l.span
      ("Hay un \"" ++ stmt.kind.closingWord ++ "\" sin \"" ++ wanted.word ++ "\".")

/-- Starts a branch of an open `si`, the innermost or an outer one. -/
def switchBranch (s : Scan) (l : SourceLine) (stmt : Statement) : Scan :=
  if s.stack.any fun f => f.block = .ifTest then
    let level := if stmt.kind = .thenBranch then s.level + 1 else s.level - 1 + 1
    { s with level := level }.append stmt
  else
    s.report .branchWithoutIf l.span ("\"" ++ lowerWord stmt.text ++ "\" sin un \"si\" abierto.")

def closeScope (s : Scan) (l : SourceLine) : Scan :=
  match s.stack with
  | [] => s.report .unmatchedCloser l.span "Hay un \"fin\" sin bloque abierto."
  | frame :: stack =>
    let s := { s with stack := stack }
    match frame.block with
    | .function => { s with level := s.level - 1, inFunction := false }
    | .main => { s with level := s.level - 1, inMain := false }
    | _ => s.report .mismatchedCloser l.span "Bloque abierto con un cierre incorrecto."

def reportForm (s : Scan) (l : SourceLine) : Form → Scan
  | .unrecognized _ =>
    s.report .unrecognizedStatement l.span "Linea no reconocida del pseudocodigo."
  | .legacyArray _ =>
    (s.report .unrecognizedStatement l.span "Linea no reconocida del pseudocodigo.").report
      .legacyArray l.span
      "Sintaxis invalida. Usa: tipo nombre[cantidad]. Ejemplo: entero numeros[5]"
  | _ => s

def place (s : Scan) (l : SourceLine) (stmt : Statement) : Scan :=
  match stmt.form with
  | .program name => if s.name.isNone then { s with name := some name } else s
  | .endScope => s.closeScope l
  | .thenBranch | .elseBranch => s.switchBranch l stmt
  | form =>
    match form.kind.opens?, form.kind.closes? with
    | some block, _ => s.openBlock block l stmt
    | none, some block => s.closeBlock block l stmt
    | none, none => s.append stmt

def statement (s : Scan) (width : Int) (l : SourceLine) (stmt : Statement) : Scan :=
  match stmt.form with
  | .comment _ => s.append stmt
  | form =>
    let s := match form with
      | .unrecognized text => s.remark (.unrecognized text)
      | _ => s
    (((s.checkTabs l).checkSpaces width l form.kind).reportForm l form).place l stmt

/-- One line; a blank one changes nothing. -/
def line (width : Int) (s : Scan) (l : SourceLine) : Except Statement.Fault Scan :=
  let t := trim l.text
  if t.isEmpty then .ok s
  else do
    let form ← Statement.classify t
    return s.statement width l ⟨t, l.number, form⟩

/-- Reports the blocks left open, outermost first. -/
def reportUnclosed (s : Scan) : Scan :=
  s.stack.reverse.foldl (fun s f =>
    s.report .unclosedBlock f.line.span
      ("Falta cerrar el bloque con \"" ++ f.block.closer ++ "\".")) s

def reportMissingMain (s : Scan) (t : Text) : Scan :=
  if (SourceLine.ofText t).any fun l => lowerWord (trim l.text) == ("inicio" : Text) then s
  else s.report .missingMain (Span.of 0 (min t.length 8) 1) "Falta la seccion \"inicio\"."

def program (s : Scan) : Program :=
  ⟨s.name, s.functions, s.main⟩

end Scan

structure Parsed where
  program : Program
  diagnostics : List Diagnostic
deriving DecidableEq, Repr

/-- Reads the program of a text. Of the settings only the indentation
width matters. -/
def Program.parse (settings : Settings) (t : Text) : Except Statement.Fault Parsed := do
  let s ← (SourceLine.ofText t).foldlM (Scan.line settings.indentWidth) {}
  let s := s.reportUnclosed.reportMissingMain t
  return ⟨s.program, s.diagnostics⟩

/-- What is remarked on the lines of a text, up to one without a
reading. -/
def Program.remarks (settings : Settings) (t : Text) : List Remark :=
  ((SourceLine.ofText t).foldl
    (fun (s, stopped) l =>
      if stopped then (s, true)
      else match Scan.line settings.indentWidth s l with
        | .ok s => (s, false)
        | .error _ => (s, true))
    (({} : Scan), false)).1.remarks

end Pseudocode
