import Pseudocode.Text.Quoted

/-!
# What the analysis of a program reports

A problem in a program is a value: a stable code, a message for the
user, the range of text it concerns and a severity. The order of a list
of diagnostics is the order in which they were found.
-/

namespace Pseudocode

inductive Severity where
  | warning
  | error
deriving DecidableEq, Repr

def Severity.name : Severity → Text
  | .warning => "warning"
  | .error => "error"

/-- Which part of the analysis found a diagnostic: the shape of one
line, or the nesting across lines. -/
inductive Phase where
  | layout
  | nesting
deriving DecidableEq, Repr

def Phase.name : Phase → Text
  | .layout => "layout"
  | .nesting => "structure"

/-- The name of a phase in the description of a code. -/
def Phase.label : Phase → Text
  | .layout => "LAYOUT"
  | .nesting => "STRUCTURE"

/-- A diagnostic code: a series, a number in it, and the phase and
severity that go with it. -/
structure DiagnosticCode where
  number : Int
  phase : Phase
  severity : Severity := .error
  series : Text := "PSC"
deriving DecidableEq, Repr

namespace DiagnosticCode

/-- A number in at least `width` characters, zeros after the sign. -/
def padded (width : Nat) : Int → Text
  | .ofNat n => Text.padLeft '0' width (Text.ofNat n)
  | .negSucc n => '-' :: Text.padLeft '0' (width - 1) (Text.ofNat (n + 1))

/-- The code as it is printed: the series and four digits. -/
def text (c : DiagnosticCode) : Text :=
  c.series ++ "-" ++ padded 4 c.number

def describe (c : DiagnosticCode) : Text :=
  "DiagnosticCode(" ++ Text.quoted c.text ++ ", " ++ c.phase.label ++ ")"

def same (c d : DiagnosticCode) : Bool :=
  c.series == d.series && c.number == d.number

/-- The number of codes of a list that differ from all codes before
them. -/
def countDistinct (codes : List DiagnosticCode) : Nat :=
  (codes.foldl (fun seen c => if seen.any (same c) then seen else c :: seen) []).length

def tabIndent : DiagnosticCode := { number := 1001, phase := .layout }

/-- An indentation of the wrong width. -/
def badIndent : DiagnosticCode := { number := 1002, phase := .layout }

def unrecognizedStatement : DiagnosticCode :=
  { number := 1003, phase := .layout, severity := .warning }

def legacyArray : DiagnosticCode := { number := 1004, phase := .layout }

def badFunctionHeader : DiagnosticCode := { number := 1005, phase := .layout }

/-- A closing statement with no block open. -/
def unmatchedCloser : DiagnosticCode := { number := 2001, phase := .nesting }

/-- A closing statement of another block than the innermost one. -/
def mismatchedCloser : DiagnosticCode := { number := 2002, phase := .nesting }

/-- A branch outside a `si`. -/
def branchWithoutIf : DiagnosticCode := { number := 2003, phase := .nesting }

/-- A block that is open at the end. -/
def unclosedBlock : DiagnosticCode := { number := 2004, phase := .nesting }

def missingMain : DiagnosticCode := { number := 2005, phase := .nesting }

end DiagnosticCode

/-- A half-open range of characters of the analysed text, with the line
it starts on. -/
structure Span where
  start : Int
  stop : Int
  line : Int
  start_le_stop : start ≤ stop
deriving DecidableEq, Repr

namespace Span

/-- The range from `start` to `stop`, empty if `stop` comes first. -/
def of (start stop line : Int) : Span :=
  ⟨start, max start stop, line, Int.le_max_left ..⟩

def length (s : Span) : Int :=
  s.stop - s.start

/-- The range as it is printed: its line, or its offset when it has no
line. -/
def text (s : Span) : Text :=
  if s.line > 0 then Text.ofInt s.line else "@" ++ Text.ofInt s.start

end Span

structure Diagnostic where
  code : DiagnosticCode
  message : Text
  span : Span
  severity : Severity
deriving DecidableEq, Repr

namespace Diagnostic

def of (code : DiagnosticCode) (span : Span) (message : Text) : Diagnostic :=
  ⟨code, message, span, code.severity⟩

def isError (d : Diagnostic) : Bool :=
  d.severity == .error

/-- One line for a compiler's output:
`file:line: severity: message [code]`. -/
def render (file : Text) (d : Diagnostic) : Text :=
  file ++ ":" ++ d.span.text ++ ": " ++ d.severity.name ++ ": " ++ d.message ++
    " [" ++ d.code.text ++ "]"

def anyError (ds : List Diagnostic) : Bool :=
  ds.any isError

def errorCount (ds : List Diagnostic) : Nat :=
  ds.countP isError

def warningCount (ds : List Diagnostic) : Nat :=
  ds.countP fun d => !d.isError

end Diagnostic

end Pseudocode
