import Pseudocode.Diagnostic

/-!
# The lines of a text

A text is cut at line feeds. A carriage return directly before a line
feed belongs to the line end, any other stays in its line. Each line
keeps the offset of its first character, so that diagnostics can point
into the text.
-/

namespace Pseudocode

structure SourceLine where
  /-- The line's number, counted from one. -/
  number : Nat
  /-- The offset of its first character. -/
  start : Nat
  text : Text
deriving DecidableEq, Repr

namespace SourceLine

def dropReturn (raw : Text) : Text :=
  if raw.getLast? = some '\r' then raw.dropLast else raw

def fromParts (number start : Nat) : List Text → List SourceLine
  | [] => []
  | [last] => [⟨number, start, last⟩]
  | raw :: next :: rest =>
    ⟨number, start, dropReturn raw⟩ ::
      fromParts (number + 1) (start + raw.length + 1) (next :: rest)

def ofText (t : Text) : List SourceLine :=
  fromParts 1 0 (Text.cutAt (· == '\n') t)

def span (l : SourceLine) : Span :=
  Span.of l.start (l.start + l.text.length) l.number

/-- The leading run of tabs and spaces. -/
def leading (l : SourceLine) : Text :=
  l.text.takeWhile fun c => c == '\t' || c == ' '

def leadingSpan (l : SourceLine) : Span :=
  Span.of l.start (l.start + l.leading.length) l.number

end SourceLine

end Pseudocode
