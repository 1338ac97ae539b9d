import Pseudocode.Text.Basic

/-!
# Double-quoted literals in a text

An expression is kept as text and never parsed into a tree; the only
structure that a change to it has to respect is the double-quoted literal.
A literal runs from its quote to the next quote that no backslash
escapes, or to the end of the text when there is none. `Mode.next` is
that rule for one character; the functions here and in the sibling
modules all step through it.
-/

namespace Pseudocode.Expression

/-- Where a position stands: outside every literal, inside one, or
inside one directly after a backslash. -/
inductive Mode where
  | plain
  | quoted
  | escaped
deriving DecidableEq, Repr

/-- The position after one more character. -/
def Mode.next : Mode → Char → Mode
  | .plain, c => if c = '"' then .quoted else .plain
  | .quoted, c => if c = '"' then .plain else if c = '\\' then .escaped else .quoted
  | .escaped, _ => .quoted

/-- The end of a literal, its closing quote included, and what follows,
for a position inside the literal. -/
def splitLiteral : Mode → Text → Text × Text
  | .plain, t => ([], t)
  | _, [] => ([], [])
  | mode, c :: t =>
    let (inside, rest) := splitLiteral (mode.next c) t
    (c :: inside, rest)

structure Segment where
  /-- The piece is a literal, with its quotes. -/
  isLiteral : Bool
  text : Text
deriving DecidableEq, Repr

def plainSegment (collected : Text) : List Segment :=
  if collected.isEmpty then [] else [⟨false, collected⟩]

/-- The segments of a text, for a position in the given mode after the
characters `collected` of the current segment. -/
def segmentsFrom (mode : Mode) (collected : Text) : Text → List Segment
  | [] => if mode = .plain then plainSegment collected else [⟨true, collected⟩]
  | c :: t =>
    match mode, mode.next c with
    | .plain, .quoted => plainSegment collected ++ segmentsFrom .quoted [c] t
    | .quoted, .plain => ⟨true, collected ++ [c]⟩ :: segmentsFrom .plain [] t
    | _, next => segmentsFrom next (collected ++ [c]) t

/-- A text cut into literals and the non-empty plain pieces between
them, in order. -/
def segments (t : Text) : List Segment :=
  segmentsFrom .plain [] t

/-- A text that starts and ends with a double quote. -/
def isLiteralText (t : Text) : Bool :=
  t.length ≥ 2 && t.head? == some '"' && t.getLast? == some '"'

theorem length_splitLiteral_snd (mode : Mode) (t : Text) :
    (splitLiteral mode t).2.length ≤ t.length := by
  induction t generalizing mode with
  | nil => cases mode <;> simp [splitLiteral]
  | cons c t ih =>
    cases mode with
    | plain => simp [splitLiteral]
    | quoted => simpa [splitLiteral] using Nat.le_succ_of_le (ih _)
    | escaped => simpa [splitLiteral] using Nat.le_succ_of_le (ih _)

end Pseudocode.Expression
