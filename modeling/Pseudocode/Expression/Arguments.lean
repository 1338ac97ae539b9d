import Pseudocode.Text.Blank

/-!
# The arguments of an output statement

The arguments are separated by commas outside double-quoted text. A
backslash keeps the next character as it is, in a literal and outside
one, so an escaped quote opens and closes nothing. Arguments are trimmed
and empty ones are left out.
-/

namespace Pseudocode.Expression

open Text

/-- An argument as it enters the list: trimmed, and left out if empty. -/
def argument (collected : Text) : List Text :=
  let arg := trim collected
  if arg.isEmpty then [] else [arg]

/-- The arguments of a text, for a position inside or outside a literal
after the characters `collected` of the current argument. -/
def argumentsFrom (inLiteral : Bool) (collected : Text) : Text → List Text
  | [] => argument collected
  | ['\\'] => argument (collected ++ ['\\'])
  | '\\' :: c :: t => argumentsFrom inLiteral (collected ++ ['\\', c]) t
  | c :: t =>
    if c = '"' then argumentsFrom (!inLiteral) (collected ++ [c]) t
    else if c = ',' ∧ !inLiteral then argument collected ++ argumentsFrom false [] t
    else argumentsFrom inLiteral (collected ++ [c]) t

def arguments (t : Text) : List Text :=
  argumentsFrom false [] t

end Pseudocode.Expression
