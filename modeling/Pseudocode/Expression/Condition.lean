import Pseudocode.Expression.Subscript

/-!
# Conditions in the words of the script

Pseudocode writes the boolean operators `&&`, `||` and `!`; the traced
script writes `and`, `or` and `not`. Outside literals each operator is
replaced together with the blanks around it (for `!`, those after it);
`!=` is left alone. Subscripts are counted from zero first.
-/

namespace Pseudocode.Expression

open Text

/-- Replaces every doubled operator character `op op`, with the blanks
around it, by `word`. `held` are blanks seen since the last other
character; blanks are dropped while `skipping`. -/
def wordForPair (op : Char) (word : Text) (held : Text) (skipping : Bool) : Text → Text
  | [] => held
  | [c] => if isBlank c && skipping then held else held ++ [c]
  | c :: d :: u =>
    if isBlank c then
      if skipping then wordForPair op word held true (d :: u)
      else wordForPair op word (held ++ [c]) false (d :: u)
    else if c = op ∧ d = op then word ++ wordForPair op word [] true u
    else held ++ c :: wordForPair op word [] false (d :: u)

/-- Replaces every `!` that no `=` follows, with the blanks after it,
by `not `. -/
def wordForNot (skipping : Bool) : Text → Text
  | [] => []
  | c :: t =>
    if skipping && isBlank c then wordForNot true t
    else if c = '!' ∧ t.head? ≠ some '=' then "not " ++ wordForNot true t
    else c :: wordForNot false t

/-- A plain piece of a condition with its operators as words. -/
def operatorWords (t : Text) : Text :=
  wordForNot false (wordForPair '|' " or " [] false (wordForPair '&' " and " [] false t))

def condition (t : Text) : Except IndexFault Text := do
  let pieces := (segments (← shift t)).map fun s =>
    if s.isLiteral then s.text else operatorWords s.text
  return trim pieces.flatten

end Pseudocode.Expression
