import Pseudocode.Text.Basic

/-!
# Node labels in the text form of a chart

The text form delimits labels by quotes and brackets, so a label must
hold none of them: quotes, ampersands and angle brackets become
entities, square brackets and braces become parentheses.
-/

namespace Pseudocode.Flow

def safeChar (c : Char) : Text :=
  if c = '&' then "&amp;"
  else if c = '<' then "&lt;"
  else if c = '>' then "&gt;"
  else if c = '"' then "&quot;"
  else if c = '[' ∨ c = '\x7b' then "("
  else if c = ']' ∨ c = '\x7d' then ")"
  else [c]

def safeLabel (label : Text) : Text :=
  label.flatMap safeChar

end Pseudocode.Flow
