import Pseudocode.Text.Printable

/-!
# A text as a quoted literal

The quote is single unless the text has a single quote and no double
one. A backslash and the chosen quote are escaped by a backslash, line
feed, carriage return and tab have letters of their own, and a
character that is not printable is written by its code point in two,
four or eight hexadecimal digits.
-/

namespace Pseudocode.Text

/-- The last `width` hexadecimal digits of a number, in lower case. -/
def hex (width n : Nat) : Text :=
  padLeft '0' width (Nat.toDigits 16 n)

/-- The escape of a character that is not printable. -/
def hexEscape (c : Char) : Text :=
  let n := c.toNat
  if n < 0x100 then "\\x" ++ hex 2 n
  else if n < 0x10000 then "\\u" ++ hex 4 n
  else "\\U" ++ hex 8 n

/-- One character inside a literal that `quote` delimits. -/
def quoteChar (quote c : Char) : Text :=
  if c == quote || c == '\\' then ['\\', c]
  else if c == '\n' then "\\n"
  else if c == '\r' then "\\r"
  else if c == '\t' then "\\t"
  else if isPrintable c then [c]
  else hexEscape c

def quoteFor (t : Text) : Char :=
  if t.contains '\'' && !t.contains '"' then '"' else '\''

def quoted (t : Text) : Text :=
  let quote := quoteFor t
  quote :: t.flatMap (quoteChar quote) ++ [quote]

end Pseudocode.Text
