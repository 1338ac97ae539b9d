import Pseudocode.Text.Basic

/-!
# The lines of a text

The line ends of a text that is read from outside all become one, which
stands after every line.
-/

namespace Pseudocode.Text

def unifyLineEnds : Text → Text
  | '\r' :: '\n' :: t => '\n' :: unifyLineEnds t
  | '\r' :: t => '\n' :: unifyLineEnds t
  | c :: t => c :: unifyLineEnds t
  | [] => []

def linesOf (t : Text) : List Text :=
  let lines := cutAt (· == '\n') t
  if lines.getLast? = some [] then lines.dropLast else lines

def endLine (t : Text) : Text :=
  if t.getLast? = some '\n' then t else t ++ ['\n']

end Pseudocode.Text
