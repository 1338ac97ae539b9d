import Pseudocode.Text.Blank
import Pseudocode.Text.Identifier

/-!
# What can be set for an analysis

The settings fix the indentation that programs must have and the
appearance of the generated listings. Some choices are unusable;
`Settings.problems` names them.
-/

namespace Pseudocode

structure Settings where
  /-- Spaces per level of indentation in a program. -/
  indentWidth : Int := 2
  bufferSize : Int := 100
  cIndent : Text := "  "
  scriptIndent : Text := "    "
  /-- Name of the routine that the traced script defines. -/
  entryPoint : Text := "__programa__"
deriving DecidableEq, Repr

namespace Settings

inductive Problem where
  | indentWidth
  | bufferSize
  | scriptIndent
  | entryPoint
deriving DecidableEq, Repr

def Problem.message : Problem → Text
  | .indentWidth => "indent_width must be positive"
  | .bufferSize => "string_buffer_size must be at least 2"
  | .scriptIndent => "python_indent must contain only whitespace"
  | .entryPoint => "entry_point must be a valid Python identifier"

def problemIf (wrong : Bool) (p : Problem) : List Problem :=
  if wrong then [p] else []

/-- What is wrong with the settings, in the order of the fields. -/
def problems (s : Settings) : List Problem :=
  problemIf (s.indentWidth ≤ 0) .indentWidth ++
    problemIf (s.bufferSize < 2) .bufferSize ++
    problemIf (s.scriptIndent.isEmpty || !Text.isBlankText s.scriptIndent) .scriptIndent ++
    problemIf (!Text.isWideName s.entryPoint) .entryPoint

def problemText (ps : List Problem) : Text :=
  Text.join "; " (ps.map Problem.message)

end Settings

end Pseudocode
