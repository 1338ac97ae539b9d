import Pseudocode.Text.Basic

/-!
# The tokens of a script

A script is read as the sequence of its tokens. Where a statement ends
and how far a line is indented are tokens too. Every token keeps the
line it starts on, counted from one, and the number of brackets that are
open after it.
-/

namespace Pseudocode.Script

inductive Token where
  | name (t : Text)
  | keyword (t : Text)
  | int (n : Nat)
  | float (x : Float)
  | str (t : Text)
  /-- A row of bytes, given as the characters of their codes. -/
  | bytes (t : Text)
  | imaginary (x : Float)
  /-- A text with expressions in braces, as it is written between its
  quotes; in a raw one backslashes are characters like others. -/
  | template (isRaw : Bool) (t : Text)
  | op (t : Text)
  | newline
  | indent
  /-- A line with which the innermost indentation ends. -/
  | dedent
  /-- A literal that denotes nothing. -/
  | unusable
deriving BEq, Repr

structure Placed where
  token : Token
  line : Nat
  /-- The number of brackets that are open after it. -/
  depth : Nat
deriving BEq, Repr

def keywords : List Text := List.map String.toList [
  "False", "None", "True", "and", "as", "assert", "async", "await", "break", "class", "continue",
  "def", "del", "elif", "else", "except", "finally", "for", "from", "global", "if", "import", "in",
  "is", "lambda", "nonlocal", "not", "or", "pass", "raise", "return", "try", "while", "with",
  "yield"]

/-- The operators of more than one character, longest first. -/
def longOperators : List Text := List.map String.toList [
  "**=", "//=", ">>=", "<<=", "...", "==", "!=", "<>", "<=", ">=", "<<", ">>", "**", "//", "+=",
  "-=", "*=", "/=", "%=", "&=", "|=", "^=", "@=", "->", ":="]

def Token.isOp (t : Text) : Token → Bool
  | .op u => t == u
  | _ => false

def Token.isKeyword (t : Text) : Token → Bool
  | .keyword u => t == u
  | _ => false

end Pseudocode.Script
