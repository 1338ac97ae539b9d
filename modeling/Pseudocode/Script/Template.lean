import Pseudocode.Script.Literal
import Pseudocode.Script.Syntax

/-!
# Texts with expressions in braces

A template is text with holes. A hole is an expression in braces, which
may be followed by `=`, to show the expression itself as well, by a
conversion after `!`, and by a format after `:`, which may have holes of
its own. Doubled braces stand for braces.
-/

namespace Pseudocode.Script

inductive TemplatePart where
  | text (t : Text)
  /-- An expression, what is written before its value, how the value is
  turned into text, and the parts of its format. -/
  | hole (source spelled : Text) (conversion : Conversion) (format : List TemplatePart)
deriving Repr

/-- The text before the first brace, doubled braces being text, and the
rest. -/
def takeTemplateText : Text → Text × Text
  | [] => ([], [])
  | '\x7b' :: '\x7b' :: t =>
    let (text, rest) := takeTemplateText t
    ('\x7b' :: text, rest)
  | '\x7d' :: '\x7d' :: t =>
    let (text, rest) := takeTemplateText t
    ('\x7d' :: text, rest)
  | c :: t =>
    if c == '\x7b' || c == '\x7d' then ([], c :: t)
    else
      let (text, rest) := takeTemplateText t
      (c :: text, rest)

/-- The text of a format before the first brace, and the rest. -/
def takeFormatText : Text → Text × Text
  | [] => ([], [])
  | c :: t =>
    if c == '\x7b' || c == '\x7d' then ([], c :: t)
    else
      let (text, rest) := takeFormatText t
      (c :: text, rest)

/-- The expression at the front of a hole, and the rest. It ends outside
brackets and quotes before `!`, `:`, `=` or a closing brace, but for
comparisons; it has no backslash and no comment. -/
def takeSource? (quote : Option Char) (depth : Nat) : Text → Option (Text × Text)
  | [] => none
  | c :: t =>
    let take (quote : Option Char) (depth : Nat) :=
      (takeSource? quote depth t).map fun p => (c :: p.1, p.2)
    if c == '\\' then none
    else match quote with
      | some q => take (if c == q then none else some q) depth
      | none =>
        if isQuote c then take (some c) depth
        else if c == '#' then none
        else if c == '(' || c == '[' || c == '\x7b' then take none (depth + 1)
        else if depth > 0 then
          if c == ')' || c == ']' || c == '\x7d' then take none (depth - 1) else take none depth
        else if c == '!' || c == '=' || c == '<' || c == '>' then
          match t with
          | '=' :: rest => (takeSource? none depth rest).map fun p => (c :: '=' :: p.1, p.2)
          | _ => if c == '!' || c == '=' then some ([], c :: t) else take none depth
        else if c == ':' || c == '\x7d' then some ([], c :: t)
        else if c == ')' || c == ']' then none
        else take none depth

def Conversion.ofChar? : Char → Option Conversion
  | 's' => some .text
  | 'r' => some .shown
  | 'a' => some .ascii
  | _ => none

/-- The conversion at the front of the end of a hole, and the rest. -/
def takeConversion? : Text → Option (Conversion × Text)
  | '!' :: c :: t => (Conversion.ofChar? c).map fun conversion => (conversion, t)
  | '!' :: [] => none
  | t => some (.plain, t)

/-- A character that may stand around `=` in a hole. -/
def isHoleBlank (c : Char) : Bool :=
  c == ' ' || c == '\t' || c == '\n' || c == '\x0c' || c == '\x0b'

/-- The `=` at the front of the end of a hole with the blanks after it,
and the rest. -/
def takeEquals : Text → Text × Text
  | '=' :: t => ('=' :: t.takeWhile isHoleBlank, t.dropWhile isHoleBlank)
  | t => ([], t)

def templateText? (isRaw : Bool) (t : Text) : Option Text :=
  if isRaw then some t else unescape? false 0 t

/-- The parts of a template or, inside a hole, of a format, which ends
before a closing brace; and the rest. The first argument bounds the
number of parts. -/
def TemplatePart.read? (isRaw : Bool) : Nat → Bool → Text → Option (List TemplatePart × Text)
  | 0, _, _ => none
  | fuel + 1, inFormat, t => do
    let (written, rest) := if inFormat then takeFormatText t else takeTemplateText t
    let literal ← templateText? isRaw written
    let own := if literal.isEmpty then [] else [TemplatePart.text literal]
    match rest with
    | [] => some (own, [])
    | '\x7b' :: inside =>
      let (source, rest) ← takeSource? none 0 inside
      if source.all isHoleBlank then none
      let (equals, rest) := takeEquals rest
      let spelled := if equals.isEmpty then [] else source ++ equals
      let (conversion, rest) ← takeConversion? rest
      let (format, rest) ← match rest with
        | ':' :: rest => read? isRaw fuel true rest
        | rest => some ([], rest)
      let conversion := if !equals.isEmpty && conversion == .plain && format.isEmpty then
        Conversion.shown else conversion
      match rest with
      | '\x7d' :: rest =>
        let (more, rest) ← read? isRaw fuel inFormat rest
        return (own ++ TemplatePart.hole source spelled conversion format :: more, rest)
      | _ => none
    | rest => if inFormat then some (own, rest) else none

/-- The parts of a whole template; `none` if it is malformed. -/
def TemplatePart.readAll? (isRaw : Bool) (t : Text) : Option (List TemplatePart) := do
  let (parts, rest) ← TemplatePart.read? isRaw (2 * t.length + 2) false t
  if rest.isEmpty then some parts else none

end Pseudocode.Script
