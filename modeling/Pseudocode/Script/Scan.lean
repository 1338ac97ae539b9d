import Pseudocode.Script.Literal
import Pseudocode.Text.Lines
import Pseudocode.Text.Normal
import Pseudocode.Text.Printable

/-!
# Cutting a script into tokens

A script is cut into tokens from its start, whatever the tokens then
mean. A line that holds more than blanks and a comment begins a
statement, unless a bracket is open or the line before ends with a
backslash; its indentation is compared with those of the blocks around
it. A tab goes to the next multiple of eight columns, and the comparison
must come out the same if a tab is one column.

Cutting ends at the end of the script or at the first place where it
cannot go on. The ways in which it ends there differ in which line is
reported, see `ScanEnd`.
-/

namespace Pseudocode.Script

open Text

/-- How cutting a script into tokens ends. -/
inductive ScanEnd where
  /-- At the end of the script, on a line. -/
  | complete (line : Nat)
  /-- At something that is no token, on a line. It is reported before any
  other fault of the script. -/
  | invalid (line : Nat)
  | unclosed (opened : Nat)
  /-- At a line that cannot be placed; a bracket may be open. It is only
  reported when everything before it is in order. -/
  | broken (line : Nat) (opened : Option Nat)
deriving DecidableEq, Repr

/-- Where the reading of a script is. -/
structure Cursor where
  line : Nat := 1
  /-- For every open bracket, innermost first, what closes it and the
  line it is on. -/
  opened : List (Char × Nat) := []
  /-- The columns of the open blocks, innermost first, with wide and with
  narrow tabs. -/
  margins : List (Nat × Nat) := [(0, 0)]
deriving DecidableEq, Repr

namespace Cursor

def place (c : Cursor) (token : Token) : Placed :=
  ⟨token, c.line, c.opened.length⟩

def openedAt (c : Cursor) : Option Nat :=
  c.opened.head?.map Prod.snd

def broken (c : Cursor) : ScanEnd :=
  .broken c.line c.openedAt

def finish (c : Cursor) : ScanEnd :=
  match c.openedAt with
  | some line => .unclosed line
  | none => .complete c.line

end Cursor

def bracketLimit : Nat := 200

def marginLimit : Nat := 100

def tabWidth : Nat := 8

/-- The indentation of a line, as far as it is known. -/
structure Margin where
  wide : Nat := 0
  narrow : Nat := 0
  /-- The column of the first backslash that continues the line. -/
  continued : Nat := 0
  /-- The number of lines that ended. -/
  lines : Nat := 0
deriving DecidableEq, Repr

/-- The columns of an indentation: those of the first continued line, if
there is one. -/
def Margin.columns (m : Margin) : Nat × Nat :=
  if m.continued = 0 then (m.wide, m.narrow) else (m.continued, m.continued)

/-- Takes the indentation at the front of a text. A form feed starts it
again. -/
def Margin.take (m : Margin) : Text → Margin × Text
  | ' ' :: t => take { m with wide := m.wide + 1, narrow := m.narrow + 1 } t
  | '\t' :: t =>
    take { m with wide := (m.wide / tabWidth + 1) * tabWidth, narrow := m.narrow + 1 } t
  | '\x0c' :: t => take { m with wide := 0, narrow := 0 } t
  | '\\' :: '\n' :: c :: t =>
    let continued := if m.continued = 0 then m.wide else m.continued
    take { m with continued, lines := m.lines + 1 } (c :: t)
  | t => (m, t)

/-- The tokens for a line at columns, and the open blocks then; `none` if
the line fits none of them. -/
def placeLine? (margins : List (Nat × Nat)) (columns : Nat × Nat) :
    Option (List Token × List (Nat × Nat)) :=
  match margins with
  | [] => none
  | (wide, narrow) :: _ =>
    if columns.1 = wide then if columns.2 = narrow then some ([], margins) else none
    else if wide < columns.1 then
      if margins.length < marginLimit && narrow < columns.2 then
        some ([.indent], columns :: margins)
      else none
    else
      let outer := margins.dropWhile fun m => columns.1 < m.1
      if outer.head? = some columns then
        some (List.replicate (margins.length - outer.length) .dedent, outer)
      else none

def closing? : Char → Option Char
  | '(' => some ')'
  | '[' => some ']'
  | '\x7b' => some '\x7d'
  | _ => none

def isClosing (c : Char) : Bool :=
  c == ')' || c == ']' || c == '\x7d'

/-- The cursor after an operator; `none` if a bracket closes none or
another one, or if too many are open. -/
def Cursor.bracket? (c : Cursor) : Text → Option Cursor
  | [char] =>
    match closing? char with
    | some close =>
      if c.opened.length < bracketLimit then
        some { c with opened := (close, c.line) :: c.opened }
      else none
    | none =>
      if isClosing char then
        match c.opened with
        | (close, _) :: outer => if close = char then some { c with opened := outer } else none
        | [] => none
      else some c
  | _ => some c

def operator? (t : Text) : Option (Text × Text) :=
  match longOperators.find? fun op => (after? op t).isSome with
  | some op => some (op, t.drop op.length)
  | none =>
    match t with
    | c :: rest => if isPrintable c && c.toNat < 128 then some ([c], rest) else none
    | [] => none

def wordToken? (t : Text) : Option Token :=
  if keywords.contains t then some (.keyword t)
  else if isWideName t then some (.name (normalName t))
  else none

/-- The token at the front of a text that starts with one, the number of
lines that end in it, and the rest. -/
def takeToken? (t : Text) : Option (Token × Nat × Text) := do
  if startsNumber t then
    let (token, rest) ← number? t
    return (token, 0, rest)
  else
    let word := t.takeWhile isWordChar
    let rest := t.dropWhile isWordChar
    if rest.head?.any isQuote then
      if let some marks := Marks.ofWord? word then
        let (body, rest) ← takeString? rest
        return (stringToken marks body, body.count '\n', rest)
    if word.isEmpty then
      let (op, rest) ← operator? t
      return (.op op, 0, rest)
    return (← wordToken? word, 0, rest)

def isSpace (c : Char) : Bool :=
  c == ' ' || c == '\t' || c == '\x0c'

mutual

/-- The tokens of a text from the start of a line on. The first argument
bounds the number of steps; each uses a character or follows one that
does. -/
def scanLine : Nat → Cursor → Text → List Placed × ScanEnd
  | 0, c, _ => ([], c.broken)
  | fuel + 1, c, t =>
    let (margin, rest) := Margin.take {} t
    let c := { c with line := c.line + margin.lines }
    match rest with
    | '\\' :: _ => ([], c.broken)
    | '\n' :: rest => scanLine fuel { c with line := c.line + 1 } rest
    | '#' :: _ =>
      match rest.dropWhile (· != '\n') with
      | '\n' :: rest => scanLine fuel { c with line := c.line + 1 } rest
      | rest => scanTokens fuel c rest
    | rest =>
      if !c.opened.isEmpty then scanTokens fuel c rest
      else match placeLine? c.margins margin.columns with
        | none => ([], c.broken)
        | some (tokens, margins) =>
          let c := { c with margins }
          let (more, ending) := scanTokens fuel c rest
          (tokens.map c.place ++ more, ending)

def scanTokens : Nat → Cursor → Text → List Placed × ScanEnd
  | 0, c, _ => ([], c.broken)
  | fuel + 1, c, t =>
    match t.dropWhile isSpace with
    | [] => ([], c.finish)
    | '#' :: rest => scanTokens fuel c (rest.dropWhile (· != '\n'))
    | '\n' :: rest =>
      let next := { c with line := c.line + 1 }
      if c.opened.isEmpty then
        let (more, ending) := scanLine fuel next rest
        (c.place .newline :: more, ending)
      else scanLine fuel next rest
    | '\\' :: '\n' :: char :: rest => scanTokens fuel { c with line := c.line + 1 } (char :: rest)
    | '\\' :: _ => ([], c.broken)
    | t =>
      match takeToken? t with
      | none => ([], .invalid c.line)
      | some (token, lines, rest) =>
        let after : Option Cursor := match token with
          | .op op => c.bracket? op
          | _ => some { c with line := c.line + lines }
        match after with
        | none => ([], .invalid c.line)
        | some next =>
          let (more, ending) := scanTokens fuel next rest
          (⟨token, c.line, next.opened.length⟩ :: more, ending)

end

/-- The tokens of a script, and how cutting it ends. -/
def scan (t : Text) : List Placed × ScanEnd :=
  scanLine (2 * t.length + 2) {} t

end Pseudocode.Script
