import Pseudocode.Text.Basic

/-!
# JSON values and their text

Reports that other programs read are JSON. The text is plain ASCII: any
other character is escaped by its UTF-16 units. There are two layouts,
one line or one value to a line with an indentation of two spaces.
-/

namespace Pseudocode.Report

open Text

/-- A JSON value; the fields of an object keep their order. -/
inductive Json where
  | null
  | bool (b : Bool)
  | int (n : Int)
  | str (t : Text)
  | list (items : List Json)
  | object (fields : List (Text × Json))
deriving Repr

def unit (n : Nat) : Text :=
  "\\u" ++ padLeft '0' 4 (Nat.toDigits 16 n)

def escaped (c : Char) : Text :=
  if c = '"' then "\\\"" else if c = '\\' then "\\\\"
  else if c = '\n' then "\\n" else if c = '\r' then "\\r" else if c = '\t' then "\\t"
  else if c = '\x0c' then "\\f" else if c = '\x08' then "\\b"
  else if ' ' ≤ c ∧ c ≤ '~' then [c]
  else if c.toNat < 0x10000 then unit c.toNat
  else
    let n := c.toNat - 0x10000
    unit (0xd800 + n / 0x400) ++ unit (0xdc00 + n % 0x400)

def stringText (t : Text) : Text :=
  "\"" ++ t.flatMap escaped ++ "\""

/-- The text of a value that holds no others. -/
def wordText (b : Bool) : Text :=
  if b then "true" else "false"

mutual

def Json.text : Json → Text
  | .null => "null"
  | .bool b => wordText b
  | .int n => ofInt n
  | .str t => stringText t
  | .list items => "[" ++ join ", " (Json.texts items) ++ "]"
  | .object fields => "\x7b" ++ join ", " (Json.fieldTexts fields) ++ "\x7d"

def Json.texts : List Json → List Text
  | [] => []
  | j :: rest => j.text :: Json.texts rest

def Json.fieldTexts : List (Text × Json) → List Text
  | [] => []
  | (name, j) :: rest => (stringText name ++ ": " ++ j.text) :: Json.fieldTexts rest

end

def newLine (level : Nat) : Text :=
  "\n" ++ (List.replicate level "  ".toList).flatten

/-- Parts between brackets, one to a line. -/
def spread (opening closing : Text) (level : Nat) (parts : List Text) : Text :=
  if parts.isEmpty then opening ++ closing
  else opening ++ newLine (level + 1) ++ join ("," ++ newLine (level + 1)) parts ++
    newLine level ++ closing

mutual

/-- A value over several lines, at a level of indentation. -/
def Json.pretty (level : Nat) : Json → Text
  | .list items => spread "[" "]" level (Json.prettyItems (level + 1) items)
  | .object fields => spread "\x7b" "\x7d" level (Json.prettyFields (level + 1) fields)
  | .null => "null"
  | .bool b => wordText b
  | .int n => ofInt n
  | .str t => stringText t

def Json.prettyItems (level : Nat) : List Json → List Text
  | [] => []
  | j :: rest => j.pretty level :: Json.prettyItems level rest

def Json.prettyFields (level : Nat) : List (Text × Json) → List Text
  | [] => []
  | (name, j) :: rest =>
    (stringText name ++ ": " ++ j.pretty level) :: Json.prettyFields level rest

end

def Json.ofOption : Option Text → Json
  | some t => .str t
  | none => .null

end Pseudocode.Report
