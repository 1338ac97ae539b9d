import Pseudocode.Statement.Basic
import Pseudocode.Text.Letters
import Pseudocode.Text.Identifier
import Pseudocode.Text.Digits

/-!
# Reading the form of a line

The forms are tried in a fixed order, and the first one that matches
the front of the trimmed line decides: if it leaves something over, the
line is unrecognized and no later form is tried. A reader of this
module takes a text and returns the form with the rest it did not use,
or `none` when its form does not match at all. Two lines match a form
and still have no reading: a closing word spelled with a letter that
only folds onto ASCII, and an array size of too many digits.
-/

namespace Pseudocode.Statement

open Text

/-- Why a line that matches a form cannot be read. -/
inductive Fault where
  /-- A closing word with a letter that lower-casing does not reach. -/
  | closingWord (word : Text)
  /-- An array size of more digits than are read. -/
  | sizeTooLong (digits : Nat)
deriving DecidableEq, Repr

/-- What follows one gap or more. -/
def afterGap? : Text → Option Text
  | [] => none
  | c :: t => if isGap c then some (t.dropWhile isGap) else none

def afterKeyword? (word t : Text) : Option Text :=
  (afterWord? word t).bind afterGap?

/-- A character of a line, as opposed to the end of one. -/
def inLine (c : Char) : Bool :=
  c != '\n'

/-- One character or more up to the end of the line, and what follows. -/
def takeLine? (t : Text) : Option (Text × Text) :=
  match t.takeWhile inLine with
  | [] => none
  | line => some (line, t.dropWhile inLine)

/-- The text between `opening` at the front and `closing` as the last
character, when it stays on one line. -/
def enclosed? (opening closing : Char) : Text → Option Text
  | [] => none
  | c :: t =>
    if c = opening ∧ t.getLast? = some closing ∧ t.dropLast.all inLine then some t.dropLast
    else none

/-- Reads `// …` and `# …`. -/
def comment? (t : Text) : Option (Form × Text) :=
  let isComment := match t with
    | '#' :: _ => true
    | '/' :: '/' :: _ => true
    | _ => false
  if isComment then some (.comment (t.takeWhile inLine), t.dropWhile inLine) else none

def program? (t : Text) : Option (Form × Text) := do
  let (name, rest) ← takeLine? (← afterKeyword? "programa" t)
  return (.program (trim name), rest)

def parameters? : Text → Option (List Text)
  | '(' :: t =>
    if t.getLast? = some ')' ∧ t.dropLast.all (· ≠ ')') then
      some (((cutAt (· == ',') t.dropLast).map trim).filter (!·.isEmpty))
    else none
  | _ => none

/-- Reads a function header with its parameter list. -/
def signature? (t : Text) : Option Form := do
  let (name, rest) ← takeName? t
  return .function name (← parameters? (rest.dropWhile isGap))

/-- Reads `funcion` with a signature, or with anything else on the line. -/
def function? (t : Text) : Option (Form × Text) := do
  let rest ← afterKeyword? "funcion" t
  match signature? rest with
  | some form => return (form, [])
  | none =>
    let (_, after) ← takeLine? rest
    return (.malformedFunction (t.take (t.length - after.length)), after)

/-- Reads a line that is one keyword. -/
def keyword? (word : Text) (form : Form) (t : Text) : Option (Form × Text) :=
  if isWord word t then some (form, []) else none

def closingWords : List (Text × Form) :=
  [("fin", .endScope), ("finmientras", .endWhile), ("finpara", .endFor), ("finsi", .endIf)]

def isClosingWord (t : Text) : Bool :=
  closingWords.any fun w => isWord w.1 t

/-- The form of a closing word: only ASCII letters may change case. -/
def closingForm (t : Text) : Except Fault Form :=
  match closingWords.find? fun w => w.1 == lowerWord t with
  | some w => .ok w.2
  | none => .error (.closingWord t)

/-- Reads a keyword followed by a condition in parentheses. -/
def tested? (word : Text) (form : Text → Form) (t : Text) : Option (Form × Text) := do
  let rest ← afterWord? word t
  return (form (← enclosed? '(' ')' (rest.dropWhile isGap)), [])

/-- The end of a counted loop's header, for a position after the gap
that follows `hasta`: the shortest text on one line before a gap and the
final word. `taken` is what the text already has. -/
def beforeHacer? (taken : Text) : Text → Option Text
  | [] => none
  | c :: t =>
    if !taken.isEmpty && isGap c && isWord "hacer" (t.dropWhile isGap) then some taken
    else if inLine c then beforeHacer? (taken ++ [c]) t
    else none

/-- The end value of a counted loop, for a position directly after
`hasta`: the gap there is as long as possible, and gives characters back
only when nothing else is left for the end value. -/
def stopValue? : Text → Option Text
  | [] => none
  | c :: t =>
    if isGap c then
      match stopValue? t with
      | some stop => some stop
      | none => beforeHacer? [] t
    else none

/-- The start and end value of a counted loop: the start value is the
shortest text on one line before a gap and `hasta` that leaves an end
value. `taken` is what the start value already has. -/
def rangeFrom? (taken : Text) : Text → Option (Text × Text)
  | [] => none
  | c :: t =>
    let here := if !taken.isEmpty && isGap c
      then (afterWord? "hasta" (t.dropWhile isGap)).bind stopValue? else none
    match here with
    | some stop => some (taken, stop)
    | none => if inLine c then rangeFrom? (taken ++ [c]) t else none

def forLoop? (t : Text) : Option (Form × Text) := do
  let (counter, rest) ← takeName? (← afterKeyword? "para" t)
  let (start, stop) ← rangeFrom? [] (← afterKeyword? "desde" (← afterGap? rest))
  return (.forLoop counter start stop, [])

def ifTest? (t : Text) : Option (Form × Text) := do
  let (condition, rest) ← takeLine? (← afterKeyword? "si" t)
  return (.ifTest (trim condition), rest)

/-- The digits of an array size in brackets, and what follows. -/
def arraySize? : Text → Option (Text × Text)
  | '[' :: t =>
    let t := t.dropWhile isGap
    match t.takeWhile isDigit, (t.dropWhile isDigit).dropWhile isGap with
    | [], _ => none
    | digits, ']' :: rest => some (digits, rest)
    | _, _ => none
  | _ => none

def sizeValue (digits : Text) : Except Fault Nat :=
  if digits.length > digitLimit then .error (.sizeTooLong digits.length)
  else .ok (numeralValue digits)

/-- A declared type at the front of a text, and what follows its gap. -/
def valueType? (t : Text) : Option (ValueType × Text) :=
  ValueType.all.findSome? fun type => (afterKeyword? type.word t).map fun rest => (type, rest)

/-- A declaration before its size is read as a number. -/
structure Declaration where
  type : ValueType
  name : Text
  digits : Option Text

def declaration? (t : Text) : Option (Declaration × Text) := do
  let (type, rest) ← valueType? t
  let (name, rest) ← takeName? rest
  let rest := rest.dropWhile isGap
  match arraySize? rest with
  | some (digits, rest) => return (⟨type, name, some digits⟩, rest.dropWhile isGap)
  | none => return (⟨type, name, none⟩, rest)

def legacyArray? (t : Text) : Option (Form × Text) := do
  let (_, rest) ← takeLine? (← afterKeyword? "arreglo" t)
  return (.legacyArray (t.take (t.length - rest.length)), rest)

/-- Name and index of a target `name[index]` that ends the text. -/
def cell? (t : Text) : Option (Text × Text) := do
  let (name, rest) ← takeName? t
  match ← enclosed? '[' ']' (rest.dropWhile isGap) with
  | [] => none
  | index => return (name, index)

def read? (t : Text) : Option (Form × Text) := do
  let rest ← afterKeyword? "leer" t
  match cell? rest with
  | some (name, index) => return (.read (trim rest) name (some index), [])
  | none =>
    let (target, after) ← takeLine? rest
    return (.read (trim target) (trim target) none, after)

def write? (t : Text) : Option (Form × Text) := do
  let (arguments, rest) ← takeLine? (← afterKeyword? "escribir" t)
  return (.write (trim arguments), rest)

def call? (t : Text) : Option (Form × Text) := do
  let (callee, rest) ← takeName? t
  let _ ← enclosed? '(' ')' (rest.dropWhile isGap)
  return (.call callee, [])

/-- A match that used the whole line gives its form; one that left
something over makes the line unrecognized. -/
def whole (t : Text) : Form × Text → Form
  | (form, []) => form
  | (_, _ :: _) => .unrecognized t

/-- The forms tried before the closing words. -/
def openingReaders : List (Text → Option (Form × Text)) :=
  [comment?, program?, function?, keyword? "inicio" .main]

/-- The forms tried between the closing words and declarations. -/
def blockReaders : List (Text → Option (Form × Text)) :=
  [tested? "mientras" .whileLoop, forLoop?, keyword? "repetir" .repeatLoop,
    tested? "hasta" .untilTest, keyword? "entonces" .thenBranch, keyword? "sino" .elseBranch,
    ifTest?]

/-- The forms tried after declarations. -/
def simpleReaders : List (Text → Option (Form × Text)) :=
  [legacyArray?, read?, write?, keyword? "volver" .returnScope, call?]

def classifyTrimmed (t : Text) : Except Fault Form :=
  match openingReaders.findSome? (· t) with
  | some found => .ok (whole t found)
  | none =>
    if isClosingWord t then closingForm t
    else match blockReaders.findSome? (· t) with
      | some found => .ok (whole t found)
      | none =>
        match declaration? t with
        | some (d, []) => do
          let size ← d.digits.mapM sizeValue
          return .declare d.type d.name size
        | some (_, _ :: _) => .ok (.unrecognized t)
        | none => .ok (whole t ((simpleReaders.findSome? (· t)).getD (.unrecognized t, [])))

/-- The form of a line; blanks around it do not matter. -/
def classify (line : Text) : Except Fault Form :=
  let t := trim line
  if t.isEmpty then .ok (.unrecognized []) else classifyTrimmed t

end Pseudocode.Statement
