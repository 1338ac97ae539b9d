import Pseudocode.Number.Rounded
import Pseudocode.Run.Items

/-!
# Values laid out as text

A layout says how a value is written: its width and what fills it up, its
sign, its digits and the base or the notation of a number. Templates have
layouts after a colon. A text with percent signs in it has layouts too: a
remainder whose left side is a text writes the values of its right side
in the places of the percent signs.
-/

namespace Pseudocode.Run

open Text Script

structure Layout where
  fill : Char := ' '
  /-- One of `<`, `>`, `^`, and `=` for filling up after the sign. -/
  align : Option Char := none
  /-- What stands before a number that is not negative: `+` or a blank. -/
  sign : Option Char := none
  /-- The base is written before the digits, and the point always. -/
  alternate : Bool := false
  width : Nat := 0
  /-- What stands between groups of digits. -/
  grouping : Option Char := none
  precision : Option Nat := none
  type : Option Char := none
deriving Repr

namespace Layout

def isAlign (c : Char) : Bool :=
  c == '<' || c == '>' || c == '=' || c == '^'

def bad {α : Type} (t : Text) : Except Fault α :=
  .error (.other .value t)

def takeAlign : Text → Layout × Bool × Text
  | fill :: align :: t =>
    if isAlign align then ({ fill, align := some align }, true, t)
    else if isAlign fill then ({ align := some fill }, false, align :: t)
    else ({}, false, fill :: align :: t)
  | [c] => if isAlign c then ({ align := some c }, false, []) else ({}, false, [c])
  | [] => ({}, false, [])

/-- The number at the front of a layout. -/
def takeNumber (t : Text) : Option Nat × Text :=
  let digits := t.takeWhile Char.isDigit
  (if digits.isEmpty then none else some (numeralValue digits), t.dropWhile Char.isDigit)

/-- The character at the front of a text, if it is of a class. -/
def takeIf (p : Char → Bool) : Text → Option Char × Text
  | c :: t => if p c then (some c, t) else (none, c :: t)
  | [] => (none, [])

def read (type t : Text) : Except Fault Layout := do
  let (l, filled, rest) := takeAlign t
  let (sign, rest) := takeIf (fun c => c == '+' || c == '-' || c == ' ') rest
  let (hash, rest) := takeIf (· == '#') rest
  let (zero, rest) := if filled then (none, rest) else takeIf (· == '0') rest
  let l := if zero.isNone then l
    else { l with fill := '0', align := l.align <|> if type = "str" then none else some '=' }
  let (width, rest) := takeNumber rest
  let (grouping, rest) := takeIf (fun c => c == ',' || c == '_') rest
  let (precision, rest) ← match rest with
    | '.' :: rest => match takeNumber rest with
      | (none, _) => bad "Format specifier missing precision"
      | (precision, rest) => pure (precision, rest)
    | rest => pure (none, rest)
  let l := { l with
    sign, alternate := hash.isSome, width := width.getD 0, grouping, precision
    type := rest.head? }
  if rest.length > 1 then
    bad ("Invalid format specifier " ++ quoted t ++ " for object of type '" ++ type ++ "'")
  else return l

/-- A text filled up to the width, `front` staying in front where the
filling comes after it. -/
def pad (l : Layout) (usual : Char) (front t : Text) : Text :=
  let n := l.width - (front.length + t.length)
  let fill (n : Nat) := List.replicate n l.fill
  match l.align.getD usual with
  | '<' => front ++ t ++ fill n
  | '^' => fill (n / 2) ++ front ++ t ++ fill (n - n / 2)
  | '=' => front ++ fill n ++ t
  | _ => fill n ++ front ++ t

def group (size : Nat) (mark : Char) (digits : Text) : Text :=
  let n := digits.length
  (digits.mapIdx fun i c =>
    if i ≠ 0 ∧ (n - i) % size = 0 then [mark, c] else [c]).flatten

/-- Digits in groups as a layout says; where zeros fill up the width they
are grouped too. -/
def grouped (l : Layout) (size others : Nat) (digits : Text) : Text :=
  match l.grouping with
  | none => digits
  | some mark =>
    if l.fill = '0' ∧ l.align = some '=' then
      let counts := (List.range (l.width + 1)).map fun n => padLeft '0' n digits
      let wide := (counts.map (group size mark)).filter fun t => t.length + others ≥ l.width
      wide.head?.getD (group size mark digits)
    else group size mark digits

def signText (l : Layout) (negative : Bool) : Text :=
  if negative then ['-']
  else match l.sign with
    | some '+' => ['+']
    | some ' ' => [' ']
    | _ => []

/-- The base of a notation for integers, and what stands before the
digits. -/
def base : Char → Nat × Text
  | 'b' => (2, "0b")
  | 'o' => (8, "0o")
  | 'x' => (16, "0x")
  | 'X' => (16, "0X")
  | _ => (10, [])

/-- The digits of a natural number in the notation of a letter. -/
def digitsIn (type : Char) (n : Nat) : Text :=
  let digits := Nat.toDigits (base type).1 n
  if type = 'X' then digits.map Char.toUpper else digits

def int (l : Layout) (n : Int) : Text :=
  let type := l.type.getD 'd'
  let front := l.signText (decide (n < 0)) ++ if l.alternate then (base type).2 else []
  let size := if (base type).1 = 10 then 3 else 4
  l.pad '>' front (l.grouped size front.length (digitsIn type n.natAbs))

def magnitude (l : Layout) (x : Float) (m : Nat) (q : Int) : Text :=
  let places := l.precision.getD 6
  let count := max 1 places
  let t : Text := match l.type with
    | some 'e' | some 'E' => Number.scientificText m q places
    | some 'f' | some 'F' | some '%' => Number.fixedText m q places
    | some 'g' | some 'G' | some 'n' => Number.generalText m q count l.alternate count
    | _ =>
      match l.precision with
      | none => Number.ofFloat x
      | some p =>
        let p := max 1 p
        let t := Number.generalText m q p l.alternate (max 1 ((p : Int) - 1))
        if t.any fun c => c == '.' || c == 'e' then t else t ++ ".0"
  let t := if l.alternate && !t.contains '.' then t ++ "." else t
  match l.type with
  | some 'E' | some 'F' | some 'G' => t.map Char.toUpper
  | some '%' => t ++ "%"
  | _ => t

def float (l : Layout) (x : Float) : Text :=
  let x := if l.type = some '%' then x * 100.0 else x
  let (negative, t) : Bool × Text := match Number.exact x with
    | .nan => (false, "nan")
    | .infinite negative => (negative, "inf")
    | .finite negative m q => (negative, l.magnitude (if negative then -x else x) m q)
  let t := if l.type.any Char.isUpper then t.map Char.toUpper else t
  let front := l.signText negative
  let whole := t.takeWhile Char.isDigit
  let rest := t.dropWhile Char.isDigit
  let whole := if whole.isEmpty then whole
    else l.grouped 3 (front.length + rest.length) whole
  l.pad '>' front (whole ++ rest)

def str (l : Layout) (t : Text) : Text :=
  l.pad '<' [] (match l.precision with
    | some n => t.take n
    | none => t)

end Layout

def isDecimalLetter (c : Char) : Bool :=
  "eEfFgG%".toList.contains c

def unknownNotation (c : Char) (type : Text) : Fault :=
  .other .value ("Unknown format code '" ++ [c] ++ "' for object of type '" ++ type ++ "'")

def Heap.formatted (h : Heap) (v : Value) (layout : Text) : Except Fault Text := do
  if layout.isEmpty then return ← h.text v
  match v, v.numeric? with
  | .str t, _ =>
    let l ← Layout.read "str" layout
    match l.type, l.sign, l.align, l.grouping with
    | some c, _, _, _ => if c = 's' then return l.str t else throw (unknownNotation c "str")
    | none, some _, _, _ => Layout.bad "Sign not allowed in string format specifier"
    | none, none, some '=', _ =>
      Layout.bad "'=' alignment not allowed in string format specifier"
    | none, none, _, some c => Layout.bad ("Cannot specify '" ++ [c] ++ "' with 's'.")
    | none, none, _, none => return l.str t
  | _, some (.int n) =>
    let l ← Layout.read v.typeName layout
    let letter := l.type.getD 'd'
    if isDecimalLetter letter then return l.float (← (Numeric.int n).toFloat)
    else if !"bcdnoxX".toList.contains letter then throw (unknownNotation letter v.typeName)
    else if l.precision.isSome then
      Layout.bad "Precision not allowed in integer format specifier"
    else if letter = 'c' then return l.str [Char.ofNat n.toNat]
    else if letter ≠ 'd' && l.grouping = some ',' then
      Layout.bad ("Cannot specify ',' with '" ++ [letter] ++ "'.")
    else return l.int n
  | _, some (.float x) =>
    let l ← Layout.read "float" layout
    match l.type with
    | some c =>
      if isDecimalLetter c || c = 'n' then return l.float x else throw (unknownNotation c "float")
    | none => return l.float x
  | _, none =>
    throw (.other .type
      ("unsupported format string passed to " ++ v.typeName ++ ".__format__"))

/-- A text with the characters outside ASCII written by their code
points. -/
def asciiOnly (t : Text) : Text :=
  t.flatMap fun c => if c.toNat < 128 then [c] else hexEscape c

/-- The values that a text with percent signs is given. -/
structure Supply where
  rest : List Value
  table : Option Value
  keyed : Bool := false

def Supply.next (s : Supply) : Except Fault (Value × Supply) :=
  match s.rest with
  | v :: rest => .ok (v, { s with rest })
  | [] => .error .formatMissing

/-- The integer of a value that is to be written in a notation. -/
def wholeNumber (letter : Char) (v : Value) : Except Fault Int :=
  let decimal := letter == 'd' || letter == 'i' || letter == 'u'
  match v.numeric? with
  | some (.int n) => .ok n
  | some (.float x) =>
    if !decimal then
      .error (.other .type ("%" ++ [letter] ++ " format: an integer is required, not float"))
    else match Number.exact x with
      | .nan => .error .nanToInteger
      | .infinite _ => .error .infinityToInteger
      | .finite negative m q => .ok (Number.signed negative (Number.cutOff m q))
  | none =>
    let needed : Text := if decimal then "a real number" else "an integer"
    .error (.other .type ("%" ++ [letter] ++ " format: " ++ needed ++ " is required, not " ++
      v.typeName))

def Heap.percent (h : Heap) (l : Layout) (letter : Char) (index : Nat) (v : Value) :
    Except Fault Text := do
  let zeros := l.fill = '0'
  let asText (t : Text) := { l with fill := ' ' }.pad '>' [] (match l.precision with
    | some n => t.take n
    | none => t)
  if letter = 's' then return asText (← h.text v)
  else if letter = 'r' then return asText (← h.shown v)
  else if letter = 'a' then return asText (asciiOnly (← h.shown v))
  else if letter = 'c' then
    match v, v.integer? with
    | .str [c], _ => return { l with precision := none, fill := ' ' }.pad '>' [] [c]
    | _, some n =>
      if n < 0 || n > 0x10FFFF then throw (.other .overflow "%c arg not in range(0x110000)")
      else return { l with precision := none, fill := ' ' }.pad '>' [] [Char.ofNat n.toNat]
    | _, none => throw (.other .type "%c requires int or char")
  else if "diuoxX".toList.contains letter then
    let n ← wholeNumber letter v
    let type := if letter = 'i' || letter = 'u' then 'd' else letter
    let digits := padLeft '0' (l.precision.getD 0) (Layout.digitsIn type n.natAbs)
    let front := l.signText (decide (n < 0)) ++
      if l.alternate then (Layout.base type).2 else []
    let l := if zeros && l.align.isNone then { l with align := some '=' } else
      { l with fill := ' ' }
    return l.pad '>' front digits
  else if "eEfFgG".toList.contains letter then
    match v.numeric? with
    | some x =>
      let l := if zeros && l.align.isNone then { l with align := some '=' } else
        { l with fill := ' ' }
      return { l with type := some letter }.float (← x.toFloat)
    | none => throw (.other .type ("must be real number, not " ++ v.typeName))
  else
    Layout.bad ("unsupported format character " ++ (if isPrintable letter then ['\'', letter, '\'']
      else "'?'".toList) ++ " (0x" ++ Nat.toDigits 16 letter.toNat ++ ") at index " ++ ofNat index)

/-- A number in a layout after a percent sign: digits, or a star for the
next value. -/
def takeCount (s : Supply) (t : Text) : Except Fault (Option Int × Supply × Text) :=
  match t with
  | '*' :: rest => do
    let (v, s) ← s.next
    match v with
    | .int n => return (some n, s, rest)
    | _ => throw (.other .type "* wants int")
  | t =>
    let (n, rest) := Layout.takeNumber t
    .ok (n.map Int.ofNat, s, rest)

/-- Writes values in the places of the percent signs of a text. The first
argument bounds the number of places, `length` is that of the whole
text. -/
def Heap.fillPlaces (h : Heap) (length : Nat) : Nat → Supply → Text → Except Fault (Text × Supply)
  | 0, s, _ => .ok ([], s)
  | fuel + 1, s, t => do
    let front := t.takeWhile (· != '%')
    match t.dropWhile (· != '%') with
    | [] => return (front, s)
    | _ :: rest =>
      let (s, rest) ← match rest with
        | '(' :: key =>
          match s.table with
          | none => throw (.other .type "format requires a mapping")
          | some (.dict address) =>
            let name := key.takeWhile (· != ')')
            match key.dropWhile (· != ')') with
            | [] => Layout.bad "incomplete format key"
            | _ :: rest =>
              match h.valueAt? address (.str name) with
              | some v => pure ({ s with rest := [v], keyed := true }, rest)
              | none => throw (.missingKey (quoted name))
          | some v => throw (.indexType v.typeName "str")
        | rest => pure (s, rest)
      let flags := rest.takeWhile ("-+ #0".toList.contains ·)
      let rest := rest.dropWhile ("-+ #0".toList.contains ·)
      let (width, s, rest) ← takeCount s rest
      let (precision, s, rest) ← match rest with
        | '.' :: rest => do
          let (n, s, rest) ← takeCount s rest
          pure (some (n.getD 0).toNat, s, rest)
        | rest => pure (none, s, rest)
      let (_, rest) := Layout.takeIf (fun c => c == 'h' || c == 'l' || c == 'L') rest
      match rest with
      | [] => Layout.bad "incomplete format"
      | letter :: rest =>
        let left := flags.contains '-' || width.any (· < 0)
        let l : Layout :=
          { fill := if flags.contains '0' then '0' else ' '
            align := if left then some '<' else none
            sign := if flags.contains '+' then some '+'
              else if flags.contains ' ' then some ' ' else none
            alternate := flags.contains '#'
            width := (width.getD 0).natAbs
            precision }
        let (place, s) ← if letter = '%' then pure (['%'], s) else do
          let (v, s) ← s.next
          pure (← h.percent l letter (length - rest.length - 1) v, s)
        let (tail, s) ← fillPlaces h length fuel s rest
        return (front ++ place ++ tail, s)

/-- A text with percent signs, filled in with the values of another
value. -/
def Heap.fillIn (h : Heap) (t : Text) (v : Value) : Except Fault Text := do
  let s : Supply := match v with
    | .tuple address => ⟨(h.cells address).toList, none, false⟩
    | .list _ | .dict _ | .range .. => ⟨[v], some v, true⟩
    | v => ⟨[v], none, false⟩
  let (filled, left) ← h.fillPlaces t.length (t.length + 1) s t
  if left.rest.isEmpty || left.keyed then return filled else throw .formatArguments

end Pseudocode.Run
