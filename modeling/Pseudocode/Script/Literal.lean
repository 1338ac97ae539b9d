import Pseudocode.Number.Reading
import Pseudocode.Script.Token
import Pseudocode.Text.Identifier

/-!
# Numbers and texts of a script

Numbers are integers to base ten, sixteen, eight or two, and decimals;
single underscores may stand between digits. A number must not run into
a word, but for the beginnings of the words that can follow one. Texts
are in single or double quotes, or in three of them, and have escapes
that start with a backslash.
-/

namespace Pseudocode.Script

open Text

def isWordChar (c : Char) : Bool :=
  isNameChar c || c.toNat ≥ 128

/-- The words that may follow a number without a blank, if the word ends
there. -/
def afterNumber : List Text := List.map String.toList ["and", "else", "for", "not", "or"]

/-- The beginnings of words that may follow a number without a blank. -/
def openAfterNumber : List Text := List.map String.toList ["if", "in", "is"]

def startsWord (t word : Text) : Bool :=
  (after? word t).any fun rest => !(rest.head?.any isWordChar)

/-- What follows a number does not run into it. -/
def endsNumber (t : Text) : Bool :=
  match t with
  | [] => true
  | c :: _ =>
    !isWordChar c || afterNumber.any (startsWord t) || openAfterNumber.any (·.isPrefixOf t)

/-- The ASCII digits at the front of a text, underscores between digits
left out, and the rest; `none` if an underscore has no digit after it. -/
def takeDigits? : Text → Option (Text × Text)
  | [] => some ([], [])
  | '_' :: t =>
    match t with
    | d :: _ => if d.isDigit then takeDigits? t else none
    | [] => none
  | c :: t =>
    if c.isDigit then (takeDigits? t).map fun p => (c :: p.1, p.2) else some ([], c :: t)

/-- The digits at the front of a text that starts with a digit, or none
of them. -/
def takeNumeral? (t : Text) : Option (Text × Text) :=
  match t with
  | c :: _ => if c.isDigit then takeDigits? t else some ([], t)
  | [] => some ([], t)

/-- The exponent at the front of a text, if it has one, and the rest. A
mark without digits after it does not belong to the number. -/
def takeExponent? (t : Text) : Option (Option Int × Text) :=
  match t with
  | c :: rest =>
    if Number.isExponentMark c then
      let hasSign := rest.head? == some '+' || rest.head? == some '-'
      let (negative, digits) := Number.splitSign rest
      match takeNumeral? digits with
      | none => none
      | some ([], _) => if hasSign then none else some (none, t)
      | some (digits, rest) => some (some (Number.signed negative (numeralValue digits)), rest)
    else some (none, t)
  | [] => some (none, t)

/-- The number token of its parts. An integer has neither point nor
exponent, and no leading zeros unless it is zero. -/
def numberToken? (whole fraction : Text) (hasPoint : Bool) (exponent : Option Int) :
    Option Token :=
  if hasPoint || exponent.isSome then
    some (.float (Number.scaled false (whole ++ fraction) (exponent.getD 0 - fraction.length)))
  else if whole.head? == some '0' && whole.any (· != '0') then none
  else if whole.length > digitLimit then some .unusable
  else some (.int (numeralValue whole))

def hexDigit? (c : Char) : Option Nat :=
  if '0' ≤ c && c ≤ '9' then some (c.toNat - '0'.toNat)
  else if 'a' ≤ c.toLower && c.toLower ≤ 'f' then some (c.toLower.toNat - 'a'.toNat + 10)
  else none

def baseDigit? (base : Nat) (c : Char) : Option Nat :=
  (hexDigit? c).filter (· < base)

/-- The value of the digits to a base at the front of a text, and the
rest; one underscore may stand before each digit. -/
def takeBase (base value : Nat) : Text → Nat × Text
  | [] => (value, [])
  | ['_'] => (value, ['_'])
  | '_' :: c :: t =>
    match baseDigit? base c with
    | some d => takeBase base (base * value + d) t
    | none => (value, '_' :: c :: t)
  | c :: t =>
    match baseDigit? base c with
    | some d => takeBase base (base * value + d) t
    | none => (value, c :: t)

/-- The base that a letter after a zero stands for. -/
def base? (c : Char) : Option Nat :=
  if c.toLower = 'x' then some 16
  else if c.toLower = 'o' then some 8
  else if c.toLower = 'b' then some 2
  else none

/-- The number to another base than ten at the front of a text, and the
rest; digits that are too large for the base are no part of a number. -/
def basedNumber? (base : Nat) (t : Text) : Option (Token × Text) :=
  let (value, rest) := takeBase base 0 t
  if rest.length < t.length && endsNumber rest && !(rest.head?.any Char.isDigit) then
    some (.int value, rest)
  else none

def number? (t : Text) : Option (Token × Text) := do
  if let '0' :: c :: rest := t then
    if let some base := base? c then
      return ← basedNumber? base rest
  let (whole, rest) ← takeNumeral? t
  let hasPoint := rest.head? == some '.'
  let (fraction, rest) ← if hasPoint then takeNumeral? (rest.drop 1) else some ([], rest)
  let (exponent, rest) ← takeExponent? rest
  match rest with
  | 'j' :: rest | 'J' :: rest =>
    let x := Number.scaled false (whole ++ fraction) (exponent.getD 0 - fraction.length)
    if endsNumber rest then some (.imaginary x, rest) else none
  | _ =>
    let token ← numberToken? whole fraction hasPoint exponent
    if endsNumber rest then some (token, rest) else none

def startsNumber : Text → Bool
  | '.' :: c :: _ => c.isDigit
  | c :: _ => c.isDigit
  | [] => false

def isQuote (c : Char) : Bool :=
  c == '"' || c == '\''

/-- The inside of a literal up to its closing quotes, and the rest. One
in single quotes ends on its line, but for line ends after a backslash. -/
def stringBody? (quotes : Text) : Text → Option (Text × Text)
  | [] => none
  | ['\\'] => none
  | '\\' :: c :: t => (stringBody? quotes t).map fun p => ('\\' :: c :: p.1, p.2)
  | c :: t =>
    match after? quotes (c :: t) with
    | some rest => some ([], rest)
    | none =>
      if c == '\n' && quotes.length == 1 then none
      else (stringBody? quotes t).map fun p => (c :: p.1, p.2)

/-- The inside of the literal that a text starts with, and the rest. -/
def takeString? (t : Text) : Option (Text × Text) :=
  match t with
  | [] => none
  | quote :: rest =>
    match after? [quote, quote] rest with
    | some inside => stringBody? [quote, quote, quote] inside
    | none => stringBody? [quote] rest

/-- The character of exactly `width` hexadecimal digits. -/
def hexChar? (width : Nat) (t : Text) : Option Char := do
  let digits ← (t.take width).mapM hexDigit?
  let n := digits.foldl (fun n d => 16 * n + d) 0
  if digits.length = width && n.isValidChar then some (Char.ofNat n) else none

def letterEscapes : List (Char × Char) :=
  [('n', '\n'), ('t', '\t'), ('r', '\r'), ('\\', '\\'), ('\'', '\''), ('"', '"'),
    ('a', '\x07'), ('b', '\x08'), ('f', '\x0c'), ('v', '\x0b')]

/-- The width of escapes by code point. Rows of bytes have only the first
of them. -/
def hexWidth? (isBytes : Bool) : Char → Option Nat
  | 'x' => some 2
  | 'u' => if isBytes then none else some 4
  | 'U' => if isBytes then none else some 8
  | _ => none

def isOctal (c : Char) : Bool :=
  '0' ≤ c && c ≤ '7'

/-- The text that the inside of a literal stands for, `none` if an escape
is malformed. A backslash and a line end stand for nothing, and a
backslash before any other character stays. The first number counts
characters that an escape has used up. -/
def unescape? (isBytes : Bool) : Nat → Text → Option Text
  | _, [] => some []
  | used + 1, _ :: t => unescape? isBytes used t
  | 0, '\\' :: c :: t =>
    match letterEscapes.lookup c, hexWidth? isBytes c with
    | some e, _ => (unescape? isBytes 0 t).map (e :: ·)
    | none, some width => do
      let e ← hexChar? width t
      return e :: (← unescape? isBytes width t)
    | none, none =>
      if c == '\n' then unescape? isBytes 0 t
      else if isOctal c then do
        let digits := c :: (t.take 2).takeWhile isOctal
        let rest ← unescape? isBytes (digits.length - 1) t
        let n := digits.foldl (fun n d => 8 * n + (d.toNat - '0'.toNat)) 0
        return Char.ofNat (if isBytes then n % 256 else n) :: rest
      else if c == 'N' && !isBytes then none
      else (unescape? isBytes 0 t).map fun rest => '\\' :: c :: rest
  | 0, c :: t => (unescape? isBytes 0 t).map (c :: ·)

structure Marks where
  isRaw : Bool := false
  isTemplate : Bool := false
  isBytes : Bool := false
deriving DecidableEq, Repr

/-- The marks that a word directly before a quote stands for. -/
def Marks.ofWord? (word : Text) : Option Marks :=
  let mark := word.map Char.toLower
  if mark = [] ∨ mark = "u" then some {}
  else if mark = "r" then some { isRaw := true }
  else if mark = "f" then some { isTemplate := true }
  else if mark = "b" then some { isBytes := true }
  else if mark = "fr" ∨ mark = "rf" then some { isRaw := true, isTemplate := true }
  else if mark = "br" ∨ mark = "rb" then some { isRaw := true, isBytes := true }
  else none

def stringToken (m : Marks) (body : Text) : Token :=
  if m.isTemplate then .template m.isRaw body
  else if m.isBytes && body.any (·.toNat ≥ 128) then .unusable
  else
    let inside := if m.isRaw then some body else unescape? m.isBytes 0 body
    inside.elim .unusable (if m.isBytes then .bytes else .str)

end Pseudocode.Script
