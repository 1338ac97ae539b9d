import Pseudocode.Number.Binary
import Pseudocode.Text.Digits

/-!
# Numbers from text

A numeral may have single underscores between its digits, and digits of
any script. An integer is a numeral with an optional sign. A decimal has
digits before or after a point, or both, and an optional exponent;
`inf`, `infinity` and `nan` in any case are decimals too. A decimal is
read as the double nearest to it.
-/

namespace Pseudocode.Number

open Text

/-- The digits of a numeral, without its underscores. -/
def digitsOf? (t : Text) : Option Text :=
  let groups := cutAt (· == '_') t
  if groups.all isNumeral then some groups.flatten else none

def splitSign : Text → Bool × Text
  | '-' :: t => (true, t)
  | '+' :: t => (false, t)
  | t => (false, t)

inductive IntReading where
  | value (n : Int)
  | tooLong (digits : Nat)
  | malformed
deriving DecidableEq, Repr

def readInt (t : Text) : IntReading :=
  let (negative, rest) := splitSign (trimGap t)
  match digitsOf? rest with
  | none => .malformed
  | some digits =>
    if digits.length > digitLimit then .tooLong digits.length
    else .value (signed negative (numeralValue digits))

/-- The digits of a part that may be missing. -/
def optionalDigits? (t : Text) : Option Text :=
  if t.isEmpty then some [] else digitsOf? t

def isExponentMark (c : Char) : Bool :=
  c == 'e' || c == 'E'

/-- The exponent that a text ends with, zero if it has none. -/
def exponent? : Text → Option Int
  | [] => some 0
  | _ :: t => do
    let (negative, rest) := splitSign t
    return signed negative (numeralValue (← digitsOf? rest))

/-- The double nearest to `± digits · 10 ^ exponent`. Beyond 400 decimal
places to either side it is infinite or zero. -/
def scaled (negative : Bool) (digits : Text) (exponent : Int) : Float :=
  let n := numeralValue digits
  let place := digits.length + exponent
  if n = 0 || place < -400 then ofMagnitude negative 0
  else if (Nat.toDigits 10 n).length + exponent > 400 then ofMagnitude negative infinityBits
  else nearest negative (n * Nat.pow 10 exponent.toNat) (Nat.pow 10 (-exponent).toNat)

def magnitude? (negative : Bool) (t : Text) : Option Float := do
  let mantissa := t.takeWhile (!isExponentMark ·)
  let exponent ← exponent? (t.dropWhile (!isExponentMark ·))
  let whole ← optionalDigits? (mantissa.takeWhile (· != '.'))
  let fraction ← optionalDigits? ((mantissa.dropWhile (· != '.')).drop 1)
  let digits := whole ++ fraction
  if digits.isEmpty then none
  else some (scaled negative digits (exponent - fraction.length))

def readFloat? (t : Text) : Option Float :=
  let (negative, rest) := splitSign t
  let word := rest.map Char.toLower
  if word = "inf" ∨ word = "infinity" then some (ofMagnitude negative infinityBits)
  else if word = "nan" then some (0.0 / 0.0)
  else magnitude? negative rest

end Pseudocode.Number
