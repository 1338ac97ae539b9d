import Pseudocode.Number.Shortest

/-!
# Doubles in a given number of digits

A double is written with as many digits as are asked for, after the point
or altogether. The digits are those of the exact value, rounded to the
nearest, a half going to the even digit.
-/

namespace Pseudocode.Number

/-- The integer nearest to `num / den`, a half going to the even one. -/
def roundDiv (num den : Nat) : Nat :=
  let n := num / den
  let r := num % den
  if 2 * r > den ∨ 2 * r = den ∧ n % 2 = 1 then n + 1 else n

def inUnits (m : Nat) (q places : Int) : Nat :=
  roundDiv (m * Nat.pow 2 q.toNat * Nat.pow 10 places.toNat)
    (Nat.pow 2 (-q).toNat * Nat.pow 10 (-places).toNat)

def withPoint (n places : Nat) : Text :=
  let digits := Text.padLeft '0' (places + 1) (Text.ofNat n)
  let whole := digits.take (digits.length - places)
  if places = 0 then whole else whole ++ "." ++ digits.drop (digits.length - places)

def fixedText (m : Nat) (q : Int) (places : Nat) : Text :=
  withPoint (inUnits m q places) places

/-- The value `m · 2 ^ q` in `count` digits; a zero has no exponent. -/
def significant (m : Nat) (q : Int) (count : Nat) : Scientific :=
  if m = 0 then ⟨0, 1 - (count : Int)⟩ else
    let lead := leadingDecimal (m * Nat.pow 2 q.toNat) (Nat.pow 2 (-q).toNat)
    let n := inUnits m q (count - 1 - lead)
    if n < Nat.pow 10 count then ⟨n, lead - (count - 1)⟩
    else ⟨n / 10, lead + 1 - (count - 1)⟩

/-- The exponent of the first digit of a decimal of `count` digits. -/
def Scientific.lead (d : Scientific) (count : Nat) : Int :=
  d.exponent + (count - 1)

def exponentText (e : Int) : Text :=
  let sign : Text := if e < 0 then "-" else "+"
  "e" ++ sign ++ Text.padLeft '0' 2 (Text.ofNat e.natAbs)

/-- The value `m · 2 ^ q` with one digit before the point, a number of
digits after it, and an exponent. -/
def scientificText (m : Nat) (q : Int) (places : Nat) : Text :=
  let d := significant m q (places + 1)
  let e := if m = 0 then 0 else d.lead (places + 1)
  withPoint d.digits places ++ exponentText e

/-- A text with a point in it, without zeros at its end. -/
def dropZeros (t : Text) : Text :=
  if t.contains '.' then
    let kept := t.reverse.dropWhile (· == '0')
    (if kept.head? = some '.' then kept.drop 1 else kept).reverse
  else t

/-- The value `m · 2 ^ q` in `count` digits: with an exponent if the value
is less than a ten-thousandth or the digits do not reach the point.
Zeros at the end are left out unless they are to be kept. -/
def generalText (m : Nat) (q : Int) (count : Nat) (keep : Bool) (limit : Int) : Text :=
  let d := significant m q count
  let e := if m = 0 then 0 else d.lead count
  let tidy (t : Text) := if keep then t else dropZeros t
  if -4 ≤ e && e < limit then tidy (fixedText m q (count - 1 - e).toNat)
  else tidy (withPoint d.digits (count - 1)) ++ exponentText e

end Pseudocode.Number
