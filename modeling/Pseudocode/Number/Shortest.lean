import Pseudocode.Number.Binary
import Pseudocode.Text.Basic

/-!
# Doubles in the fewest digits

A double is written with the fewest decimal digits that read back as the
same double, and of those with the nearest ones. The reals that read
back as `m · 2 ^ q` lie between the midpoints to its neighbours; the
midpoints belong to it when `m` is even.
-/

namespace Pseudocode.Number

/-- A positive decimal `digits · 10 ^ exponent`. -/
structure Scientific where
  digits : Nat
  exponent : Int
deriving DecidableEq, Repr

/-- The quarters of a unit in the last place from `m · 2 ^ q` down to
the midpoint below it: the neighbour below a power of two is nearer. -/
def quartersBelow (m : Nat) (q : Int) : Nat :=
  if m = Nat.pow 2 52 ∧ q > leastExponent then 1 else 2

def readsBack (m : Nat) (q : Int) (d : Scientific) : Bool :=
  let scale (quarters : Nat) :=
    quarters * Nat.pow 2 (q - 2).toNat * Nat.pow 10 (-d.exponent).toNat
  let value := d.digits * Nat.pow 10 d.exponent.toNat * Nat.pow 2 (2 - q).toNat
  let low := scale (4 * m - quartersBelow m q)
  let high := scale (4 * m + 2)
  if m % 2 = 0 then low ≤ value && value ≤ high else low < value && value < high

def leadingDecimal (num den : Nat) : Int :=
  if num ≥ den then (Nat.toDigits 10 (num / den)).length - 1
  else
    let j := (Nat.toDigits 10 (den / num)).length
    if num * Nat.pow 10 (j - 1) ≥ den then -((j : Int) - 1) else -j

/-- The decimal of `count` digits nearest to `m · 2 ^ q` that reads back
as it, if there is one. -/
def withDigits? (m : Nat) (q : Int) (count : Nat) : Option Scientific :=
  let num := m * Nat.pow 2 q.toNat
  let den := Nat.pow 2 (-q).toNat
  let exponent := leadingDecimal num den - (count - 1)
  let n := num * Nat.pow 10 (-exponent).toNat
  let d := den * Nat.pow 10 exponent.toNat
  let below : Scientific := ⟨n / d, exponent⟩
  let above : Scientific := ⟨n / d + 1, exponent⟩
  let r := n % d
  let nearer := if 2 * r > d ∨ 2 * r = d ∧ below.digits % 2 = 1 then [above, below]
    else [below, above]
  nearer.find? (readsBack m q)

/-- The shortest decimal that reads back as `m · 2 ^ q`; seventeen
digits are always enough. -/
def shortest (m : Nat) (q : Int) : Scientific :=
  ((List.range 17).findSome? fun i => withDigits? m q (i + 1)).getD ⟨m, q⟩

/-- The digits of a decimal without trailing zeros, and the position of
its point: the value is `0.digits · 10 ^ point`. -/
def digitsAndPoint (d : Scientific) : Text × Int :=
  let all := Text.ofNat d.digits
  let kept := (all.reverse.dropWhile (· == '0')).reverse
  (kept, all.length + d.exponent)

/-- The range of `point` in which the digits are written around the
point; elsewhere an exponent is written. -/
def isPositional (point : Int) : Bool :=
  -4 < point && point ≤ 16

/-- The digits written around the point, with a digit at least on both
sides. -/
def positional (digits : Text) (point : Int) : Text :=
  if point ≤ 0 then "0." ++ List.replicate (-point).toNat '0' ++ digits
  else
    let whole := digits.take point.toNat
    let fraction : Text := if digits.length ≤ point.toNat then "0" else digits.drop point.toNat
    whole ++ List.replicate (point.toNat - whole.length) '0' ++ "." ++ fraction

/-- One digit before the point, the others after it, and an exponent of
two digits at least. -/
def scientific (digits : Text) (point : Int) : Text :=
  let e := point - 1
  let mantissa := match digits with
    | first :: second :: rest => first :: '.' :: second :: rest
    | few => few
  let sign : Text := if e < 0 then "-" else "+"
  mantissa ++ "e" ++ sign ++ Text.padLeft '0' 2 (Text.ofNat e.natAbs)

def ofFloat (x : Float) : Text :=
  match exact x with
  | .nan => "nan"
  | .infinite negative => if negative then "-inf" else "inf"
  | .finite negative m q =>
    let sign : Text := if negative then "-" else []
    let (digits, point) := digitsAndPoint (shortest m q)
    sign ++ if m = 0 then ("0.0" : Text)
      else if isPositional point then positional digits point
      else scientific digits point

end Pseudocode.Number
