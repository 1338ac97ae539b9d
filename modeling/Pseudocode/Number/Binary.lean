/-!
# Doubles, seen exactly

A double that is neither infinite nor a NaN is `± m · 2 ^ q` for natural
`m` and integer `q`. Through that view the operations below are exact
arithmetic followed by one rounding to the nearest double, ties going to
the even one.
-/

namespace Pseudocode.Number

inductive Exact where
  | nan
  | infinite (negative : Bool)
  | finite (negative : Bool) (m : Nat) (q : Int)
deriving DecidableEq, Repr

def leastExponent : Int := -1074

def exact (x : Float) : Exact :=
  let bits := x.toBits.toNat
  let negative := bits / Nat.pow 2 63 == 1
  let field : Nat := bits / Nat.pow 2 52 % Nat.pow 2 11
  let fraction : Nat := bits % Nat.pow 2 52
  if field = 2047 then if fraction = 0 then .infinite negative else .nan
  else if field = 0 then .finite negative fraction leastExponent
  else .finite negative (Nat.pow 2 52 + fraction) ((field : Int) + leastExponent - 1)

/-- The double of a sign and the bits below it. -/
def ofMagnitude (negative : Bool) (bits : Nat) : Float :=
  Float.ofBits (UInt64.ofNat (if negative then Nat.pow 2 63 + bits else bits))

/-- The bits of infinity, which are also the first ones out of range. -/
def infinityBits : Nat := 2047 * Nat.pow 2 52

def leadingExponent (num den : Nat) : Int :=
  let e : Int := (num.log2 : Int) - den.log2
  if num * Nat.pow 2 (-e).toNat ≥ den * Nat.pow 2 e.toNat then e else e - 1

/-- The bits of the double nearest to `num / den`, those of infinity if
it is out of range. The double has 53 binary digits, or fewer at the
least exponent. -/
def nearestBits (num den : Nat) : Nat :=
  if num = 0 then 0 else
    let q := max leastExponent (leadingExponent num den - 52)
    let n := num * Nat.pow 2 (-q).toNat
    let d := den * Nat.pow 2 q.toNat
    let m := n / d
    let r := n % d
    let m := if 2 * r > d ∨ 2 * r = d ∧ m % 2 = 1 then m + 1 else m
    min infinityBits ((q - leastExponent).toNat * Nat.pow 2 52 + m)

def nearest (negative : Bool) (num den : Nat) : Float :=
  ofMagnitude negative (nearestBits num den)

/-- The quotient `a / b` of integers as a double, unless it is out of
range. A zero is negative when the signs differ. -/
def quotient? (a b : Int) : Option Float :=
  let bits := nearestBits a.natAbs b.natAbs
  if bits = infinityBits then none else some (ofMagnitude (decide (a < 0) != decide (b < 0)) bits)

/-- An integer as a double, unless it is out of range. -/
def ofInt? (n : Int) : Option Float :=
  quotient? n 1

def cutOff (m : Nat) (q : Int) : Nat :=
  m * Nat.pow 2 q.toNat / Nat.pow 2 (-q).toNat

def signed (negative : Bool) (n : Nat) : Int :=
  if negative then -n else n

/-- How an integer compares to a double; a NaN compares to nothing. -/
def compareInt? (n : Int) (x : Float) : Option Ordering :=
  match exact x with
  | .nan => none
  | .infinite negative => some (if negative then .gt else .lt)
  | .finite negative m q =>
    some (compare (n * Nat.pow 2 (-q).toNat) (signed negative (m * Nat.pow 2 q.toNat)))

/-- The remainder of the division of doubles that cuts off, with the
sign of the dividend. -/
def remainder (x y : Float) : Float :=
  match exact x, exact y with
  | .finite negative m q, .finite _ n p =>
    let e := min q p
    let r := m * Nat.pow 2 (q - e).toNat % (n * Nat.pow 2 (p - e).toNat)
    nearest negative (r * Nat.pow 2 e.toNat) (Nat.pow 2 (-e).toNat)
  | .finite .., .infinite _ => x
  | _, _ => 0.0 / 0.0

/-- A zero with the sign of a double. -/
def zeroLike (x : Float) : Float :=
  ofMagnitude (x.toBits.toNat ≥ Nat.pow 2 63) 0

/-- The remainder of floored division, with the sign of the divisor. -/
def floorMod (x y : Float) : Float :=
  let r := remainder x y
  if r == 0.0 then zeroLike y
  else if (y < 0.0) != (r < 0.0) then r + y
  else r

def floorDiv (x y : Float) : Float :=
  let r := remainder x y
  let d := (x - r) / y
  let d := if !(r == 0.0) && (y < 0.0) != (r < 0.0) then d - 1.0 else d
  if d == 0.0 then zeroLike (x / y)
  else
    let f := d.floor
    if d - f > 0.5 then f + 1.0 else f

end Pseudocode.Number
