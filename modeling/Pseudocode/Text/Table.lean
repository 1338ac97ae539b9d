import Pseudocode.Text.Basic

/-!
# Tables of code points

A table of code points is written as a text of numbers with letters as
digits. The base is 26, and the last digit of a number is a small letter, so
nothing stands between numbers. The code points of a table come in
increasing order, and each is told by its distance from the one before. What
a code point has is told by the difference from what the one before has.
-/

namespace Pseudocode.Text

/-- The numbers of a table; the first argument is the number that has
begun. -/
def tableNumbers : Nat → Text → List Nat
  | _, [] => []
  | n, c :: rest =>
    if c.isUpper then tableNumbers (26 * n + (c.toNat - 65)) rest
    else if c.isLower then (26 * n + (c.toNat - 97)) :: tableNumbers 0 rest
    else tableNumbers n rest

/-- Inclusive ranges, each told by its distance from the one before and its
own length. -/
def rangesAfter (last : Nat) : List Nat → List (Nat × Nat)
  | gap :: length :: rest =>
    (last + gap, last + gap + length) :: rangesAfter (last + gap + length) rest
  | _ => []

/-- The number at a difference from another one: an even number stands for
its half, an odd one for the way back. -/
def moved (last difference : Nat) : Nat :=
  if difference % 2 = 0 then last + difference / 2 else last - (difference + 1) / 2

def movedAll (last : Nat) : List Nat → List Nat
  | [] => []
  | n :: rest => moved last n :: movedAll (moved last n) rest

/-- Inclusive ranges that have a number each. -/
def rangesToAfter (last value : Nat) : List Nat → List (Nat × Nat × Nat)
  | gap :: length :: n :: rest =>
    (last + gap, last + gap + length, moved value n) ::
      rangesToAfter (last + gap + length) (moved value n) rest
  | _ => []

/-- Code points that have a pair of numbers each. -/
def pairsAfter (last first second : Nat) : List Nat → List (Nat × Nat × Nat)
  | gap :: a :: b :: rest =>
    (last + gap, moved first a, moved second b) ::
      pairsAfter (last + gap) (moved first a) (moved second b) rest
  | _ => []

/-- Code points that have a row of numbers each. A row begins at a
difference from the begin of the one before. -/
def rowsAfter (last first : Nat) : List (List Nat) → List (Nat × List Nat)
  | (gap :: row) :: rest =>
    let row := movedAll first row
    (last + gap, row) :: rowsAfter (last + gap) (row.headD first) rest
  | _ => []

def tableRanges (t : Text) : List (Nat × Nat) :=
  rangesAfter 0 (tableNumbers 0 t)

def tableRangesTo (t : Text) : List (Nat × Nat × Nat) :=
  rangesToAfter 0 0 (tableNumbers 0 t)

def tablePairs (t : Text) : List (Nat × Nat × Nat) :=
  pairsAfter 0 0 0 (tableNumbers 0 t)

/-- A table of code points with a row of numbers each. A semicolon stands
between rows. -/
def tableRows (t : Text) : List (Nat × List Nat) :=
  rowsAfter 0 0 ((cutAt (· == ';') t).map (tableNumbers 0))

end Pseudocode.Text
