/-!
# Text as a list of characters

Every reader of this library works from the front of a text, and every
offset counts characters, so a text is kept as its list of characters.
A string literal is accepted wherever a text is expected.
-/

namespace Pseudocode

abbrev Text := List Char

/-- A string literal stands for the list of its characters. -/
instance : Coe String Text := ⟨String.toList⟩

namespace Text

def ofNat (n : Nat) : Text :=
  Nat.toDigits 10 n

/-- The decimal digits of an integer, with a sign when it is negative. -/
def ofInt : Int → Text
  | .ofNat n => ofNat n
  | .negSucc n => '-' :: ofNat (n + 1)

/-- The parts of a text between the characters that satisfy `p`, in
order; there is one part more than there are such characters. -/
def cutAt (p : Char → Bool) : Text → List Text
  | [] => [[]]
  | c :: cs =>
    if p c then [] :: cutAt p cs
    else match cutAt p cs with
      | [] => [[c]]
      | part :: parts => (c :: part) :: parts

def join (sep : Text) (parts : List Text) : Text :=
  sep.intercalate parts

/-- A number lies in one of the inclusive ranges. -/
def inRanges (ranges : List (Nat × Nat)) (n : Nat) : Bool :=
  ranges.any fun r => r.1 ≤ n && n ≤ r.2

/-- The text with fill characters put in front up to a width. -/
def padLeft (fill : Char) (width : Nat) (t : Text) : Text :=
  List.replicate (width - t.length) fill ++ t

/-- What follows `front` in a text that starts with it. -/
def after? : Text → Text → Option Text
  | [], t => some t
  | _ :: _, [] => none
  | a :: front, c :: t => if a = c then after? front t else none

end Text

end Pseudocode
