import Pseudocode.Text.Basic
import Pseudocode.Text.Decomposition

/-!
# The normal form of a name

Two spellings of a name are the same name if they have the same normal
form. It replaces every character by what it stands for, orders the
marks that follow a character by their classes, and then puts pairs of
characters together where there is one character for them. A Korean
syllable is made of a leading consonant, a vowel and perhaps a trailing
consonant, by arithmetic and not by a table.
-/

namespace Pseudocode.Text

/-- The first leading consonant of Korean syllables. -/
def firstLead : Nat := 0x1100

def firstVowel : Nat := 0x1161

/-- One before the first trailing consonant of Korean syllables. -/
def beforeTrail : Nat := 0x11A7

def firstSyllable : Nat := 0xAC00

/-- The number of leading consonants. -/
def leadCount : Nat := 19

def vowelCount : Nat := 21

/-- The number of trailing consonants, none included. -/
def trailCount : Nat := 28

def syllableParts? (n : Nat) : Option (List Nat) :=
  if firstSyllable ≤ n && n < firstSyllable + leadCount * vowelCount * trailCount then
    let i := n - firstSyllable
    let start := [firstLead + i / (vowelCount * trailCount),
      firstVowel + i % (vowelCount * trailCount) / trailCount]
    some (if i % trailCount = 0 then start else start ++ [beforeTrail + i % trailCount])
  else none

/-- The Korean syllable that two parts make. -/
def syllable? (a b : Nat) : Option Nat :=
  let lead := a - firstLead
  let vowel := b - firstVowel
  let open_ := a - firstSyllable
  let trail := b - beforeTrail
  if firstLead ≤ a && lead < leadCount && firstVowel ≤ b && vowel < vowelCount then
    some (firstSyllable + (lead * vowelCount + vowel) * trailCount)
  else if firstSyllable ≤ a && open_ < leadCount * vowelCount * trailCount &&
      open_ % trailCount == 0 && beforeTrail < b && trail < trailCount then
    some (a + trail)
  else none

/-- The one code point that another stands for. -/
def replaced? (n : Nat) : Option Nat :=
  (replacedRanges.find? fun r => r.1 ≤ n && n ≤ r.2.1).map (fun r => r.2.2 + (n - r.1)) <|>
    replacedIdeographs.findSome? fun row => if row.1 ≤ n then row.2[n - row.1]? else none

/-- The code points that one stands for. The first argument bounds the
number of pairs inside pairs. -/
def partsOf : Nat → Nat → List Nat
  | 0, n => [n]
  | depth + 1, n =>
    match syllableParts? n, replaced? n, spelledOut.lookup n, compositions.lookup n with
    | some parts, _, _, _ => parts
    | _, some m, _, _ => [m]
    | _, _, some parts, _ => parts
    | _, _, _, some (a, b) => partsOf depth a ++ partsOf depth b
    | none, none, none, none => [n]

/-- The class of a mark, zero for a character that is none. -/
def markClass (n : Nat) : Nat :=
  ((markClasses.find? fun r => r.1 ≤ n && n ≤ r.2.1).map fun r => r.2.2).getD 0

/-- Puts a mark behind the marks of no greater class, in a list that has
the last code point first. -/
def insertMark (n : Nat) : List Nat → List Nat
  | [] => [n]
  | m :: rest =>
    if markClass n < markClass m then m :: insertMark n rest else n :: m :: rest

/-- The code points with the marks after each character in the order of
their classes. -/
def orderMarks (codes : List Nat) : List Nat :=
  (codes.foldl (fun done n => if markClass n = 0 then n :: done else insertMark n done) []).reverse

/-- The code point for a pair of others. -/
def composite? (a b : Nat) : Option Nat :=
  syllable? a b <|> (compositions.find? fun c => c.2 == (a, b)).map Prod.fst

/-- Puts code points together with the character `start` where that is
possible; `kept` are the marks on it, the last one first, that stay. -/
def composeFrom (start : Nat) (kept : List Nat) : List Nat → List Nat
  | [] => start :: kept.reverse
  | n :: rest =>
    let reaches := match kept with
      | [] => true
      | last :: _ => markClass last < markClass n
    match if reaches then composite? start n else none with
    | some m => composeFrom m kept rest
    | none =>
      if markClass n = 0 then start :: kept.reverse ++ composeFrom n [] rest
      else composeFrom start (n :: kept) rest

/-- Puts code points together where that is possible. -/
def compose : List Nat → List Nat
  | [] => []
  | n :: rest => composeFrom n [] rest

/-- The normal form of a name; a name of ASCII characters is its own. -/
def normalName (t : Text) : Text :=
  if t.all fun c => c.toNat < 128 then t
  else (compose (orderMarks (t.flatMap fun c => partsOf 8 c.toNat))).map Char.ofNat

end Pseudocode.Text
