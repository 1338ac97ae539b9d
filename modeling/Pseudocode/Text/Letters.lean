import Pseudocode.Text.Basic

/-!
# Keywords in any case

Keywords are written in lower case in the grammar and match in any
case. Two letters outside ASCII fold onto ASCII ones: the dotted capital
I (U+0130) onto `i` and the long s (U+017F) onto `s`. Lower-casing is
stricter: it leaves the long s as it is and turns the dotted capital I
into `i` followed by a combining dot, so a keyword spelled with one of
them is matched but is not equal to its lower-case form.
-/

namespace Pseudocode.Text

/-- A written character matches a lower-case letter of a keyword. -/
def foldsTo (written letter : Char) : Bool :=
  written.toLower == letter ||
    (letter == 'i' && written == 'İ') || (letter == 's' && written == 'ſ')

/-- What follows a keyword at the front of a text. -/
def afterWord? : Text → Text → Option Text
  | [], t => some t
  | _ :: _, [] => none
  | w :: word, c :: t => if foldsTo c w then afterWord? word t else none

/-- The whole text is the keyword, in any case. -/
def isWord (word t : Text) : Bool :=
  afterWord? word t == some []

/-- The lower-case form of a keyword as it was written. -/
def lowerWord (t : Text) : Text :=
  t.flatMap fun c => if c == 'İ' then ['i', Char.ofNat 0x307] else [c.toLower]

end Pseudocode.Text
