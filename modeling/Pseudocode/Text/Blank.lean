import Pseudocode.Text.Basic

/-!
# The two classes of blank characters

Trimming a line, cutting an argument list and the changes made to
expressions take a wide class of blanks, which has the four information
separators U+001C to U+001F in it. The statement grammar and the reading
of integers take the same class without those four: it is called a gap
here.
-/

namespace Pseudocode.Text

/-- Blanks the statement grammar accepts between words. -/
def isGap (c : Char) : Bool :=
  let n := c.toNat
  (9 ≤ n && n ≤ 13) || n == 0x20 || n == 0x85 || n == 0xA0 || n == 0x1680 ||
    (0x2000 ≤ n && n ≤ 0x200A) || n == 0x2028 || n == 0x2029 || n == 0x202F ||
    n == 0x205F || n == 0x3000

/-- Blanks that trimming removes: the gaps and the information
separators. -/
def isBlank (c : Char) : Bool :=
  isGap c || (0x1C ≤ c.toNat && c.toNat ≤ 0x1F)

def isBlankText (t : Text) : Bool :=
  t.all isBlank

def trimStart (p : Char → Bool) (t : Text) : Text :=
  t.dropWhile p

def trimEnd (p : Char → Bool) (t : Text) : Text :=
  (t.reverse.dropWhile p).reverse

def trim (t : Text) : Text :=
  trimEnd isBlank (trimStart isBlank t)

def trimGap (t : Text) : Text :=
  trimEnd isGap (trimStart isGap t)

theorem isBlank_of_isGap {c : Char} (h : isGap c = true) : isBlank c = true := by
  simp [isBlank, h]

end Pseudocode.Text
