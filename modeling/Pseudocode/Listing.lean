import Pseudocode.Text.Blank

/-!
# Generated code, line by line

A listing is built from the top. It keeps a level of indentation and
the place that the lines being added come from; each line keeps both.
Its text indents every line by its level, and its source map gives, for
every line that is not blank, where it came from. Lines are counted as
they are added, from one. The code of a line is of any type that has a
text.
-/

namespace Pseudocode

structure ListingLine (α β : Type) where
  code : α
  level : Int
  origin : Option β
deriving DecidableEq, Repr

structure Listing (α β : Type) where
  level : Int := 0
  /-- Where the lines being added come from. -/
  origin : Option β := none
  /-- The lines so far; `none` is a line added as a blank one. -/
  lines : Array (Option (ListingLine α β)) := #[]
deriving DecidableEq, Repr

namespace Listing

variable {α β : Type}

def emit (l : Listing α β) (code : α) : Listing α β :=
  { l with lines := l.lines.push (some ⟨code, l.level, l.origin⟩) }

def emitAll (l : Listing α β) (codes : List α) : Listing α β :=
  codes.foldl emit l

def blank (l : Listing α β) (count : Nat := 1) : Listing α β :=
  { l with lines := l.lines ++ Array.replicate count none }

def indent (l : Listing α β) : Listing α β :=
  { l with level := l.level + 1 }

/-- One level back, but not below a minimum. -/
def dedent (l : Listing α β) (minimum : Int := 0) : Listing α β :=
  { l with level := max minimum (l.level - 1) }

/-- The lines added from here on come from `origin`. -/
def setOrigin (l : Listing α β) (origin : Option β) : Listing α β :=
  { l with origin := origin }

/-- A header, and one level deeper what `inside` adds. -/
def block (l : Listing α β) (header : α) (inside : Listing α β → Listing α β) : Listing α β :=
  (inside (l.emit header).indent).dedent

def margin (step : Text) (level : Int) : Text :=
  (List.replicate level.toNat step).flatten

/-- The text of one line, without its line end: blank code gets no
indentation. -/
def lineText (step : Text) (text : α → Text) : Option (ListingLine α β) → Text
  | none => []
  | some line =>
    let code := text line.code
    if Text.isBlankText code then [] else margin step line.level ++ code

def render (step : Text) (text : α → Text) (l : Listing α β) : Text :=
  l.lines.toList.flatMap fun line => lineText step text line ++ ['\n']

/-- Where a line came from; blank code has no origin. -/
def originOf (text : α → Text) : Option (ListingLine α β) → Option β
  | none => none
  | some line => if Text.isBlankText (text line.code) then none else line.origin

def sourceMap (text : α → Text) (l : Listing α β) : List (Nat × β) :=
  (l.lines.toList.mapIdx fun i line => (i + 1, originOf text line)).filterMap
    fun (n, origin) => origin.map fun o => (n, o)

def size (l : Listing α β) : Nat :=
  l.lines.size

end Listing

/-- The two ways to write a comment. -/
inductive CommentStyle where
  /-- `# …` -/
  | hash
  /-- `/* … */` -/
  | slashStar
deriving DecidableEq, Repr

namespace CommentStyle

def pullApart : Text → Text
  | '*' :: '/' :: t => '*' :: ' ' :: '/' :: pullApart t
  | c :: t => c :: pullApart t
  | [] => []

def comment : CommentStyle → Text → Text
  | .hash, t => "# " ++ t
  | .slashStar, t => "/* " ++ pullApart t ++ " */"

def comments (style : CommentStyle) (t : Text) : List Text :=
  (Text.cutAt (· == '\n') t).map style.comment

end CommentStyle

/-- The text of a comment statement without its marker. -/
def commentBody (t : Text) : Text :=
  Text.trim (t.dropWhile fun c => c == '/' || c == '#')

end Pseudocode
