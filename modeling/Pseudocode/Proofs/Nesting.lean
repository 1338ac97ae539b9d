import Pseudocode.Program.Basic

/-!
# Well-nested bodies

A body is a flat list of statements. Every user of a body finds the
blocks again in one pass, and each does so in its own way: the chart by
a stack of open constructs, the listings by their level of indentation.
What they have in common can only be stated against the blocks
themselves, so this module gives the grammar of nested bodies as a type.

* `Body`: a sequence of statements with its loops and choices nested.
  The constructors carry the kinds of the statements that delimit a
  block, so a value of the type is a derivation in the grammar.
* `Body.statements`: the flat list of a body.
* `WellNested`: a list that is the flat list of a body.

A loop that tests first is one constructor for both words, `counted`
telling `para` from `mientras`, as in the chart. The mark `entonces` may
be left out; it stands directly after the head of its `si`.
-/

namespace Pseudocode

abbrev StatementOf (k : Kind) : Type :=
  { s : Statement // s.kind = k }

/-- The kinds of the statements that neither open nor close nor divide a
block and are no comments. -/
def Kind.isPlain : Kind → Bool
  | .declare | .legacyArray | .read | .write | .returnScope | .call | .unrecognized => true
  | _ => false

abbrev PlainStatement : Type :=
  { s : Statement // s.kind.isPlain = true }

def Kind.pretestHead (counted : Bool) : Kind :=
  if counted then .forLoop else .whileLoop

/-- The kind of the statement that closes a loop that tests first. -/
def Kind.pretestTail (counted : Bool) : Kind :=
  if counted then .endFor else .endWhile

inductive Body where
  | nil
  | comment (s : StatementOf .comment) (rest : Body)
  | plain (s : PlainStatement) (rest : Body)
  /-- `mientras` or `para` -/
  | pretest (counted : Bool) (head : StatementOf (Kind.pretestHead counted)) (body : Body)
      (tail : StatementOf (Kind.pretestTail counted)) (rest : Body)
  /-- `repetir … hasta(…)` -/
  | posttest (head : StatementOf .repeatLoop) (body : Body) (test : StatementOf .untilTest)
      (rest : Body)
  /-- `si … finsi` without a second branch. -/
  | choice (head : StatementOf .ifTest) (mark : Option (StatementOf .thenBranch)) (yes : Body)
      (tail : StatementOf .endIf) (rest : Body)
  /-- `si … sino … finsi` -/
  | choiceElse (head : StatementOf .ifTest) (mark : Option (StatementOf .thenBranch))
      (yes : Body) (middle : StatementOf .elseBranch) (no : Body) (tail : StatementOf .endIf)
      (rest : Body)

namespace Body

def markStatements (mark : Option (StatementOf .thenBranch)) : List Statement :=
  (mark.map Subtype.val).toList

def statements : Body → List Statement
  | .nil => []
  | .comment s rest => s.1 :: rest.statements
  | .plain s rest => s.1 :: rest.statements
  | .pretest _ head body tail rest => head.1 :: (body.statements ++ tail.1 :: rest.statements)
  | .posttest head body test rest => head.1 :: (body.statements ++ test.1 :: rest.statements)
  | .choice head mark yes tail rest =>
    head.1 :: (markStatements mark ++ (yes.statements ++ tail.1 :: rest.statements))
  | .choiceElse head mark yes middle no tail rest =>
    head.1 :: (markStatements mark ++
      (yes.statements ++ middle.1 :: (no.statements ++ tail.1 :: rest.statements)))

def length (b : Body) : Nat :=
  b.statements.length

end Body

def WellNested (body : List Statement) : Prop :=
  ∃ b : Body, b.statements = body

end Pseudocode
