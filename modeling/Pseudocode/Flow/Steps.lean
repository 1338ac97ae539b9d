import Pseudocode.Flow.Build

/-!
# The steps of a body, one after another

The listing has a step for every statement but comments, between a
first and a last step. The step of a statement that closes a loop gives
the position of the step that opened it.
-/

namespace Pseudocode.Flow

structure Step where
  label : Text
  /-- The position of the step that opened the loop closed here. -/
  backTo : Option Nat := none
deriving DecidableEq, Repr

structure StepList where
  steps : List Step := [⟨"Inicio", none⟩]
  /-- The open loops with the positions of their steps, innermost
  first. -/
  loops : List (Loop × Nat) := []
deriving DecidableEq, Repr

namespace StepList

def push (l : StepList) (label : Text) (backTo : Option Nat := none) : StepList :=
  { l with steps := l.steps ++ [⟨label, backTo⟩] }

def openLoop (l : StepList) (loop : Loop) (label : Text) : StepList :=
  { l.push label with loops := (loop, l.steps.length) :: l.loops }

/-- The step of a statement that closes a loop: the innermost open one
of its sort. -/
def closeLoop (l : StepList) (loop : Loop) (label : Text) : StepList :=
  let found := l.loops.find? fun open_ => open_.1 == loop
  { l.push label (found.map Prod.snd) with
    loops := l.loops.eraseP fun open_ => open_.1 == loop }

def visit (l : StepList) (s : Statement) : StepList :=
  match s.form with
  | .comment _ => l
  | .whileLoop condition => l.openLoop .whileLoop (whileLabel condition)
  | .forLoop counter start stop => l.openLoop .forLoop (forLabel counter start stop)
  | .repeatLoop => l.openLoop .repeatLoop "Repetir"
  | .endWhile => l.closeLoop .whileLoop "Fin mientras"
  | .endFor => l.closeLoop .forLoop "Fin para"
  | .untilTest condition => l.closeLoop .repeatLoop (untilLabel condition)
  | .ifTest condition => l.push (ifLabel condition)
  | .thenBranch => l.push "Entonces"
  | .elseBranch => l.push "Sino"
  | .endIf => l.push "Fin si"
  | _ => l.push (statementLabel s)

end StepList

def stepsOfBody (body : List Statement) : List Step :=
  ((body.foldl StepList.visit {}).push "Fin").steps

end Pseudocode.Flow
