import Pseudocode.Script.Syntax

/-!
# What stands right inside code

A condition on code usually passes to what stands right inside it. Here
these parts are lists, so that such a condition is said once for all kinds
of code.

* `Expr.parts`, `Expr.targets`: the expressions right inside an expression,
  and the targets right inside a target.
* `Action.exprs`, `Action.targets`: the same for an action.
* `checked_iff`: a check that goes through a list is one of its elements.
-/

namespace Pseudocode.Script

def Expr.parts : Expr → List Expr
  | .tuple items | .list items | .set items | .template items => items
  | .dict entries => entries.flatMap fun p => p.1.toList ++ [p.2]
  | .spread e | .await e | .not e | .unary _ e | .located _ e | .store _ e => [e]
  | .item e index => [e, index]
  | .slice low high step => low.toList ++ high.toList ++ step.toList
  | .call callee args named => callee :: args ++ named.map Prod.snd
  | .binary _ left right | .and left right | .or left right => [left, right]
  | .compare first rest => first :: rest.map Prod.snd
  | .choice test yes no => [test, yes, no]
  | .collect _ key value clauses _ =>
    key.toList ++ value :: clauses.flatMap fun c => c.source :: c.conditions
  | .formatted e _ format => e :: format.toList
  | _ => []

def Expr.targets : Expr → List Expr
  | .located _ e | .spread e => [e]
  | .tuple items | .list items => items
  | _ => []

/-- The expressions right inside an action. -/
def Action.exprs : Action → List Expr
  | .evaluate e | .assign _ e => [e]
  | .annotate _ note e => note :: e.toList
  | .augment _ target e => [target, e]
  | .assert test message => test :: message.toList
  | .raise e _ | .leaveScope e => e.toList
  | .delete _ | .leaveLoop | .nextRound | .pass => []

def Action.targets : Action → List Expr
  | .assign targets _ | .delete targets => targets
  | .annotate target _ _ | .augment _ target _ => [target]
  | _ => []

/-- A check of the elements of a list, one by one. -/
theorem checked_iff {α : Type} {f : List α → Bool} {g : α → Bool} {as : List α} (hnil : f [] = true)
    (hcons : ∀ a rest, f (a :: rest) = (g a && f rest)) :
    f as = true ↔ ∀ a ∈ as, g a = true := by
  induction as with
  | nil => simp [hnil]
  | cons a rest ih => simp [hcons, ih]

/-- The line that a statement starts on. -/
def Node.line : Node → Nat
  | .action line _ | .choice line _ _ _ | .whileLoop line _ _ _ | .forLoop line _ _ _ _
  | .guarded line _ _ _ _ | .define line _ => line

end Pseudocode.Script
