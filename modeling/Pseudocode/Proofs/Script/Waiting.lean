import Pseudocode.Proofs.Script.Parts
import Pseudocode.Script.Load

/-!
# Where code waits for values

Code waits for a value where it says `await`. What it waits for may never
come, and a block whose faults are dealt with sees that as one more
fault. Whether it can is a matter of where the code waits: `placed` says
that no such block does, and that no routine waits that is not made for
it.

The check has two parameters. `may` says whether code at this place may
wait. `free` is what holds of places that are not for waiting, so that with
`true` all code is well placed; scripts are checked with `false`.

* `Expr.placed`, `Node.placed`, `RoutineOf.placed`: the check.
* `Expr.placed_part`, `Action.placed_part`: what stands right inside well
  placed code is well placed.
-/

namespace Pseudocode.Script

open Text List

mutual

/-- The expression waits only where it may. -/
def Expr.placed (free may : Bool) : Expr → Bool
  | .await e => may && e.placed free may
  | .tuple items | .list items | .set items | .template items => placedAll free may items
  | .dict entries => placedEntries free may entries
  | .spread e | .not e | .unary _ e | .located _ e | .attribute e _ | .store _ e =>
    e.placed free may
  | .item e index => e.placed free may && index.placed free may
  | .slice low high step =>
    placedOption free may low && placedOption free may high && placedOption free may step
  | .call callee args named =>
    callee.placed free may && placedAll free may args && placedNamed free may named
  | .binary _ left right | .and left right | .or left right =>
    left.placed free may && right.placed free may
  | .compare first rest => first.placed free may && placedChain free may rest
  | .choice test yes no => test.placed free may && yes.placed free may && no.placed free may
  | .lambda _ params _ body => placedParams free may params && body.placed free free
  | .collect _ key value clauses _ =>
    placedOption free may key && value.placed free may && placedClauses free may clauses
  | .formatted e _ format => e.placed free may && placedOption free may format
  | _ => true

def placedAll (free may : Bool) : List Expr → Bool
  | [] => true
  | e :: rest => e.placed free may && placedAll free may rest

def placedOption (free may : Bool) : Option Expr → Bool
  | none => true
  | some e => e.placed free may

def placedEntries (free may : Bool) : List (Option Expr × Expr) → Bool
  | [] => true
  | entry :: rest => placedEntry free may entry && placedEntries free may rest

def placedEntry (free may : Bool) : Option Expr × Expr → Bool
  | (key, e) => placedOption free may key && e.placed free may

def placedNamed (free may : Bool) : List (Option Text × Expr) → Bool
  | [] => true
  | arg :: rest => placedArgument free may arg && placedNamed free may rest

def placedArgument (free may : Bool) : Option Text × Expr → Bool
  | (_, e) => e.placed free may

def placedChain (free may : Bool) : List (CompareOp × Expr) → Bool
  | [] => true
  | link :: rest => placedLink free may link && placedChain free may rest

def placedLink (free may : Bool) : CompareOp × Expr → Bool
  | (_, e) => e.placed free may

def placedParams (free may : Bool) : List (Param Expr) → Bool
  | [] => true
  | p :: rest => placedParam free may p && placedParams free may rest

def placedParam (free may : Bool) : Param Expr → Bool
  | ⟨_, _, initial, note⟩ => placedOption free may initial && placedOption free may note

def placedClauses (free may : Bool) : List (Clause Expr) → Bool
  | [] => true
  | c :: rest => placedClause free may c && placedClauses free may rest

def placedClause (free may : Bool) : Clause Expr → Bool
  | ⟨target, source, conditions⟩ =>
    target.placed free may && source.placed free may && placedAll free may conditions

end

def Action.placed (free may : Bool) : Action → Bool
  | .evaluate e => e.placed free may
  | .assign targets e => placedAll free may targets && e.placed free may
  | .annotate target note e =>
    target.placed free may && note.placed free may && placedOption free may e
  | .augment _ target e => target.placed free may && e.placed free may
  | .delete targets => placedAll free may targets
  | .assert test message => test.placed free may && placedOption free may message
  | .raise e cause => placedOption free may e && placedOption free may cause
  | .leaveLoop | .nextRound | .pass => true
  | .leaveScope e => placedOption free may e

mutual

/-- The statement waits only where it may. -/
def Node.placed (free may : Bool) : Node → Bool
  | .action _ a => a.placed free may
  | .choice _ test body otherwise | .whileLoop _ test body otherwise =>
    test.placed free may && placedBlock free may body && placedBlock free may otherwise
  | .forLoop _ target source body otherwise =>
    target.placed free may && source.placed free may && placedBlock free may body &&
      placedBlock free may otherwise
  | .guarded _ body handlers otherwise final =>
    placedBlock free free body && placedHandlers free free handlers &&
      placedBlock free free otherwise && placedBlock free may final
  | .define _ r => r.placedAt free may

def placedBlock (free may : Bool) : List Node → Bool
  | [] => true
  | node :: rest => node.placed free may && placedBlock free may rest

def placedHandlers (free may : Bool) : List (HandlerOf Node) → Bool
  | [] => true
  | h :: rest => placedHandler free may h && placedHandlers free may rest

def placedHandler (free may : Bool) : HandlerOf Node → Bool
  | ⟨_, kind, _, body⟩ => placedOption free may kind && placedBlock free may body

/-- The same for the definition of a routine: what its parameters need is
computed where it stands, and its statements wait only if it is made for
it. -/
def RoutineOf.placedAt (free may : Bool) : RoutineOf Node → Bool
  | ⟨_, _, isAsync, _, params, note, _, body⟩ =>
    placedParams free may params && placedOption free may note &&
      placedBlock free (free || isAsync) body

end

/-- The statements of the routine wait only where they may. -/
def RoutineOf.placed (free : Bool) (r : Routine) : Bool :=
  placedBlock free (free || r.isAsync) r.body

/-- No block of the script whose faults are dealt with waits for a value,
and no routine does that is not made for it. -/
def Executable.placed (x : Executable) : Bool :=
  placedBlock false false x.body

section Lists

variable {free may : Bool}

theorem RoutineOf.placedAt_iff {r : Routine} :
    r.placedAt free may = true ↔
      placedParams free may r.params = true ∧ placedOption free may r.note = true ∧
        r.placed free = true := by
  obtain ⟨name, path, isAsync, yields, params, note, locals, body⟩ := r
  simp [RoutineOf.placedAt, RoutineOf.placed, and_assoc]

theorem placedAll_iff {es : List Expr} :
    placedAll free may es = true ↔ ∀ e ∈ es, e.placed free may = true :=
  checked_iff rfl fun _ _ => rfl

theorem placedParams_iff {params : List (Param Expr)} :
    placedParams free may params = true ↔
      ∀ p ∈ params, placedOption free may p.initial = true ∧
        placedOption free may p.note = true :=
  (checked_iff rfl fun _ _ => rfl).trans (forall₂_congr fun ⟨_, _, _, _⟩ _ => by simp [placedParam])

theorem placedOption_iff {e : Option Expr} :
    placedOption free may e = true ↔ ∀ e' ∈ e, e'.placed free may = true := by
  cases e <;> simp [placedOption]

theorem placedEntries_iff {es : List (Option Expr × Expr)} :
    placedEntries free may es = true ↔
      ∀ p ∈ es, (∀ e ∈ p.1, e.placed free may = true) ∧ p.2.placed free may = true :=
  (checked_iff rfl fun _ _ => rfl).trans (forall₂_congr fun ⟨_, _⟩ _ => by simp [placedEntry, placedOption_iff])

theorem placedNamed_iff {named : List (Option Text × Expr)} :
    placedNamed free may named = true ↔ ∀ p ∈ named, p.2.placed free may = true :=
  checked_iff rfl fun ⟨_, _⟩ _ => rfl

theorem placedChain_iff {es : List (CompareOp × Expr)} :
    placedChain free may es = true ↔ ∀ p ∈ es, p.2.placed free may = true :=
  checked_iff rfl fun ⟨_, _⟩ _ => rfl

theorem placedClauses_iff {cs : List (Clause Expr)} :
    placedClauses free may cs = true ↔ ∀ c ∈ cs, c.target.placed free may = true ∧
      c.source.placed free may = true ∧ ∀ e ∈ c.conditions, e.placed free may = true :=
  (checked_iff rfl fun _ _ => rfl).trans (forall₂_congr fun ⟨_, _, _⟩ _ => by simp [placedClause, placedAll_iff, and_assoc])

theorem placedBlock_iff {nodes : List Node} :
    placedBlock free may nodes = true ↔ ∀ n ∈ nodes, n.placed free may = true :=
  checked_iff rfl fun _ _ => rfl

theorem placedHandlers_iff {handlers : List (HandlerOf Node)} :
    placedHandlers free may handlers = true ↔ ∀ h ∈ handlers, placedHandler free may h = true :=
  checked_iff rfl fun _ _ => rfl

theorem Expr.placed_part {e p : Expr} (h : e.placed free may = true) (hp : p ∈ e.parts) :
    p.placed free may = true := by
  cases e <;> simp only [Expr.placed, Bool.and_eq_true, placedAll_iff, placedOption_iff,
      placedEntries_iff, placedNamed_iff, placedChain_iff, placedClauses_iff, Option.mem_def] at h <;>
    simp only [Expr.parts] at hp <;> grind

theorem Action.placed_part {a : Action} (h : a.placed free may = true) :
    (∀ e ∈ a.exprs, e.placed free may = true) ∧ ∀ e ∈ a.targets, e.placed free may = true := by
  cases a <;> simp_all [Action.placed, Action.exprs, Action.targets, placedAll_iff,
    placedOption_iff]

end Lists

end Pseudocode.Script
