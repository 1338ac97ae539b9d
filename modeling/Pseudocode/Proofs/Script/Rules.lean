import Pseudocode.Proofs.Script.Parts
import Pseudocode.Proofs.Script.Quiet

/-!
# Rules for the code around the core of a script

What must not happen in a script depends on what is to be shown about its
runs. The rules name what code outside the core has to keep to: names that
it does not mention, names that it may mention but not bind, the reports
that it may make, what it may ask the host for, and statements that are
allowed whatever they mention.

* `Expr.obeys`, `Node.obeys`, `RoutineOf.obeys`: code that keeps to the
  rules. A target of an assignment has a function of its own, as it may bind
  names.
* `Expr.obeys_part`: what stands right inside an expression keeps to them too.
* `RoutineOf.obeys_of_quiet`: quiet code keeps to the rules of its names.
-/

namespace Pseudocode.Script

open List Action

structure Rules where
  /-- The names that are not mentioned. -/
  hidden : List Text
  /-- Further names that no variable has. -/
  unbound : List Text
  /-- The reports that may be made, by their lines and further arguments. -/
  reports : Nat → List Expr → Bool
  /-- What the host may be asked for, besides a report. -/
  asks : Text → Bool := fun _ => true
  /-- Further statements that may stand by themselves, by a test for the
  expressions in them. -/
  also : (Expr → Bool) → Action → Bool := fun _ _ => false

def Rules.mayBind (r : Rules) (name : Text) : Bool :=
  !r.hidden.contains name && !r.unbound.contains name

mutual

def Expr.obeys (r : Rules) : Expr → Bool
  | .name t => !r.hidden.contains t
  | .tuple items | .list items | .set items | .template items => obeysAll r items
  | .dict entries => obeysEntries r entries
  | .spread e | .await e | .not e | .unary _ e | .located _ e => e.obeys r
  | .attribute e name => (e.isHost && name != "trace".toList && r.asks name) || e.obeys r
  | .item e index => e.obeys r && index.obeys r
  | .slice low high step => obeysOption r low && obeysOption r high && obeysOption r step
  | .call callee args named => callee.obeys r && obeysAll r args && obeysNamed r named
  | .binary _ left right | .and left right | .or left right => left.obeys r && right.obeys r
  | .compare first rest => first.obeys r && obeysChain r rest
  | .choice test yes no => test.obeys r && yes.obeys r && no.obeys r
  | .lambda _ params _ body => obeysParams r params && body.obeys r
  | .store name e => r.mayBind name && e.obeys r
  | .collect _ key value clauses _ =>
    obeysOption r key && value.obeys r && obeysClauses r clauses
  | .formatted e _ format => e.obeys r && obeysOption r format
  | _ => true

def Expr.obeysAsTarget (r : Rules) : Expr → Bool
  | .name t => r.mayBind t
  | .located _ e | .spread e => e.obeysAsTarget r
  | .tuple items | .list items => obeysTargets r items
  | .attribute e name => (e.isHost && name != "trace".toList && r.asks name) || e.obeys r
  | .item e index => e.obeys r && index.obeys r
  | _ => true

def obeysTargets (r : Rules) : List Expr → Bool
  | [] => true
  | e :: rest => e.obeysAsTarget r && obeysTargets r rest

def obeysAll (r : Rules) : List Expr → Bool
  | [] => true
  | e :: rest => e.obeys r && obeysAll r rest

def obeysOption (r : Rules) : Option Expr → Bool
  | none => true
  | some e => e.obeys r

def obeysEntries (r : Rules) : List (Option Expr × Expr) → Bool
  | [] => true
  | entry :: rest => obeysEntry r entry && obeysEntries r rest

def obeysEntry (r : Rules) : Option Expr × Expr → Bool
  | (key, e) => obeysOption r key && e.obeys r

def obeysNamed (r : Rules) : List (Option Text × Expr) → Bool
  | [] => true
  | arg :: rest => obeysArgument r arg && obeysNamed r rest

def obeysArgument (r : Rules) : Option Text × Expr → Bool
  | (_, e) => e.obeys r

def obeysChain (r : Rules) : List (CompareOp × Expr) → Bool
  | [] => true
  | link :: rest => obeysLink r link && obeysChain r rest

def obeysLink (r : Rules) : CompareOp × Expr → Bool
  | (_, e) => e.obeys r

def obeysParams (r : Rules) : List (Param Expr) → Bool
  | [] => true
  | p :: rest => obeysParam r p && obeysParams r rest

def obeysParam (r : Rules) : Param Expr → Bool
  | ⟨_, name, initial, note⟩ => r.mayBind name && obeysOption r initial && obeysOption r note

def obeysClauses (r : Rules) : List (Clause Expr) → Bool
  | [] => true
  | c :: rest => obeysClause r c && obeysClauses r rest

def obeysClause (r : Rules) : Clause Expr → Bool
  | ⟨target, source, conditions⟩ =>
    target.obeysAsTarget r && source.obeys r && obeysAll r conditions

end

def Action.obeys (r : Rules) : Action → Bool
  | .evaluate e =>
    match e.report? with
    | some (line, args) => r.reports line args
    | none => e.obeys r
  | .assign targets e => obeysTargets r targets && e.obeys r
  | .annotate target note e => target.obeysAsTarget r && note.obeys r && obeysOption r e
  | .augment _ target e => target.obeysAsTarget r && target.obeys r && e.obeys r
  | .delete targets => obeysTargets r targets
  | .assert test message => test.obeys r && obeysOption r message
  | .raise e cause => obeysOption r e && obeysOption r cause
  | .leaveLoop | .nextRound | .pass => true
  | .leaveScope e => obeysOption r e

mutual

def Node.obeys (r : Rules) : Node → Bool
  | .action _ a => r.also (Expr.obeys r) a || a.obeys r
  | .choice _ test body otherwise | .whileLoop _ test body otherwise =>
    test.obeys r && obeysBlock r body && obeysBlock r otherwise
  | .forLoop _ target source body otherwise =>
    target.obeysAsTarget r && source.obeys r && obeysBlock r body && obeysBlock r otherwise
  | .guarded _ body handlers otherwise final =>
    obeysBlock r body && obeysHandlers r handlers && obeysBlock r otherwise &&
      obeysBlock r final
  | .define _ _ => false

def obeysBlock (r : Rules) : List Node → Bool
  | [] => true
  | node :: rest => node.obeys r && obeysBlock r rest

def obeysHandlers (r : Rules) : List (HandlerOf Node) → Bool
  | [] => true
  | h :: rest => obeysHandler r h && obeysHandlers r rest

def obeysHandler (r : Rules) : HandlerOf Node → Bool
  | ⟨_, kind, name, body⟩ => obeysOption r kind && name.all r.mayBind && obeysBlock r body

end

def RoutineOf.obeys (r : Rules) (code : Routine) : Bool :=
  obeysParams r code.params && obeysBlock r code.body

section Lists

variable {r : Rules}

theorem Rules.mayBind_iff {name : Text} :
    r.mayBind name = true ↔ name ∉ r.hidden ∧ name ∉ r.unbound := by
  simp [Rules.mayBind]

theorem obeysAll_iff {es : List Expr} : obeysAll r es = true ↔ ∀ e ∈ es, e.obeys r = true :=
  checked_iff rfl fun _ _ => rfl

theorem obeysNamed_iff {named : List (Option Text × Expr)} :
    obeysNamed r named = true ↔ ∀ p ∈ named, p.2.obeys r = true :=
  checked_iff rfl fun ⟨_, _⟩ _ => rfl

theorem obeysTargets_iff {es : List Expr} :
    obeysTargets r es = true ↔ ∀ e ∈ es, e.obeysAsTarget r = true :=
  checked_iff rfl fun _ _ => rfl

theorem obeysParams_iff {params : List (Param Expr)} :
    obeysParams r params = true ↔
      ∀ p ∈ params, r.mayBind p.name = true ∧ obeysOption r p.initial = true ∧
        obeysOption r p.note = true :=
  (checked_iff rfl fun _ _ => rfl).trans (forall₂_congr fun ⟨_, _, _, _⟩ _ => by simp [obeysParam, and_assoc])

theorem obeysOption_iff {e : Option Expr} :
    obeysOption r e = true ↔ ∀ e' ∈ e, e'.obeys r = true := by
  cases e <;> simp [obeysOption]

theorem obeysEntries_iff {es : List (Option Expr × Expr)} :
    obeysEntries r es = true ↔
      ∀ p ∈ es, (∀ e ∈ p.1, e.obeys r = true) ∧ p.2.obeys r = true :=
  (checked_iff rfl fun _ _ => rfl).trans (forall₂_congr fun ⟨_, _⟩ _ => by simp [obeysEntry, obeysOption_iff])

theorem obeysChain_iff {es : List (CompareOp × Expr)} :
    obeysChain r es = true ↔ ∀ p ∈ es, p.2.obeys r = true :=
  checked_iff rfl fun ⟨_, _⟩ _ => rfl

theorem obeysClauses_iff {cs : List (Clause Expr)} :
    obeysClauses r cs = true ↔ ∀ c ∈ cs, c.target.obeysAsTarget r = true ∧
      c.source.obeys r = true ∧ ∀ e ∈ c.conditions, e.obeys r = true :=
  (checked_iff rfl fun _ _ => rfl).trans (forall₂_congr fun ⟨_, _, _⟩ _ => by simp [obeysClause, obeysAll_iff, and_assoc])

theorem obeysBlock_iff {nodes : List Node} :
    obeysBlock r nodes = true ↔ ∀ n ∈ nodes, n.obeys r = true :=
  checked_iff rfl fun _ _ => rfl

theorem obeysHandlers_iff {handlers : List (HandlerOf Node)} :
    obeysHandlers r handlers = true ↔ ∀ h ∈ handlers, obeysHandler r h = true :=
  checked_iff rfl fun _ _ => rfl

theorem Expr.obeys_part {e p : Expr} (h : e.obeys r = true) (hp : p ∈ e.parts) :
    p.obeys r = true := by
  cases e <;> simp only [Expr.obeys, Bool.and_eq_true, obeysAll_iff, obeysOption_iff,
      obeysEntries_iff, obeysNamed_iff, obeysChain_iff, obeysClauses_iff, Option.mem_def] at h <;>
    simp only [Expr.parts] at hp <;> grind

theorem Expr.obeysAsTarget_part {e p : Expr} (h : e.obeysAsTarget r = true)
    (hp : p ∈ e.targets) : p.obeysAsTarget r = true := by
  cases e with
  | tuple items | list items =>
    simp only [Expr.obeysAsTarget, obeysTargets_iff] at h
    exact h p hp
  | located _ e | spread e => exact mem_singleton.mp hp ▸ h
  | _ => cases hp

theorem Action.obeys_part {a : Action} (h : a.obeys r = true) :
    (∃ e line args, a = .evaluate e ∧ e.report? = some (line, args) ∧
      r.reports line args = true) ∨
        (∀ e ∈ a.exprs, e.obeys r = true) ∧ ∀ e ∈ a.targets, e.obeysAsTarget r = true := by
  cases a with
  | evaluate e =>
    rcases hreport : e.report? with _ | ⟨line, args⟩
    · simp only [obeys, hreport] at h
      exact .inr ⟨by simpa [exprs] using h, nofun⟩
    · simp only [obeys, hreport] at h
      exact .inl ⟨e, line, args, rfl, hreport, h⟩
  | _ =>
    right
    simp only [obeys, Bool.and_eq_true, obeysTargets_iff, obeysOption_iff] at h
    simp_all [exprs, targets]

end Lists

/-! ### Quiet code -/

/-- The rules of quiet code: it makes no report of some lines and mentions
none of some names. -/
def Rules.quiet (hidden : List Text) (lines : List Nat) : Rules where
  hidden := hidden
  unbound := []
  reports line args := !lines.contains line && avoidsAll hidden args

section Quiet

variable {hidden : List Text} {lines : List Nat}

theorem Rules.mayBind_quiet {name : Text} :
    (Rules.quiet hidden lines).mayBind name = true ↔ (!hidden.contains name) = true := by
  simp [Rules.quiet, Rules.mayBind]

theorem and_mono {a b a' b' : Bool} (ha : a = true → a' = true) (hb : b = true → b' = true)
    (h : (a && b) = true) : (a' && b') = true := by
  rw [Bool.and_eq_true] at h ⊢
  exact ⟨ha h.1, hb h.2⟩

mutual

theorem Expr.obeys_of_avoids : (e : Expr) → e.avoids hidden = true →
    e.obeys (.quiet hidden lines) = true
  | .name _, h => h
  | .tuple items, h | .list items, h | .set items, h | .template items, h =>
    obeysAll_of_avoids items h
  | .dict entries, h => obeysEntries_of_avoids entries h
  | .spread e, h | .await e, h | .not e, h | .unary _ e, h | .located _ e, h => e.obeys_of_avoids h
  | .attribute e name, h => by
    simp only [Expr.avoids, Bool.or_eq_true] at h
    simp only [Expr.obeys, Rules.quiet, Bool.and_true, Bool.or_eq_true]
    exact h.imp_right e.obeys_of_avoids
  | .item e index, h => and_mono e.obeys_of_avoids index.obeys_of_avoids h
  | .slice low high step, h =>
    and_mono (and_mono (obeysOption_of_avoids low) (obeysOption_of_avoids high))
      (obeysOption_of_avoids step) h
  | .call callee args named, h =>
    and_mono (and_mono callee.obeys_of_avoids (obeysAll_of_avoids args))
      (obeysNamed_of_avoids named) h
  | .binary _ left right, h | .and left right, h | .or left right, h =>
    and_mono left.obeys_of_avoids right.obeys_of_avoids h
  | .compare first rest, h => and_mono first.obeys_of_avoids (obeysChain_of_avoids rest) h
  | .choice test yes no, h =>
    and_mono (and_mono test.obeys_of_avoids yes.obeys_of_avoids) no.obeys_of_avoids h
  | .lambda _ params _ body, h => and_mono (obeysParams_of_avoids params) body.obeys_of_avoids h
  | .store _ e, h => and_mono Rules.mayBind_quiet.mpr e.obeys_of_avoids h
  | .collect _ key value clauses _, h =>
    and_mono (and_mono (obeysOption_of_avoids key) value.obeys_of_avoids)
      (obeysClauses_of_avoids clauses) h
  | .formatted e _ format, h => and_mono e.obeys_of_avoids (obeysOption_of_avoids format) h
  | .nothing, _ | .bool _, _ | .int _, _ | .float _, _ | .str _, _ | .bytes _, _
  | .imaginary _, _ | .ellipsis, _ | .yield _, _ => rfl

theorem Expr.obeysAsTarget_of_avoids : (e : Expr) → e.avoids hidden = true →
    e.obeysAsTarget (.quiet hidden lines) = true
  | .name _, h => Rules.mayBind_quiet.mpr h
  | .tuple items, h | .list items, h => obeysTargets_of_avoids items h
  | .spread e, h | .located _ e, h => e.obeysAsTarget_of_avoids h
  | .attribute e name, h => by
    simp only [Expr.avoids, Bool.or_eq_true] at h
    simp only [Expr.obeysAsTarget, Rules.quiet, Bool.and_true, Bool.or_eq_true]
    exact h.imp_right e.obeys_of_avoids
  | .item e index, h => and_mono e.obeys_of_avoids index.obeys_of_avoids h
  | .set _, _ | .template _, _ | .dict _, _ | .await _, _ | .not _, _ | .unary _ _, _
  | .slice .., _ | .call .., _ | .binary .., _ | .and .., _ | .or .., _ | .compare .., _
  | .choice .., _ | .lambda .., _ | .store .., _ | .collect .., _ | .formatted .., _
  | .nothing, _ | .bool _, _ | .int _, _ | .float _, _ | .str _, _ | .bytes _, _
  | .imaginary _, _ | .ellipsis, _ | .yield _, _ => rfl

theorem obeysTargets_of_avoids : (es : List Expr) → avoidsAll hidden es = true →
    obeysTargets (.quiet hidden lines) es = true
  | [], _ => rfl
  | e :: rest, h => and_mono e.obeysAsTarget_of_avoids (obeysTargets_of_avoids rest) h

theorem obeysAll_of_avoids : (es : List Expr) → avoidsAll hidden es = true →
    obeysAll (.quiet hidden lines) es = true
  | [], _ => rfl
  | e :: rest, h => and_mono e.obeys_of_avoids (obeysAll_of_avoids rest) h

theorem obeysOption_of_avoids : (e : Option Expr) → avoidsOption hidden e = true →
    obeysOption (.quiet hidden lines) e = true
  | none, _ => rfl
  | some e, h => e.obeys_of_avoids h

theorem obeysEntries_of_avoids : (es : List (Option Expr × Expr)) →
    avoidsEntries hidden es = true → obeysEntries (.quiet hidden lines) es = true
  | [], _ => rfl
  | (key, e) :: rest, h =>
    and_mono (and_mono (obeysOption_of_avoids key) e.obeys_of_avoids) (obeysEntries_of_avoids rest) h

theorem obeysNamed_of_avoids : (es : List (Option Text × Expr)) →
    avoidsNamed hidden es = true → obeysNamed (.quiet hidden lines) es = true
  | [], _ => rfl
  | (_, e) :: rest, h => and_mono e.obeys_of_avoids (obeysNamed_of_avoids rest) h

theorem obeysChain_of_avoids : (es : List (CompareOp × Expr)) →
    avoidsChain hidden es = true → obeysChain (.quiet hidden lines) es = true
  | [], _ => rfl
  | (_, e) :: rest, h => and_mono e.obeys_of_avoids (obeysChain_of_avoids rest) h

theorem obeysParams_of_avoids : (params : List (Param Expr)) →
    avoidsParams hidden params = true → obeysParams (.quiet hidden lines) params = true
  | [], _ => rfl
  | ⟨_, _, initial, note⟩ :: rest, h =>
    and_mono (and_mono (and_mono Rules.mayBind_quiet.mpr (obeysOption_of_avoids initial))
      (obeysOption_of_avoids note)) (obeysParams_of_avoids rest) h

theorem obeysClauses_of_avoids : (clauses : List (Clause Expr)) →
    avoidsClauses hidden clauses = true → obeysClauses (.quiet hidden lines) clauses = true
  | [], _ => rfl
  | ⟨target, source, conditions⟩ :: rest, h =>
    and_mono (and_mono (and_mono target.obeysAsTarget_of_avoids source.obeys_of_avoids)
      (obeysAll_of_avoids conditions)) (obeysClauses_of_avoids rest) h

end

theorem Action.obeys_of_quiet {a : Action} (h : a.quiet hidden lines = true) :
    a.obeys (.quiet hidden lines) = true := by
  cases a with
  | evaluate e =>
    rcases hreport : e.report? with _ | ⟨line, args⟩
    · simp only [quiet, hreport] at h
      simpa only [obeys, hreport] using e.obeys_of_avoids h
    · simp only [quiet, hreport] at h
      simp only [obeys, hreport]
      exact h
  | assign targets e => exact and_mono (obeysTargets_of_avoids targets) e.obeys_of_avoids h
  | annotate target note e =>
    exact and_mono (and_mono target.obeysAsTarget_of_avoids note.obeys_of_avoids)
      (obeysOption_of_avoids e) h
  | augment op target e =>
    refine and_mono (fun htarget => ?_) e.obeys_of_avoids h
    exact Bool.and_eq_true_iff.mpr
      ⟨target.obeysAsTarget_of_avoids htarget, target.obeys_of_avoids htarget⟩
  | delete targets => exact obeysTargets_of_avoids targets h
  | assert test message => exact and_mono test.obeys_of_avoids (obeysOption_of_avoids message) h
  | raise e cause => exact and_mono (obeysOption_of_avoids e) (obeysOption_of_avoids cause) h
  | leaveScope e => exact obeysOption_of_avoids e h
  | leaveLoop | nextRound | pass => rfl

mutual

theorem Node.obeys_of_quiet : (node : Node) → node.quiet hidden lines = true →
    node.obeys (.quiet hidden lines) = true
  | .action _ _, h => by
    unfold Node.obeys
    exact Bool.or_eq_true_iff.mpr (.inr (obeys_of_quiet h))
  | .choice _ test body otherwise, h | .whileLoop _ test body otherwise, h =>
    and_mono (and_mono test.obeys_of_avoids (obeysBlock_of_quiet body))
      (obeysBlock_of_quiet otherwise) h
  | .forLoop _ target source body otherwise, h =>
    and_mono (and_mono (and_mono target.obeysAsTarget_of_avoids source.obeys_of_avoids)
      (obeysBlock_of_quiet body)) (obeysBlock_of_quiet otherwise) h
  | .guarded _ body handlers otherwise final, h =>
    and_mono (and_mono (and_mono (obeysBlock_of_quiet body) (obeysHandlers_of_quiet handlers))
      (obeysBlock_of_quiet otherwise)) (obeysBlock_of_quiet final) h

theorem obeysBlock_of_quiet : (nodes : List Node) → quietAll hidden lines nodes = true →
    obeysBlock (.quiet hidden lines) nodes = true
  | [], _ => rfl
  | node :: rest, h => and_mono node.obeys_of_quiet (obeysBlock_of_quiet rest) h

theorem obeysHandlers_of_quiet : (handlers : List (HandlerOf Node)) →
    quietHandlers hidden lines handlers = true →
      obeysHandlers (.quiet hidden lines) handlers = true
  | [], _ => rfl
  | ⟨_, kind, name, body⟩ :: rest, h => by
    refine and_mono (and_mono (and_mono (obeysOption_of_avoids kind) fun hname => ?_)
      (obeysBlock_of_quiet body)) (obeysHandlers_of_quiet rest) h
    cases name with
    | none => rfl
    | some => exact Rules.mayBind_quiet.mpr hname

end

theorem RoutineOf.obeys_of_quiet {code : Routine} (h : code.quiet hidden lines = true) :
    code.obeys (.quiet hidden lines) = true :=
  and_mono (obeysParams_of_avoids code.params) (obeysBlock_of_quiet code.body) h

end Quiet

end Pseudocode.Script
