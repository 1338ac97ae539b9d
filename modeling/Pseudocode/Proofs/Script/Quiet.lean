import Pseudocode.Script.Syntax

/-!
# Code that keeps away from the script's own names

A few names of a script belong to its core: the host, the routine that
reports a step, the main routine. Code that does not mention them cannot
report a step by itself, whatever else it does.

* `Expr.avoids`: the expression mentions none of some names. The host may
  be asked for anything but its `trace`.
* `Node.quiet`, `RoutineOf.quiet`: the same for statements and routines,
  which may also report steps of lines that are not counted.

The functions follow the nesting of the syntax, with one for each kind of
list in it.
-/

namespace Pseudocode.Script

def Expr.isHost : Expr → Bool
  | .name t => t == "io"
  | _ => false

mutual

def Expr.avoids (hidden : List Text) : Expr → Bool
  | .name t => !hidden.contains t
  | .tuple items | .list items | .set items | .template items => avoidsAll hidden items
  | .dict entries => avoidsEntries hidden entries
  | .spread e | .await e | .not e | .unary _ e | .located _ e => e.avoids hidden
  | .attribute e name => (e.isHost && name != "trace".toList) || e.avoids hidden
  | .item e index => e.avoids hidden && index.avoids hidden
  | .slice low high step =>
    avoidsOption hidden low && avoidsOption hidden high && avoidsOption hidden step
  | .call callee args named =>
    callee.avoids hidden && avoidsAll hidden args && avoidsNamed hidden named
  | .binary _ left right | .and left right | .or left right =>
    left.avoids hidden && right.avoids hidden
  | .compare first rest => first.avoids hidden && avoidsChain hidden rest
  | .choice test yes no => test.avoids hidden && yes.avoids hidden && no.avoids hidden
  | .lambda _ params _ body => avoidsParams hidden params && body.avoids hidden
  | .store name e => !hidden.contains name && e.avoids hidden
  | .collect _ key value clauses _ =>
    avoidsOption hidden key && value.avoids hidden && avoidsClauses hidden clauses
  | .formatted e _ format => e.avoids hidden && avoidsOption hidden format
  | _ => true

def avoidsAll (hidden : List Text) : List Expr → Bool
  | [] => true
  | e :: rest => e.avoids hidden && avoidsAll hidden rest

def avoidsOption (hidden : List Text) : Option Expr → Bool
  | none => true
  | some e => e.avoids hidden

def avoidsEntries (hidden : List Text) : List (Option Expr × Expr) → Bool
  | [] => true
  | entry :: rest => avoidsEntry hidden entry && avoidsEntries hidden rest

def avoidsEntry (hidden : List Text) : Option Expr × Expr → Bool
  | (key, e) => avoidsOption hidden key && e.avoids hidden

def avoidsNamed (hidden : List Text) : List (Option Text × Expr) → Bool
  | [] => true
  | arg :: rest => avoidsArgument hidden arg && avoidsNamed hidden rest

def avoidsArgument (hidden : List Text) : Option Text × Expr → Bool
  | (_, e) => e.avoids hidden

def avoidsChain (hidden : List Text) : List (CompareOp × Expr) → Bool
  | [] => true
  | link :: rest => avoidsLink hidden link && avoidsChain hidden rest

def avoidsLink (hidden : List Text) : CompareOp × Expr → Bool
  | (_, e) => e.avoids hidden

def avoidsParams (hidden : List Text) : List (Param Expr) → Bool
  | [] => true
  | p :: rest => avoidsParam hidden p && avoidsParams hidden rest

def avoidsParam (hidden : List Text) : Param Expr → Bool
  | ⟨_, name, initial, note⟩ =>
    !hidden.contains name && avoidsOption hidden initial && avoidsOption hidden note

def avoidsClauses (hidden : List Text) : List (Clause Expr) → Bool
  | [] => true
  | c :: rest => avoidsClause hidden c && avoidsClauses hidden rest

def avoidsClause (hidden : List Text) : Clause Expr → Bool
  | ⟨target, source, conditions⟩ =>
    target.avoids hidden && source.avoids hidden && avoidsAll hidden conditions

end

/-- The line of a step that an expression reports, with the other
arguments of the report. -/
def Expr.report? : Expr → Option (Nat × List Expr)
  | .call (.name f) (.int line :: args) [] =>
    if f = "__trace" then some (line, args) else none
  | _ => none

/-- The action reports no step of some lines and avoids some names. -/
def Action.quiet (hidden : List Text) (lines : List Nat) : Action → Bool
  | .evaluate e =>
    match e.report? with
    | some (line, args) => !lines.contains line && avoidsAll hidden args
    | none => e.avoids hidden
  | .assign targets e => avoidsAll hidden targets && e.avoids hidden
  | .annotate target note e => target.avoids hidden && note.avoids hidden && avoidsOption hidden e
  | .augment _ target e => target.avoids hidden && e.avoids hidden
  | .delete targets => avoidsAll hidden targets
  | .assert test message => test.avoids hidden && avoidsOption hidden message
  | .raise e cause => avoidsOption hidden e && avoidsOption hidden cause
  | .leaveLoop | .nextRound | .pass => true
  | .leaveScope e => avoidsOption hidden e

mutual

def Node.quiet (hidden : List Text) (lines : List Nat) : Node → Bool
  | .action _ a => a.quiet hidden lines
  | .choice _ test body otherwise | .whileLoop _ test body otherwise =>
    test.avoids hidden && quietAll hidden lines body && quietAll hidden lines otherwise
  | .forLoop _ target source body otherwise =>
    target.avoids hidden && source.avoids hidden && quietAll hidden lines body &&
      quietAll hidden lines otherwise
  | .guarded _ body handlers otherwise final =>
    quietAll hidden lines body && quietHandlers hidden lines handlers &&
      quietAll hidden lines otherwise && quietAll hidden lines final
  | .define _ _ => false

def quietAll (hidden : List Text) (lines : List Nat) : List Node → Bool
  | [] => true
  | node :: rest => node.quiet hidden lines && quietAll hidden lines rest

def quietHandlers (hidden : List Text) (lines : List Nat) : List (HandlerOf Node) → Bool
  | [] => true
  | h :: rest => quietHandler hidden lines h && quietHandlers hidden lines rest

def quietHandler (hidden : List Text) (lines : List Nat) : HandlerOf Node → Bool
  | ⟨_, kind, name, body⟩ =>
    avoidsOption hidden kind && name.all (!hidden.contains ·) && quietAll hidden lines body

end

def RoutineOf.quiet (hidden : List Text) (lines : List Nat) (r : Routine) : Bool :=
  avoidsParams hidden r.params && quietAll hidden lines r.body

/-! ### The routine that reports a step -/

/-- The parameters of the routine that reports a step. -/
def tracerParams : List (Param Expr) :=
  [⟨.plain, "line", none, none⟩, ⟨.plain, "snapshot", none, none⟩,
    ⟨.plain, "output", some (.str []), none⟩]

/-- Its statements: the host is asked for its `trace`, which is called if
it is there. -/
def tracerBody (l l' l'' : Nat) : List Node :=
  [.action l (.assign [.name "hook"]
      (.call (.name "getattr") [.name "io", .str "trace", .nothing] [])),
    .choice l' (.compare (.name "hook") [(.notSame, .nothing)])
      [.action l'' (.evaluate
        (.call (.name "hook") [.name "line", .name "snapshot", .name "output"] []))] []]

/-- The parameters are those of the routine that reports a step. -/
def isTracerParams : List (Param Expr) → Bool
  | [⟨.plain, line, none, none⟩, ⟨.plain, snapshot, none, none⟩,
      ⟨.plain, output, some (.str []), none⟩] =>
    line == "line" && snapshot == "snapshot" && output == "output"
  | _ => false

/-- The statements are those of the routine that reports a step. -/
def isTracerBody : List Node → Bool
  | [.action _ (.assign [.name hook] (.call (.name find) [.name host, .str act, .nothing] [])),
      .choice _ (.compare (.name hook') [(.notSame, .nothing)])
        [.action _ (.evaluate (.call (.name hook'') [.name line, .name snapshot, .name output] []))]
        []] =>
    hook == "hook" && find == "getattr" && host == "io" &&
      act == "trace" && hook' == "hook" && hook'' == "hook" &&
        line == "line" && snapshot == "snapshot" && output == "output"
  | _ => false

/-- The routine is the one that reports a step. -/
def RoutineOf.isTracer (r : Routine) : Bool :=
  !r.isAsync && !r.yields && r.locals.contains "line" && isTracerParams r.params &&
    isTracerBody r.body

theorem eq_tracerParams {params : List (Param Expr)} (h : isTracerParams params = true) :
    params = tracerParams := by
  unfold isTracerParams at h
  split at h
  · simp only [Bool.and_eq_true, beq_iff_eq] at h
    obtain ⟨⟨rfl, rfl⟩, rfl⟩ := h
    rfl
  · cases h

theorem exists_tracerBody {body : List Node} (h : isTracerBody body = true) :
    ∃ l l' l'', body = tracerBody l l' l'' := by
  unfold isTracerBody at h
  split at h
  · simp only [Bool.and_eq_true, beq_iff_eq] at h
    obtain ⟨⟨⟨⟨⟨⟨⟨⟨rfl, rfl⟩, rfl⟩, rfl⟩, rfl⟩, rfl⟩, rfl⟩, rfl⟩, rfl⟩ := h
    exact ⟨_, _, _, rfl⟩
  · cases h

end Pseudocode.Script
