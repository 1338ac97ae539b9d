import Pseudocode.Expression.Arguments
import Pseudocode.Expression.Condition
import Pseudocode.Script.Code
import Pseudocode.Settings
import Pseudocode.Variables

/-!
# The traced script of a program

The script defines one routine that takes its host. Inside it, after
the prelude, every function of the program becomes a routine of its own
and the main body becomes one more, which is called last. A routine
first makes its variables have no value; then its statements follow, and
after each one that stores, declares, counts or writes a line reports
the step with a snapshot of all slots.

The pass keeps, for every open block of the script, whether the block
has a line that does something: a block without one gets a `pass`.
-/

namespace Pseudocode.Script

open Text Expression

/-- What a routine's lines depend on. -/
structure Context where
  slots : List Slot
  functions : List Text
  scope : Text
  inFunction : Bool
deriving DecidableEq, Repr

/-- The snapshot of a scope: one entry for each slot, the variables of
other scopes left out, in the state that `state` gives for a name. -/
def Context.snapshot (ctx : Context) (state : Text → SlotState) : List SlotView :=
  ctx.slots.map fun slot =>
    if slot.scope = ctx.scope then .shown slot.name (state slot.name) else .elsewhere

structure Emitter where
  listing : Lines
  /-- For every open block, innermost first, whether it has a line that
  does something; the last one is the routine itself. -/
  filled : List Bool := [false]
  outputs : Nat := 0
deriving DecidableEq, Repr

namespace Emitter

/-- One more line that does something. -/
def line (e : Emitter) (code : Code) : Emitter :=
  { e with
    listing := e.listing.emit code
    filled := match e.filled with
      | [] => []
      | _ :: outer => true :: outer }

/-- Comment lines, which do nothing. -/
def comment (e : Emitter) (t : Text) : Emitter :=
  { e with listing := e.listing.emitAll ((cutAt (· == '\n') t).map Code.comment) }

def openBlock (e : Emitter) (head : Code) : Emitter :=
  let e := e.line head
  { e with listing := e.listing.indent, filled := false :: e.filled }

/-- Closes the innermost block. The routine itself stays open. -/
def closeBlock (e : Emitter) : Emitter :=
  match e.filled with
  | [] => e
  | [false] => e.line .pass
  | [true] => e
  | true :: filled => { e with listing := e.listing.dedent, filled := filled }
  | false :: filled => { e with listing := (e.listing.emit .pass).dedent, filled := filled }

def closeMany (e : Emitter) : Nat → Emitter
  | 0 => e
  | n + 1 => e.closeBlock.closeMany n

/-- The test that leaves a loop, which ends the loop's block. -/
def leaveIf (e : Emitter) (condition : Text) : Emitter :=
  let e := e.line (.ifTest condition)
  { e with listing := (e.listing.indent.emit .leaveLoop).dedent }.closeBlock

/-- A step reported with the values that the variables have. -/
def trace (e : Emitter) (ctx : Context) (line : Nat) (state : Text → SlotState)
    (output : Option Nat) : Emitter :=
  e.line (.trace line (ctx.snapshot state) output)

def asIs : Text → SlotState :=
  fun _ => .value

/-- The part of an output for one argument: a literal as it is, anything
else written as text. -/
def outputPart (arg : Text) : Except IndexFault Text := do
  if isLiteralText arg then return arg
  else return "__text(" ++ (← condition arg) ++ ")"

def write (e : Emitter) (ctx : Context) (line : Nat) (args : List Text) :
    Except IndexFault Emitter := do
  let parts ← args.mapM outputPart
  let n := e.outputs
  let e := { e with outputs := n + 1 }
  return ((e.line (.compose n parts)).line (.write n)).trace ctx line asIs (some n)

def statement (ctx : Context) (e : Emitter) (s : Statement) : Except IndexFault Emitter := do
  let e := { e with listing := e.listing.setOrigin (some s.line) }
  match s.form with
  | .comment _ => return e.comment (commentBody s.text)
  | .declare type name size =>
    return (e.line (.declare type name size)).trace ctx s.line asIs none
  | .read _ name index =>
    let target ← match index with
      | some index => shiftCell name index
      | none => pure name
    return (e.line (.read target name)).trace ctx s.line asIs none
  | .whileLoop c => return e.openBlock (.whileTest (← condition c))
  | .forLoop counter start stop =>
    let e := e.openBlock (.count counter (← condition start) (← condition stop))
    return e.trace ctx s.line (fun name => if name = counter then .forced else .value) none
  | .repeatLoop => return e.openBlock .forever
  | .untilTest c => return e.leaveIf (← condition c)
  | .ifTest c => return e.openBlock (.ifTest (← condition c))
  | .elseBranch => return e.closeBlock.openBlock .otherwise
  | .endWhile | .endFor | .endIf => return e.closeBlock
  | .thenBranch => return e
  | .write args => e.write ctx s.line (arguments args)
  | .returnScope =>
    let e := if ctx.inFunction then e.trace ctx s.line (fun _ => .cleared) none else e
    return e.line .leaveScope
  | .call callee => return e.line (.call (ctx.functions.contains callee) (← shift s.text))
  | _ => return e.comment s.text

/-- The statements of a body; the blocks left open are closed. -/
def body (ctx : Context) (e : Emitter) (body : List Statement) : Except IndexFault Emitter := do
  let e ← body.foldlM (statement ctx) e
  return e.closeMany (e.filled.length - 1)

/-- The start of a routine: its variables, parameters apart, have no
value. -/
def enter (listing : Lines) (names params : List Text) : Emitter :=
  (names.filter (!params.contains ·)).foldl (fun e name => e.line (.unset name))
    ⟨listing, [false], 0⟩

end Emitter

def functionLines (slots : List Slot) (functions : List Text) (l : Lines)
    (f : Function × ScopeTable) : Except IndexFault Lines := do
  let (f, table) := f
  let ctx : Context := ⟨slots, functions, table.scope, true⟩
  let l := ((l.blank.setOrigin (some f.headerLine)).emit (.define f.name f.params)).indent
  let e := (Emitter.enter l table.names f.params).trace ctx f.headerLine Emitter.asIs none
  let e ← e.body ctx f.body
  return e.listing.dedent.setOrigin none

def mainLines (slots : List Slot) (functions : List Text) (table : ScopeTable)
    (body : List Statement) (l : Lines) : Except IndexFault Lines := do
  let ctx : Context := ⟨slots, functions, table.scope, false⟩
  let l := (l.blank.emit .defineMain).indent
  let e ← (Emitter.enter l table.names []).body ctx body
  return { e with listing := e.listing.setOrigin none }.closeBlock.listing.dedent

def ofProgram (settings : Settings) (v : Variables) (p : Program) : Except IndexFault Lines := do
  let functions := p.functions.map Function.name
  let l := ({} : Lines).emit (.comment "Generated by pseudoflow 0.1.0: instrumented program")
  let l := (l.emit (.entry settings.entryPoint)).indent
  let l := l.emitAll (supportLines.map Code.support)
  let l ← (p.functions.zip v.functions).foldlM (functionLines v.slots functions) l
  let l ← mainLines v.slots functions v.main p.main l
  return (l.blank.emit (.support "await __main()")).dedent

end Pseudocode.Script
