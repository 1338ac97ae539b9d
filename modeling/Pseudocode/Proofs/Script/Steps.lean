import Pseudocode.Proofs.Script.Codes
import Pseudocode.Proofs.Script.Emitted
import Pseudocode.Proofs.Script.Snapshots

/-!
# The steps of a program

The reports in the script of a program are those of its steps: the headers
of its functions, and the statements that declare, read, write or count,
with the `volver` of a function. A step belongs to one scope, and its report
asks for the variables of that scope alone.

* `Program.steps`: the steps of a program in the order of its script.
  `Form.states?` says in which state the variables of the scope are told.
* `reports_ofProgram`: the reports of a script are those of the steps.
-/

namespace Pseudocode

open Text Script List Lines

/-! ### Steps -/

/-- A step that a run can report: its line, its scope, and the state in which
each variable of the scope is told if it has a value. -/
structure Step where
  line : Nat
  scope : Text
  state : Text → SlotState

def Step.report (slots : List Slot) (step : Step) : Report :=
  ⟨step.line, slots.map fun slot =>
    if slot.scope = step.scope then .shown slot.name (step.state slot.name) else .elsewhere⟩

/-- The states in which the variables are told after a statement, if it is a
step. A counted loop forces its counter, and the `volver` of a function
clears all variables. -/
def Form.states? (inFunction : Bool) : Form → Option (Text → SlotState)
  | .declare .. | .read .. | .write _ => some fun _ => .value
  | .forLoop counter _ _ => some fun name => if name = counter then .forced else .value
  | .returnScope => if inFunction then some fun _ => .cleared else none
  | _ => none

def bodySteps (scope : Text) (inFunction : Bool) (body : List Statement) : List Step :=
  body.filterMap fun s => (s.form.states? inFunction).map (⟨s.line, scope, ·⟩)

def Function.steps (f : Function) (scope : Text) : List Step :=
  ⟨f.headerLine, scope, fun _ => .value⟩ :: bodySteps scope true f.body

def Program.steps (p : Program) (v : Variables) : List Step :=
  ((p.functions.zip v.functions).flatMap fun f => f.1.steps f.2.scope) ++
    bodySteps v.main.scope false p.main

namespace Script

variable {body : List Statement} {slots : List Slot} {functions : List Text}

/-! ### The reports of a listing -/

variable {l l' : Lines}

theorem Lines.reports_eq
    (l : Lines) : l.reports = l.coded.filterMap fun line => line.2.report? := by
  unfold reports Listing.coded
  rw [filterMap_filterMap]
  congr 1
  funext line
  cases line <;> rfl

theorem Lines.reports_of_coded (h : l'.coded = l.coded) : l'.reports = l.reports := by
  rw [reports_eq, h, ← reports_eq]

theorem Lines.reports_of_extends {codes : List Code} (h : l.Extends codes l') :
    l'.reports = l.reports ++ codes.filterMap Code.report? := by
  rw [reports_eq, h.coded, filterMap_append, ← reports_eq, filterMap_map]
  rfl

namespace Emitter

variable {e e' : Emitter} {cs : List Code} {ctx : Context}

theorem Emits.reports (h : Emits e cs e') :
    e'.listing.reports = e.listing.reports ++ cs.filterMap Code.report? := by
  obtain ⟨all, hadded, rfl, -⟩ := h
  rw [reports_of_extends hadded, filterMap_filter]
  congr 2
  funext code
  cases code <;> rfl

def statementReports (ctx : Context) (s : Statement) : List Report :=
  ((s.form.states? ctx.inFunction).map fun state =>
    (⟨s.line, ctx.scope, state⟩ : Step).report ctx.slots).toList

theorem reports_statementCodes {n : Nat} {s : Statement} (h : statementCodes ctx n s = .ok cs) :
    cs.filterMap Code.report? = statementReports ctx s := by
  obtain ⟨text, line, form⟩ := s
  cases form with
  | read target name index =>
    cases index with
    | some =>
      obtain ⟨cell, -, rfl⟩ := exists_of_return_eq_ok h
      rfl
    | none =>
      cases h
      rfl
  | forLoop =>
    obtain ⟨first, -, h⟩ := exists_of_bind_eq_ok h
    obtain ⟨last, -, rfl⟩ := exists_of_return_eq_ok h
    rfl
  | whileLoop | untilTest | ifTest | write | call =>
    obtain ⟨text', -, rfl⟩ := exists_of_return_eq_ok h
    rfl
  | returnScope =>
    cases h
    obtain ⟨slots, functions, scope, inFunction⟩ := ctx
    cases inFunction <;> rfl
  | _ =>
    cases h
    rfl

theorem reports_foldlM_statement (hok : body.foldlM (statement ctx) e = .ok e') :
    e'.listing.reports = e.listing.reports ++
      (bodySteps ctx.scope ctx.inFunction body).map (Step.report ctx.slots) := by
  induction body generalizing e with
  | nil =>
    cases hok
    exact (append_nil _).symm
  | cons s rest ih =>
    obtain ⟨middle, hmiddle, hok⟩ := exists_of_bind_eq_ok hok
    obtain ⟨cs, hcodes, hemits⟩ := emits_statement hmiddle
    have hstatement : middle.listing.reports = e.listing.reports ++ statementReports ctx s := by
      rw [hemits.reports, reports_statementCodes hcodes]
      rfl
    rw [ih hok, hstatement]
    -- A statement that is no step adds nothing to either side.
    unfold bodySteps
    cases hstates : s.form.states? ctx.inFunction with
    | none | some => simp [statementReports, hstates]

theorem reports_body (hok : e.body ctx body = .ok e') :
    e'.listing.reports = e.listing.reports ++
      (bodySteps ctx.scope ctx.inFunction body).map (Step.report ctx.slots) := by
  obtain ⟨last, hlast, rfl⟩ := exists_of_return_eq_ok hok
  rw [(emits_closeMany last _).reports, reports_foldlM_statement hlast]
  exact append_nil _

end Emitter

/-! ### The reports of a script -/

theorem filterMap_unset (names : List Text) :
    (names.map Code.unset).filterMap Code.report? = [] := by
  simp [Code.report?]

theorem reports_functionLines {f : Function × ScopeTable}
    (hok : functionLines slots functions l f = .ok l') :
    l'.reports = l.reports ++ (f.1.steps f.2.scope).map (Step.report slots) := by
  obtain ⟨e, e', hbody, hbefore, hafter⟩ := exists_functionLines hok
  -- Of the lines before the body only the last one is a report.
  have hheader : e.listing.reports = l.reports ++
      [(⟨f.1.headerLine, f.2.scope, fun _ => .value⟩ : Step).report slots] := by
    have hblank : reports (l.blank.setOrigin (some f.1.headerLine)) = l.reports :=
      reports_of_coded (Listing.coded_blank l)
    refine hbefore.reports.trans ?_
    rw [filterMap_append, filterMap_cons_none rfl, filterMap_unset, hblank]
    rfl
  rw [reports_of_coded hafter, Emitter.reports_body hbody, hheader, append_assoc]
  rfl

theorem reports_functions {fs : List (Function × ScopeTable)}
    (hok : fs.foldlM (functionLines slots functions) l = .ok l') :
    l'.reports =
      l.reports ++ (fs.flatMap fun f => f.1.steps f.2.scope).map (Step.report slots) := by
  induction fs generalizing l with
  | nil =>
    cases hok
    exact (append_nil _).symm
  | cons f rest ih =>
    obtain ⟨middle, hmiddle, hok⟩ := exists_of_bind_eq_ok hok
    rw [ih hok, reports_functionLines hmiddle, flatMap_cons, map_append, append_assoc]

theorem reports_mainLines {table : ScopeTable}
    (hok : mainLines slots functions table body l = .ok l') :
    l'.reports = l.reports ++ (bodySteps table.scope false body).map (Step.report slots) := by
  obtain ⟨e, e', e'', hbody, hbefore, hclose, hafter, -⟩ := exists_mainLines hok
  have hheader : e.listing.reports = l.reports := by
    refine hbefore.reports.trans ?_
    rw [filterMap_cons_none rfl, filterMap_unset, append_nil]
    exact reports_of_coded (Listing.coded_blank l)
  have hend : e''.listing.reports = e'.listing.reports := by
    rw [hclose.reports]
    exact append_nil _
  rw [reports_of_coded hafter, hend, Emitter.reports_body hbody, hheader]

theorem reports_ofProgram {settings : Settings} {v : Variables} {p : Program}
    (hok : ofProgram settings v p = .ok l) : l.reports = (p.steps v).map (Step.report v.slots) := by
  obtain ⟨afterFunctions, hfunctions, hok⟩ := exists_of_bind_eq_ok hok
  obtain ⟨afterMain, hmain, rfl⟩ := exists_of_return_eq_ok hok
  have hlast : reports (afterMain.blank.emit (.support "await __main()")).dedent =
      afterMain.reports := by
    refine (reports_of_extends (Listing.extends_emit afterMain.blank _)).trans ?_
    rw [reports_of_coded (Listing.coded_blank afterMain)]
    exact append_nil _
  have hsupport := reports_of_extends (extends_support settings)
  rw [hlast, reports_mainLines hmain, reports_functions hfunctions, hsupport, Program.steps,
    map_append]
  congr 1

end Script

end Pseudocode
