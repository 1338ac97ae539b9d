import Pseudocode.Proofs.Script.Rules
import Pseudocode.Proofs.Script.Written

/-!
# The snapshots that a script asks for

A report of a step asks for a snapshot: a list with one expression for each
slot, which is `None` or a call of the routine that describes a variable.
Whether a script that was read asks for the snapshots that were written, and
leaves them to itself, can be decided by reading it once.

* `Report`: a line and the views of its snapshot.
* `RoutineOf.isSlot`: the routine that describes a variable.
* `snapshotRules`: the only reports are some given ones, and neither the
  core, nor that routine, nor the variable that holds a snapshot is
  mentioned otherwise.
* `Executable.asksFor`: a script keeps to these rules. `HasSnapshots` and
  `exists_snapshots` say what it consists of then.
-/

namespace Pseudocode.Script

open Text List

/-! ### Reports -/

structure Report where
  line : Nat
  views : List SlotView
deriving DecidableEq, Repr

/-- The report that a line of a script makes. -/
def Code.report? : Code → Option Report
  | .trace line views _ => some ⟨line, views⟩
  | _ => none

/-- The reports that the lines of a script make. -/
def Lines.reports (l : Lines) : List Report :=
  l.lines.toList.filterMap fun line => line.bind (·.code.report?)

/-- The state that the arguments after the first one name. -/
def namedState? : List Expr → Option Text
  | [] => some SlotState.value.name
  | [.str t] => some t
  | _ => none

/-- The expression asks for one slot as it is viewed. -/
def SlotView.isReadAs (hidden : List Text) : SlotView → Expr → Bool
  | .elsewhere, .nothing => true
  | .shown name state, .call (.name f) (.name t :: rest) [] =>
    f == "__slot" && t == name && !hidden.contains t && namedState? rest == some state.name
  | _, _ => false

/-- The expressions ask for the slots as they are viewed, one for each. -/
def areReadAs (hidden : List Text) : List SlotView → List Expr → Bool
  | [], [] => true
  | view :: views, e :: es => view.isReadAs hidden e && areReadAs hidden views es
  | _, _ => false

/-- The arguments of a report, its line apart: the snapshot, and a variable
with what the step wrote. -/
def isSnapshotOf (hidden : List Text) (views : List SlotView) : List Expr → Bool
  | [.list es] => areReadAs hidden views es
  | [.list es, .name t] => areReadAs hidden views es && !hidden.contains t
  | _ => false

def snapshotNames (entryPoint : Text) : List Text :=
  coreNames entryPoint ++ ["__slot".toList, "snapshot"]

def snapshotRules (entryPoint : Text) (reports : List Report) : Rules where
  hidden := snapshotNames entryPoint
  unbound := ["isinstance", "list"]
  reports line args := reports.any fun r =>
    r.line == line && isSnapshotOf (snapshotNames entryPoint) r.views args

theorem exists_report {entryPoint : Text} {reports : List Report} {line : Nat}
    {args : List Expr} (h : (snapshotRules entryPoint reports).reports line args = true) :
    ∃ views, ⟨line, views⟩ ∈ reports ∧
      isSnapshotOf (snapshotNames entryPoint) views args = true := by
  obtain ⟨⟨line', views⟩, hmem, hreport⟩ := any_eq_true.mp h
  simp only [Bool.and_eq_true, beq_iff_eq] at hreport
  obtain ⟨rfl, hviews⟩ := hreport
  exact ⟨views, hmem, hviews⟩

/-! ### The routine that describes a variable -/

def slotParams : List (Param Expr) :=
  [⟨.plain, "value", none, none⟩, ⟨.plain, "state", some (.str "value"), none⟩]

/-- The test for a variable without a value. -/
def unsetTest : Expr :=
  .compare (.name "value") [(.same, .name "__UNSET")]

/-- What is told of a variable without a value. -/
def unsetDisplay : Expr :=
  .dict [(some (.str "state"), .str "unset"), (some (.str "value"), .nothing)]

def arrayTest : Expr :=
  .call (.name "isinstance") [.name "value", .name "list"] []

def arrayCopy : Expr :=
  .call (.name "list") [.name "value"] []

def valueDisplay : Expr :=
  .dict [(some (.str "state"), .name "state"), (some (.str "value"), .name "value")]

def slotBody (l₁ l₂ l₃ l₄ l₅ : Nat) : List Node :=
  [.choice l₁ unsetTest [.action l₂ (.leaveScope (some unsetDisplay))] [],
    .choice l₃ arrayTest [.action l₄ (.assign [.name "value"] arrayCopy)] [],
    .action l₅ (.leaveScope (some valueDisplay))]

/-- The parameters are those of the routine. -/
def isSlotParams : List (Param Expr) → Bool
  | [⟨.plain, value, none, none⟩, ⟨.plain, state, some (.str first), none⟩] =>
    value == "value" && state == "state" && first == "value"
  | _ => false

/-- The expression is a dictionary of a state and a value. -/
def Expr.describes? : Expr → Option (Expr × Expr)
  | .dict [(some (.str state), e), (some (.str value), e')] =>
    if state == "state" && value == "value" then some (e, e') else none
  | _ => none

/-- The statements are those of the routine. -/
def isSlotBody : List Node → Bool
  | [.choice _ (.compare (.name v₁) [(.same, .name unset)])
        [.action _ (.leaveScope (some display))] [],
      .choice _ (.call (.name isinstance) [.name v₂, .name list₁] [])
        [.action _ (.assign [.name v₃] (.call (.name list₂) [.name v₄] []))] [],
      .action _ (.leaveScope (some display'))] =>
    v₁ == "value" && unset == "__UNSET" && isinstance == "isinstance" &&
      v₂ == "value" && list₁ == "list" && v₃ == "value" &&
      list₂ == "list" && v₄ == "value" &&
      (match display.describes? with
        | some (.str state, .nothing) => state == "unset"
        | _ => false) &&
      match display'.describes? with
        | some (.name state, .name value) => state == "state" && value == "value"
        | _ => false
  | _ => false

def RoutineOf.isSlot (r : Routine) : Bool :=
  !r.isAsync && !r.yields && r.locals.contains "value" &&
    r.locals.contains "state" && isSlotParams r.params && isSlotBody r.body

theorem eq_slotParams {params : List (Param Expr)} (h : isSlotParams params = true) :
    params = slotParams := by
  unfold isSlotParams at h
  split at h
  · simp only [Bool.and_eq_true, beq_iff_eq] at h
    obtain ⟨⟨rfl, rfl⟩, rfl⟩ := h
    rfl
  · cases h

theorem Expr.eq_of_describes? {e state value : Expr} (h : e.describes? = some (state, value)) :
    e = .dict [(some (.str "state"), state), (some (.str "value"), value)] := by
  unfold Expr.describes? at h
  split at h
  · split at h
    · next hnames =>
      simp only [Bool.and_eq_true, beq_iff_eq] at hnames
      obtain ⟨rfl, rfl⟩ := hnames
      cases h
      rfl
    · cases h
  · cases h

theorem exists_slotBody {body : List Node} (h : isSlotBody body = true) :
    ∃ l₁ l₂ l₃ l₄ l₅, body = slotBody l₁ l₂ l₃ l₄ l₅ := by
  unfold isSlotBody at h
  split at h
  · next display _ _ _ _ _ _ _ _ _ _ display' =>
    simp only [Bool.and_eq_true, beq_iff_eq] at h
    obtain ⟨⟨⟨⟨⟨⟨⟨⟨⟨rfl, rfl⟩, rfl⟩, rfl⟩, rfl⟩, rfl⟩, rfl⟩, rfl⟩, hunset⟩, hvalue⟩ := h
    split at hunset
    · next hdisplay =>
      split at hvalue
      · next hdisplay' =>
        simp only [Bool.and_eq_true, beq_iff_eq] at hunset hvalue
        obtain rfl := hunset
        obtain ⟨rfl, rfl⟩ := hvalue
        rw [Expr.eq_of_describes? hdisplay, Expr.eq_of_describes? hdisplay']
        exact ⟨_, _, _, _, _, rfl⟩
      · cases hvalue
    · cases hunset
  · cases h

/-! ### Scripts that ask for snapshots -/

/-- The names that the routine for a variable needs, with its own. -/
def slotNames : List Text :=
  ["__slot", "isinstance", "list", "value", "state"]

/-- A routine that can be defined beside the core and keeps to the rules. -/
def RoutineOf.isKept (rules : Rules) (r : Routine) : Bool :=
  rules.mayBind r.name && r.isDirect && r.obeys rules

/-- The script has the form of one and asks for the snapshots of some
reports only: the first of its routines describes a variable and the second
one reports a step, the last one is that of the main body, and all others
keep to the rules. -/
def Executable.asksFor (x : Executable) (reports : List Report) : Bool :=
  let rules := snapshotRules x.entryPoint reports
  match x.routines? with
  | some (slot :: tracer :: rest) =>
    match rest.getLast? with
    | some main =>
      !reservedNames.contains x.entryPoint && !slotNames.contains x.entryPoint &&
        slot.name == "__slot" && slot.isSlot && slot.isDirect &&
        tracer.name == "__trace" && tracer.isTracer && tracer.isDirect &&
        tracer.locals.contains "snapshot" &&
        rest.dropLast.all (RoutineOf.isKept rules) && main.isMain && obeysBlock rules main.body
    | none => false
  | _ => false

/-- A script has the routines of a program, and they keep to the rules for
its reports. -/
structure HasSnapshots (x : Executable) (reports : List Report) (slot tracer : Routine)
    (others : List Routine) (main : Routine) : Prop
    extends HasRoutines x slot tracer others main where
  apart : x.entryPoint ∉ slotNames
  slot_name : slot.name = "__slot"
  isSlot : slot.isSlot = true
  snapshot : tracer.locals.contains "snapshot" = true
  names : ∀ r ∈ others, (snapshotRules x.entryPoint reports).mayBind r.name = true
  obeys : ∀ r ∈ others, r.obeys (snapshotRules x.entryPoint reports) = true
  main_obeys : obeysBlock (snapshotRules x.entryPoint reports) main.body = true

theorem exists_snapshots {x : Executable} {reports : List Report} (h : x.asksFor reports = true) :
    ∃ slot tracer others main, HasSnapshots x reports slot tracer others main := by
  unfold Executable.asksFor at h
  split at h
  next slot tracer rest hroutines =>
    split at h
    next main hlast =>
      simp only [Bool.and_eq_true, beq_iff_eq, all_eq_true, RoutineOf.isKept] at h
      obtain ⟨⟨⟨⟨⟨⟨⟨⟨⟨⟨⟨hentry, hapart⟩, hslot⟩, hisSlot⟩, hdirect⟩, htracer⟩, hisTracer⟩, hdirect'⟩,
        hsnapshot⟩, hothers⟩, hmain⟩, hobeys⟩ := h
      replace hapart : x.entryPoint ∉ slotNames := by simpa using hapart
      refine ⟨slot, tracer, rest.dropLast, main, ⟨?_, by simpa using hentry, htracer, hisTracer,
        hdirect', hmain, ?_⟩, hapart, hslot, hisSlot, hsnapshot, fun r hr => (hothers r hr).1.1,
        fun r hr => (hothers r hr).2, hobeys⟩
      · rw [hroutines, dropLast_append_getLast? main hlast]
      · refine forall_mem_cons.mpr ⟨⟨?_, hdirect⟩, fun r hr => ⟨?_, (hothers r hr).1.2⟩⟩
        · rw [hslot]
          exact not_mem_coreNames (by decide) fun heq => hapart (heq ▸ by decide)
        · have hname := (Rules.mayBind_iff.mp (hothers r hr).1.1).1
          exact fun hcore => hname (mem_append_left _ hcore)
    · cases h
  · cases h

end Pseudocode.Script

namespace Pseudocode

open Script

/-- The script of an analysis is read as one that asks for the snapshots that
were written only, or is not a program at all. -/
def Analysis.AsksForSnapshots (a : Analysis) : Prop :=
  (match load a.settings a.script with
    | .ok x => x.asksFor a.script.reports
    | .error (.invalid _) => true
    | .error .nullCharacter => false) = true

instance (a : Analysis) : Decidable a.AsksForSnapshots :=
  decidable_of_iff ((match evalLoad a.settings a.script with
    | .ok x => x.asksFor a.script.reports
    | .error (.invalid _) => true
    | .error .nullCharacter => false) = true) (by
    rw [evalLoad_eq]
    rfl)

end Pseudocode
