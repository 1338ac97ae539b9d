import Pseudocode.Proofs.Run.Alignment

/-!
# What the `volver` of a function tells

The report of a `volver` asks for every variable of its function as cleared.
The routine that describes a variable has the last word: one that has no
value in this activation is told as such. So a variable is told as cleared if
and only if it has a value when the `volver` is reached.

* `Machine.steps`: the steps that a state has shown, in order.
  `Core.Invariant.during` is an invariant together with these.
* `Step.Tells`: what is shown of a step, by the variables without a value.
  `Step.Aligned` leaves open which these are.
* `Analysis.Running`: what a run of the script keeps. In a state with this
  property the values of the variables decide what a report shows.
* `Analysis.ReturnsAt`: a line has a `volver` of a function.
* `return_tells_cleared_unless_unset`: what it tells, in any run and in any
  state of one.
-/

namespace Pseudocode

open Text Script Run List

namespace Run

/-! ### The steps of a state -/

def Event.step? : Event → Option TraceEvent
  | .trace e => some e
  | _ => none

def Machine.steps (m : Machine) : List TraceEvent :=
  m.log.toList.filterMap (·.2.step?)

theorem Machine.steps_shows (m : Machine) (shown : Showing) :
    (m.shows shown).steps = m.steps ++ (m.heap.event shown).step?.toList := by
  unfold steps shows
  cases h : (m.heap.event shown).step? <;> simp [h]

namespace Core

/-- An invariant of the states that have shown some steps. -/
def Invariant.during {k : Core} (I : k.Invariant) (steps : List TraceEvent) : k.Invariant where
  At w m := I.At w m ∧ m.steps = steps
  steady h := I.steady h.1
  heap h hle hs := ⟨I.heap h.1 hle hs, h.2⟩
  frames h hfits := ⟨I.frames h.1 hfits, h.2⟩
  inputs h := ⟨I.inputs h.1, h.2⟩
  reveal := by
    rintro w m shown ⟨hm, hsteps⟩ hshown
    refine ⟨I.reveal hm hshown, ?_⟩
    -- Code outside the core shows no step.
    have hevent : (m.heap.event shown).step? = none := by
      cases shown with
      | trace => cases hshown
      | _ => rfl
    rw [Machine.steps_shows, hevent, hsteps]
    exact append_nil _

end Core

/-! ### What is shown of a step -/

/-- The entry tells that a variable lacks a value if it does, and its state
otherwise. -/
def Entry.TellsOf (lacks : Bool) (state : SlotState) (d : Entry) : Prop :=
  if lacks then d.state = .str "unset" ∧ d.value = .nothing else d.state = .str state.name

theorem Core.World.Tells.entry {k : Core} {w : k.World} {h : Heap} {lacks : Bool}
    {state : SlotState} {v : Value} (hv : w.Tells lacks state.name v) (hs : w.Sound h) :
    ∃ d, Entry.ofDatum? (h.datum v) = some d ∧ d.TellsOf lacks state := by
  obtain ⟨a, u, rfl, hu, ha⟩ := hv
  refine ⟨_, Heap.ofDatum?_description (hs.shown _ ha), ?_⟩
  cases lacks with
  | false => exact rfl
  | true =>
    obtain rfl := hu rfl
    refine ⟨rfl, ?_⟩
    simp only [Heap.writeOut]

end Run

/-- What is shown of a step if the variables that lack a value are these: its
line, and one entry for each slot in order. Those of other scopes are left
out. -/
structure Step.Tells (slots : List Slot) (step : Step) (lacks : Text → Bool) (e : TraceEvent) :
    Prop where
  line : e.line = .int step.line
  snapshot : Forall₂ (fun slot entry =>
    if slot.scope = step.scope then
      ∃ d, entry = some d ∧ d.TellsOf (lacks slot.name) (step.state slot.name)
    else entry = none) slots e.snapshot

theorem Step.tells_of_viewsAll {slots : List Slot} {step : Step} {lacks : Text → Bool} {k : Core}
    {w : k.World} {h : Heap} {vs : List Value}
    (hvs : w.ViewsAll lacks (step.report slots).views vs) (hs : w.Sound h) (output : Datum) :
    step.Tells slots lacks
      ⟨.int step.line, vs.map fun v => Entry.ofDatum? (h.datum v), output⟩ := by
  refine ⟨rfl, ?_⟩
  rw [forall₂_map_right_iff]
  refine (forall₂_map_left_iff.mp hvs).imp fun slot v hv => ?_
  split
  · next hscope =>
    rw [if_pos hscope] at hv
    exact Core.World.Tells.entry hv hs
  · next hscope =>
    rw [if_neg hscope] at hv
    obtain rfl : v = .nothing := hv
    rfl

/-! ### The lines of steps -/

theorem bodySteps_sublist (scope : Text) (inFunction : Bool) (body : List Statement) :
    ((bodySteps scope inFunction body).map Step.line).Sublist (body.map Statement.line) := by
  induction body with
  | nil => exact .slnil
  | cons s rest ih =>
    unfold bodySteps at ih ⊢
    cases hstates : s.form.states? inFunction with
    | none => simpa [hstates] using ih.cons s.line
    | some => simpa [hstates] using ih

theorem functionSteps_sublist (fs : List Function) (tables : List ScopeTable) :
    (((fs.zip tables).flatMap fun f => f.1.steps f.2.scope).map Step.line).Sublist
      (fs.flatMap Function.lines) := by
  induction fs generalizing tables with
  | nil => exact .slnil
  | cons f rest ih =>
    cases tables with
    | nil => exact nil_sublist _
    | cons table tables =>
      rw [zip_cons_cons, flatMap_cons, map_append]
      exact ((bodySteps_sublist table.scope true f.body).cons_cons f.headerLine).append (ih tables)

section Analysis

variable {settings : Settings} {t : Text} {a : Analysis}

theorem eq_of_line_eq (ha : Analysis.ofText settings t = .ok a) {step step' : Step}
    (h : step ∈ a.program.steps a.scopes) (h' : step' ∈ a.program.steps a.scopes)
    (hline : step.line = step'.line) : step = step' := by
  obtain ⟨hparse, -, -, -, -⟩ := parts_of_ofText ha
  have hsublist : ((a.program.steps a.scopes).map Step.line).Sublist
      (a.program.functions.flatMap Function.lines ++ a.program.main.map Statement.line) := by
    unfold Program.steps
    rw [map_append]
    exact (functionSteps_sublist _ _).append (bodySteps_sublist _ _ _)
  exact inj_on_of_nodup_map (hsublist.nodup (Program.nodup_lines hparse)) h h' hline

def Analysis.ReturnsAt (a : Analysis) (line : Nat) (scope : Text) : Prop :=
  ∃ f ∈ a.program.functions.zip a.scopes.functions, f.2.scope = scope ∧
    ∃ s ∈ f.1.body, s.line = line ∧ s.form = .returnScope

instance (a : Analysis) (line : Nat) (scope : Text) : Decidable (a.ReturnsAt line scope) :=
  inferInstanceAs (Decidable (∃ f ∈ a.program.functions.zip a.scopes.functions, _ ∧
    ∃ s ∈ f.1.body, _ ∧ _))

def returnStep (line : Nat) (scope : Text) : Step :=
  ⟨line, scope, fun _ => .cleared⟩

theorem Analysis.ReturnsAt.mem_steps {line : Nat} {scope : Text} (h : a.ReturnsAt line scope) :
    returnStep line scope ∈ a.program.steps a.scopes := by
  obtain ⟨f, hf, rfl, s, hs, rfl, hform⟩ := h
  refine mem_append_left _ (mem_flatMap.mpr ⟨f, hf, mem_cons_of_mem _ ?_⟩)
  refine mem_filterMap.mpr ⟨s, hs, ?_⟩
  rw [hform]
  rfl

/-! ### States of a run -/

/-- What a run of the script keeps: the routines of the script are at their
places, no variable stands for them but their own, and every step in the log
is one of the script's reports. -/
def Analysis.Running (a : Analysis) (x : Executable) (m : Machine) : Prop :=
  ∃ slot tracer others main, HasSnapshots x a.script.reports slot tracer others main ∧
    ∃ w, ((snapshotCore x a.script.reports tracer (others.length + 3)).recording
      a.script.reports (2, closureIn [1] slot)).At w m

theorem exists_running {x : Executable} (hx : load a.settings a.script = .ok x)
    (hasks : a.AsksForSnapshots) (inputs : List Datum) :
    ∃ l entry rs main, x.body = [.define l entry] ∧ x.routines? = some (rs ++ [main]) ∧
      a.Running x (mainStart entry (rs ++ [main]) main inputs) := by
  unfold Analysis.AsksForSnapshots at hasks
  rw [hx] at hasks
  obtain ⟨slot, tracer, others, main, h⟩ := exists_snapshots hasks
  obtain ⟨-, l, entry, -, -, hbody, hname, -⟩ := exists_ran h.toHasRoutines inputs 0
  exact ⟨l, entry, slot :: tracer :: others, main, hbody, h.routines, slot, tracer, others, main, h,
    _, recording_mainStart h hname inputs⟩

theorem Analysis.Running.execBlock {x : Executable} {m : Machine} (h : a.Running x m)
    {body : List Node}
    (hbody : obeysBlock (snapshotRules x.entryPoint a.script.reports) body = true) (fuel : Nat)
    (s : Site) : a.Running x (execBlock x fuel s body m).2 := by
  obtain ⟨slot, tracer, others, main, h, w, hm⟩ := h
  obtain ⟨w', -, hm'⟩ := (((recording_snapshotCore h).records x fuel).body hbody m hm).last
  exact ⟨slot, tracer, others, main, h, w', hm'⟩

theorem Analysis.Running.report {x : Executable} {m : Machine} (h : a.Running x m)
    (ha : Analysis.ofText settings t = .ok a) {e : Expr} {line : Nat} {args : List Expr}
    (he : e.report? = some (line, args))
    (hargs : (snapshotRules x.entryPoint a.script.reports).reports line args = true) (fuel : Nat)
    (s : Site) :
    (eval x fuel s e m).2.steps = m.steps ∨
      ∃ step ∈ a.program.steps a.scopes, step.line = line ∧
        ∃ event, (eval x fuel s e m).2.steps = m.steps ++ [event] ∧
          step.Tells a.scopes.slots (m.lacks s.frame) event := by
  obtain ⟨slot, tracer, others, main, h, w, hm⟩ := h
  cases fuel with
  | zero => exact .inl (by rfl)
  | succ fuel =>
    have hI : (((snapshotCore x a.script.reports tracer (others.length + 3)).recording
        a.script.reports (2, closureIn [1] slot)).during m.steps).Knows
          (2, closureIn [1] slot) :=
      fun hm => Core.recording_knows hm.1
    obtain ⟨views, hr, hreveals⟩ := (recording_snapshotCore h).report_reveals hI
      he hargs ⟨hm, rfl⟩ fuel
    obtain ⟨-, _, -, -, hsteps⟩ |
      ⟨w', m', shown, -, ⟨hm', hsteps⟩, ⟨vs, output, rfl, hvs, -⟩, hlast⟩ := hreveals
    · exact .inl hsteps
    · obtain ⟨-, hscript, -, -, -⟩ := parts_of_ofText ha
      rw [reports_ofProgram hscript] at hr
      obtain ⟨step, hstep, hreport⟩ := mem_map.mp hr
      obtain ⟨rfl, rfl⟩ := Report.mk.inj hreport
      refine .inr ⟨step, hstep, rfl, _, ?_,
        Step.tells_of_viewsAll hvs hm'.1.sound (m'.heap.datum output)⟩
      rw [hlast, Machine.steps_shows, hsteps]
      rfl

end Analysis

/-! ### A text -/

/-- Every variable of a scope is told as cleared. -/
def Run.TraceEvent.Clears (slots : List Slot) (scope : Text) (e : TraceEvent) : Prop :=
  Forall₂ (fun slot entry => slot.scope = scope →
    ∃ d, entry = some d ∧ d.state = .str SlotState.cleared.name) slots e.snapshot

/-- The line of a step, and the states that it tells. -/
def Run.TraceEvent.told (e : TraceEvent) : Option Int × List (Option Text) :=
  (match e.line with
    | .int n => some n
    | _ => none, e.snapshot.map fun d => d.bind (·.state.str?))

theorem Run.TraceEvent.line_of_told {e : TraceEvent} {n : Int} {states : List (Option Text)}
    (h : e.told = (some n, states)) : e.line = .int n := by
  have hline := congrArg Prod.fst h
  unfold told at hline
  split at hline
  · next heq => rw [heq, Option.some.inj hline]
  · cases hline

theorem Run.TraceEvent.Clears.told {slots : List Slot} {scope : Text} {e : TraceEvent}
    (h : e.Clears slots scope) (hslots : ∀ slot ∈ slots, slot.scope = scope) :
    e.told.2 = slots.map fun _ => some SlotState.cleared.name := by
  obtain ⟨line, snapshot, output⟩ := e
  show snapshot.map _ = _
  replace h : Forall₂ _ slots snapshot := h
  induction h with
  | nil => rfl
  | cons hentry _ ih =>
    obtain ⟨hslot, hslots⟩ := forall_mem_cons.mp hslots
    obtain ⟨d, rfl, hd⟩ := hentry hslot
    rw [map_cons, ih hslots]
    simp [hd, Datum.str?]

/-- A function that returns before it reads its variable. Its parameter has a
value by then. -/
def earlyText : Text :=
  "funcion f(a)\n  volver\n  leer x\nfin\ninicio\n  f(1)\nfin"

def earlyTold : Option Int × List (Option Text) :=
  (some 2, [some "cleared", some "unset"])

theorem completes_earlyText :
    Completes earlyText (fun a => a.AsksForSnapshots ∧ a.ReturnsAt 2 "fn:f" ∧
        a.scopes.slots = [⟨"fn:f", "a"⟩, ⟨"fn:f", "x"⟩])
      fun _ o => earlyTold ∈ o.trace.map TraceEvent.told := by
  decide +kernel

end Pseudocode
