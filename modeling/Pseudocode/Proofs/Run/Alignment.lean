import Pseudocode.Proofs.Run.Entry
import Pseudocode.Proofs.Run.Snapshots
import Pseudocode.Proofs.Script.Steps
import Pseudocode.Proofs.Session.Shown
import Pseudocode.Proofs.Variables

/-!
# Snapshots are aligned with the slots

A step that a run reports is one of the program, and its snapshot has one
entry for each slot: that of a variable of the step's scope tells its state,
and all others are left out.

* `snapshotCore`: the core of a run whose snapshots are followed.
  `recording_mainStart` says that the main routine begins with it.
* `exec_matches`: the steps of any run of a script that asks for snapshots
  are those of its reports.
* `Step.Aligned`: what is shown of a step.
* `steps_aligned`: the steps that are shown by any run, or by any session with
  runs of one program, are aligned.
-/

namespace Pseudocode.Run

open Text Script List

/-! ### The core for snapshots -/

def snapshotCore (x : Executable) (reports : List Report) (tracer : Routine) (count : Nat) : Core :=
  { coreOf x [] tracer count with
    extra := [("__slot", [.routine 2])]
    loose := ["snapshot"]
    unbound := ["isinstance", "list"]
    reports := (snapshotRules x.entryPoint reports).reports }

/-- The world in which the main routine begins. -/
def snapshotStart (k : Core) (slot : Routine) (count : Nat) : k.World :=
  ⟨some (count + 3), [(2, .closure (closureIn [1] slot))]⟩

section Start

variable {x : Executable} {reports : List Report} {slot tracer main : Routine}
  {others : List Routine}

theorem Core.lookup_bindings {k : Core} {name : Text} (h : name ∉ coreNames k.entryPoint) :
    k.bindings.lookup name = k.extra.lookup name := by
  simp only [coreNames, mem_cons, not_or, not_mem_nil, not_false_eq_true, and_true] at h
  obtain ⟨hio, htrace, hmain, hhook, hgetattr, hentry⟩ := h
  simp only [Core.bindings, lookup_cons, beq_false_of_ne hio, beq_false_of_ne htrace,
    beq_false_of_ne hmain, beq_false_of_ne hhook, beq_false_of_ne hgetattr,
    beq_false_of_ne hentry]

theorem mayBind_snapshotRules {name : Text} (hname : name ∉ snapshotNames "")
    (hunbound : name ∉ ["isinstance".toList, "list"]) (hentry : name ≠ x.entryPoint) :
    (snapshotRules x.entryPoint reports).mayBind name = true := by
  rw [snapshotNames, mem_append, not_or] at hname
  refine Rules.mayBind_iff.mpr ⟨?_, hunbound⟩
  show name ∉ coreNames x.entryPoint ++ _
  rw [mem_append, not_or]
  exact ⟨not_mem_coreNames hname.1 hentry, hname.2⟩

theorem isOf_snapshotCore (h : x.entryPoint ∉ slotNames) (count : Nat) :
    (snapshotCore x reports tracer count).IsOf x tracer count := by
  refine ⟨rfl, rfl, rfl, rfl, rfl, fun name hname => ?_⟩
  -- Only the name of the script's own routine could be one of the two.
  show name ∉ ["isinstance".toList, "list"]
  simp only [slotNames, mem_cons, not_or] at h
  simp only [coreNames, mem_cons, not_mem_nil, or_false] at hname
  rcases hname with rfl | rfl | rfl | rfl | rfl | rfl
  · decide
  · decide
  · decide
  · decide
  · decide
  · simp only [mem_cons, not_mem_nil, or_false, not_or]
    exact ⟨h.2.1, h.2.2.1⟩

variable (h : HasSnapshots x reports slot tracer others main)
include h

theorem recording_snapshotCore :
    (snapshotCore x reports tracer (others.length + 3)).Recording reports
      (2, closureIn [1] slot) := by
  have hisSlot := h.isSlot
  simp only [RoutineOf.isSlot, Bool.and_eq_true] at hisSlot
  have hreserved {name : Text} (hname : name ∈ reservedNames) : name ≠ x.entryPoint :=
    ne_of_mem_of_not_mem hname h.entryPoint
  have hapart {name : Text} (hname : name ∈ slotNames) : name ≠ x.entryPoint :=
    ne_of_mem_of_not_mem hname h.apart
  refine ⟨rfl, ⟨h.isSlot, ?_, ?_, by simp [snapshotCore], by simp [snapshotCore]⟩, ?_, h.isTracer,
    h.snapshot, initials_tracer h.toHasRoutines, ⟨by simp [snapshotCore], ?_⟩, fun _ => trivial,
    ?_, ?_⟩
  · show constants (initialExprs slot.params) = _
    rw [eq_slotParams hisSlot.1.2]
    rfl
  · simp only [slotParams, forall_mem_cons]
    exact ⟨mayBind_snapshotRules (by decide) (by decide) (hapart (by decide)),
      mayBind_snapshotRules (by decide) (by decide) (hapart (by decide)), forall_mem_nil _⟩
  · rw [Core.lookup_bindings (not_mem_coreNames (by decide) (hapart (by decide)))]
    rfl
  · rw [Core.lookup_bindings (not_mem_coreNames (by decide) (hreserved (by decide)))]
    rfl
  · exact mayBind_snapshotRules (by decide) (by decide) (hreserved (by decide))
  · exact mayBind_snapshotRules (by decide) (by decide) (hreserved (by decide))

theorem fits_snapshotCore {p : Text × Value}
    (hp : Initial x (slot :: tracer :: (others ++ [main])) p) :
    (snapshotStart (snapshotCore x reports tracer (others.length + 3)) slot
      (others.length + 3)).Fits p := by
  have hk : (snapshotCore x reports tracer (others.length + 3)).IsOf x tracer (others.length + 3) :=
    isOf_snapshotCore h.apart _
  refine fits_initial hk h.entryPoint
    (fun hname => mayBind_snapshotRules (by decide) (by decide) hname.symm)
    (mayBind_snapshotRules (by decide) (by decide) fun heq => h.entryPoint (heq ▸ by decide))
    (fun hr => fits_routines hk h.toHasRoutines ?_ (fun i r hi => ?_) hr) hp
  · rw [h.slot_name]
    refine ⟨by simp [snapshotCore], ?_⟩
    rw [(recording_snapshotCore h).binding]
    exact mem_singleton_self _
  · have hlt := (List.getElem?_eq_some_iff.mp hi).1
    refine Core.World.fits_of_tame ⟨h.names r (mem_of_getElem? hi), ?_, ?_, ?_⟩
    · show _ ∉ [0, 1, 3, _, _]
      simp only [mem_cons, not_mem_nil, or_false]
      omega
    · rintro n ⟨⟩
      omega
    · intro o ho
      have haddress := congrArg Prod.fst (mem_singleton.mp ho)
      omega

theorem recording_mainStart {entry : Routine}
    (hname : entry.name = x.entryPoint) (inputs : List Datum) :
    ((snapshotCore x reports tracer (others.length + 3)).recording reports
      (2, closureIn [1] slot)).At (snapshotStart _ slot (others.length + 3))
        (mainStart entry (slot :: tracer :: (others ++ [main])) main inputs) := by
  obtain ⟨hobjects, hvars, hlog⟩ := of_mainStart h.entryPoint hname main inputs
    fun _ => fits_snapshotCore h
  refine ⟨⟨?_, hvars⟩, rfl, mem_singleton_self _, fun p hp => ?_⟩
  -- The routine that describes a variable is at address 2, which is not open.
  · refine sound_of_objects (isOf_snapshotCore h.apart _) entry hobjects (fun hopen => ?_)
      (fun _ r hr _ => tame_closureIn (h.obeys r (mem_of_getElem? hr))) ?_ ?_
    · exact absurd (mem_singleton_self _) (hopen.unseen _)
    · rintro n ⟨⟩
      rw [hobjects]
      simp [scriptObjects]
    · refine forall_mem_singleton.mpr ?_
      rw [hobjects]
      simp [scriptObjects]
  · rw [hlog] at hp
    exact absurd hp (Array.not_mem_empty p)

/-! ### Runs -/

theorem exec_matches :
    ∃ p, Prepared.ofExecutable x = .ok p ∧ ∀ fuel inputs e,
      .trace e ∈ (exec fuel p inputs).log ∨ .trace e ∈ (exec fuel p inputs).kept →
        ∃ r ∈ reports, r.Matches e := by
  obtain ⟨p, hp, hshown⟩ := exec_shown h.toHasRoutines
    (fun entry inputs hname => recording_mainStart h hname inputs)
    (fun fuel s => ((recording_snapshotCore h).records x fuel).body h.main_obeys)
  refine ⟨p, hp, fun fuel inputs e he => ?_⟩
  obtain ⟨w, m, hm, shown, hmem, hevent⟩ := hshown fuel inputs (.trace e) he
  exact Core.recording_matches hm hmem hevent

end Start

end Pseudocode.Run

namespace Pseudocode

open Run Script

/-! ### Alignment -/

/-- What is shown of a step: its line, and one entry for each slot in order.
The entry of a variable of the step's scope tells its state, and the others
are left out. -/
structure Step.Aligned (slots : List Slot) (step : Step) (e : TraceEvent) : Prop where
  line : e.line = .int step.line
  snapshot : List.Forall₂ (fun slot entry =>
    if slot.scope = step.scope then ∃ d, entry = some d ∧ d.Tells (step.state slot.name)
    else entry = none) slots e.snapshot

theorem Step.aligned_of_matches {slots : List Slot} {step : Step} {e : TraceEvent}
    (h : (step.report slots).Matches e) : step.Aligned slots e := by
  refine ⟨h.line, (List.forall₂_map_left_iff.mp h.snapshot).imp fun slot entry hentry => ?_⟩
  split
  · next hscope => rwa [if_pos hscope] at hentry
  · next hscope => rwa [if_neg hscope] at hentry

def Analysis.Aligned (a : Analysis) (e : TraceEvent) : Prop :=
  ∃ step ∈ a.program.steps a.scopes, step.Aligned a.scopes.slots e

section Analysis

variable {settings : Settings} {t : Text} {a : Analysis}

section

variable (ha : Analysis.ofText settings t = .ok a) (hasks : a.AsksForSnapshots)
include ha hasks

theorem exists_prepared_aligned {x : Executable} (hload : load a.settings a.script = .ok x) :
    ∃ p, prepare a.settings a.script = .ok p ∧ p.Tells a.Aligned := by
  obtain ⟨-, hscript, -, -, -⟩ := parts_of_ofText ha
  unfold Analysis.AsksForSnapshots at hasks
  rw [hload] at hasks
  obtain ⟨slot, tracer, others, main, h⟩ := exists_snapshots hasks
  obtain ⟨p, hp, hmatches⟩ := exec_matches h
  have haligned : ∀ inputs e, .trace e ∈ (exec ampleFuel p inputs).log ∨
      .trace e ∈ (exec ampleFuel p inputs).kept → a.Aligned e := by
    intro inputs e he
    obtain ⟨r, hr, hr'⟩ := hmatches ampleFuel inputs e he
    rw [reports_ofProgram hscript] at hr
    obtain ⟨step, hstep, rfl⟩ := List.mem_map.mp hr
    exact ⟨step, hstep, Step.aligned_of_matches hr'⟩
  exact ⟨p, prepare_eq_ok_iff.mpr ⟨x, hload, hp⟩, fun inputs =>
    ⟨fun e he => haligned inputs e (.inl he), fun e he => haligned inputs e (.inr he)⟩⟩

theorem tells_aligned
    {p : Prepared} (hp : prepare a.settings a.script = .ok p) : p.Tells a.Aligned := by
  obtain ⟨x, hload, -⟩ := prepare_eq_ok_iff.mp hp
  obtain ⟨p', hp', htells⟩ := exists_prepared_aligned ha hasks hload
  obtain rfl : p = p' := Except.ok.inj (hp.symm.trans hp')
  exact htells

theorem exists_outcome_aligned (inputs : List Datum) :
    ∃ o, runScript a.settings a.script inputs = .ok o ∧ ∀ e ∈ o.trace, a.Aligned e := by
  unfold runScript
  cases hload : load a.settings a.script with
  | ok =>
    obtain ⟨p, hp, htells⟩ := exists_prepared_aligned ha hasks hload
    rw [hp]
    refine ⟨_, rfl, ?_⟩
    rw [Ended.trace_outcome]
    exact Finish.shows_ofLog (htells inputs).2 .completed none
  | error fault =>
    unfold Analysis.AsksForSnapshots at hasks
    rw [hload] at hasks
    cases fault with
    | nullCharacter => cases hasks
    | invalid =>
      unfold prepare
      rw [hload]
      exact ⟨_, rfl, nofun⟩

end

end Analysis

theorem Analysis.Aligned.length_eq {a : Analysis} {e : TraceEvent} (h : a.Aligned e) :
    e.snapshot.length = a.scopes.slots.length := by
  obtain ⟨step, -, haligned⟩ := h
  exact haligned.snapshot.length_eq.symm

/-! ### Two texts -/

/-- The states that the steps of an outcome tell, one for each slot. -/
def Run.Outcome.states (o : Outcome) : List (List (Option Text)) :=
  o.trace.map fun e => e.snapshot.map fun d => d.bind (·.state.str?)

/-- A text with two functions of one name. The second one is called in a
counted loop, and one of its variables never has a value. -/
def repeatedText : Text :=
  "funcion f(a)\nfin\nfuncion f(a)\n  entero b\n  si b > 0\n    entonces\n      leer c\n" ++
    "  finsi\n  volver\nfin\ninicio\n  entero i\n  para i desde 1 hasta 1 hacer\n    f(i)\n" ++
    "  finpara\nfin"

/-- What its run tells: `i` of main, the `a` of the first function, and the
`a`, `b` and `c` of the second one. -/
def repeatedStates : List (List (Option Text)) :=
  [[some "value", none, none, none, none],
    [some "forced", none, none, none, none],
    [none, none, some "value", some "unset", some "unset"],
    [none, none, some "value", some "value", some "unset"],
    [none, none, some "cleared", some "cleared", some "unset"]]

/-- A text with a call that reports a step by itself. -/
def hostText : Text :=
  "inicio\n  entero x\n  str(io.trace(99, []))\nfin"

/-- The steps of the first text tell these states. The call in the second one
reports a step with a snapshot of no slot. -/
theorem completes_repeatedText_hostText :
    Completes repeatedText Analysis.AsksForSnapshots (fun _ o => o.states = repeatedStates) ∧
      Completes hostText (fun a => a.scopes.slots.length = 1)
        fun _ o => ∃ e ∈ o.trace, e.snapshot = [] := by
  decide +kernel

end Pseudocode
