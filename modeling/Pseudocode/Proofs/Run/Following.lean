import Pseudocode.Proofs.Flow.Met
import Pseudocode.Proofs.Run.Entry

/-!
# A run follows the chart

The script of a program and the chart of its main body are made in two
passes of their own. A run of the script reports the steps of the main body
in the order in which a walk through the chart meets them.

* `Outcome.stepsOf`: the steps of a body that an outcome reports.
* `EndsMain`: how the statements of the main routine ended in a run.
* `run_follows_chart`: for a nested main body and a script that is read as
  it was written, the steps reported are the first ones that some walk
  meets. If the run is completed, they are all that a walk meets up to the
  end node or, if the main routine was left by a `volver`, up to the node of
  a `volver`.
-/

namespace Pseudocode.Run

open Text Script List

/-! ### The steps of an outcome -/

def TraceEvent.line? (e : TraceEvent) : Option Nat :=
  match e.line with
  | .int (.ofNat n) => some n
  | _ => none

def Outcome.stepsOf (body : List Statement) (o : Outcome) : List Nat :=
  (o.trace.filterMap TraceEvent.line?).filter (body.map Statement.line).contains

/-- The statements of the main routine, begun in the state and the frame in
which a run on some inputs begins them, end in a way and leave the steps of an
outcome. -/
def EndsMain (x : Executable) (inputs : List Datum) (o : Outcome) (flow : Flow) : Prop :=
  ∃ l entry rs main fuel s, x.body = [.define l entry] ∧ x.routines? = some rs ∧
    rs.getLast? = some main ∧ s.frame + 1 = (mainStart entry rs main inputs).frames.size ∧
      (execBlock x fuel s main.body (mainStart entry rs main inputs)).1 = .ok flow ∧
        o.trace =
          traced (execBlock x fuel s main.body (mainStart entry rs main inputs)).2.kept

theorem line?_event (h : Heap) (shown : Showing) :
    (match h.event shown with
      | .trace e => e.line?
      | _ => none) = shown.line? := by
  cases shown with
  | trace line =>
    cases line with
    | int n => cases n <;> rfl
    | _ => rfl
  | _ => rfl

theorem filterMap_traced_kept (m : Machine) :
    (traced m.kept).filterMap TraceEvent.line? = m.log.toList.filterMap fun p => p.1.line? := by
  unfold traced Machine.kept
  rw [filterMap_filterMap, filterMap_map]
  congr 1
  funext p
  rw [← line?_event m.heap p.1, Function.comp_apply]
  cases m.heap.event p.1 <;> rfl

theorem stepsOf_eq_counted {k : Core} {body : List Statement} {o : Outcome} {m : Machine}
    (hlines : k.lines = body.map Statement.line) (htrace : o.trace = traced m.kept) :
    o.stepsOf body = k.counted m := by
  unfold Outcome.stepsOf Core.counted
  rw [htrace, filterMap_traced_kept, hlines]

theorem outcome_exec {fuel : Nat} {p : Prepared} {inputs : List Datum} {r : Except Stop Value}
    {m : Machine} (hrun : p.run fuel { p.start with inputs } = (r, m)) :
    (exec fuel p inputs).outcome.trace = traced m.kept ∧
      ((exec fuel p inputs).outcome.status = .completed → ∃ v, r = .ok v) := by
  rw [exec_eq_ofResult, hrun]
  refine ⟨Ended.trace_outcome _, fun hstatus => ?_⟩
  cases r with
  | ok v => exact ⟨v, rfl⟩
  | error stop => cases stop <;> cases hstatus

/-! ### Runs and walks -/

section Following

variable {b : Body}

/-- The steps of an outcome are those that a walk meets up to where the
statements of the body ended: the end node, or the node of a `volver`. -/
def EndsLike (body : List Statement) (o : Outcome) (flow : Flow) : Prop :=
  ∃ answers m, o.stepsOf body = met body answers m ∧
    (flow = .next ∧ ((Flow.Chart.ofBody body).walk answers m).node =
        (Flow.Chart.ofBody body).size - 1 ∨
      (∃ v, flow = .leftScope v) ∧ ∃ i s, body[i]? = some s ∧ s.kind = .returnScope ∧
        ((Flow.Chart.ofBody body).walk answers m).node = nodeOf body i)

/-- The steps of an outcome follow a walk through the chart of a body. -/
structure Follows (b : Body) (x : Executable) (inputs : List Datum) (o : Outcome) : Prop where
  partly : ∃ answers m, o.stepsOf b.statements <+: met b.statements answers m
  wholly : o.status = .completed →
    ∃ flow, EndsMain x inputs o flow ∧ EndsLike b.statements o flow

theorem nil_prefix_met (body : List Statement) : ∃ answers m, [] <+: met body answers m :=
  ⟨fun _ => false, 0, nil_prefix⟩

theorem counted_eq_nil {k : Core} {m : Machine} (h : m.log = #[]) : k.counted m = [] := by
  unfold Core.counted
  rw [h]
  rfl

theorem exec_follows {x : Executable} {slot tracer main : Routine} {others : List Routine}
    (h : HasForm x (b.statements.map Statement.line) b slot tracer others main)
    (inputs : List Datum) (fuel : Nat) :
    ∃ p, Prepared.ofExecutable x = .ok p ∧ Follows b x inputs (exec fuel p inputs).outcome := by
  obtain ⟨p, l, entry, hp, rfl, hbody, hname, hran⟩ := exists_ran h.toHasRoutines inputs fuel
  refine ⟨p, hp, ?_⟩
  rcases hrun : p.run fuel { p.start with inputs } with ⟨r, m⟩
  obtain ⟨htrace, hcompleted⟩ := outcome_exec hrun
  rw [hrun] at hran
  obtain ⟨hsteady, hnone⟩ := steady_mainStart h hname inputs
  generalize hk : coreOf p.script (b.statements.map Statement.line) tracer (others.length + 3) = k
    at hsteady
  have hlines : k.lines = b.statements.map Statement.line := by rw [← hk]; rfl
  have hsteps := stepsOf_eq_counted hlines htrace
  cases hran with
  | early hlog =>
    rw [counted_eq_nil hlog] at hsteps
    refine ⟨?_, fun hstatus => ?_⟩
    · rw [hsteps]
      exact nil_prefix_met _
    · obtain ⟨v, hv⟩ := hcompleted hstatus
      cases hv
  | @block fuel' s _ _ hframe hended hlog hheap =>
    generalize hstart : mainStart entry (slot :: tracer :: (others ++ [main])) main inputs = start
      at hsteady hnone hframe hended hlog hheap
    have htakes : k.Takes Core.Ends (execBlock p.script fuel' s main.body) b.ways := by
      rw [← hk]
      exact Core.blockTakes_body (tracing_coreOf h.toHasRoutines) h.mirrors
        (fun s hs => mem_map_of_mem hs) fuel' s
    -- Nothing was reported before the main routine and after it.
    have hcounted : ∀ ls, k.counted (execBlock p.script fuel' s main.body start).2 =
        k.counted start ++ ls → (exec fuel p inputs).outcome.stepsOf b.statements = ls := by
      intro ls hls
      rw [counted_eq_nil hnone, nil_append] at hls
      rw [hsteps, ← hls]
      unfold Core.counted
      rw [hlog]
    refine ⟨?_, fun hstatus => ?_⟩
    · obtain ⟨ls, ls₀, hls, hprefix, hpartly⟩ := htakes.partly start hsteady
      obtain ⟨answers, n, hmet, -⟩ := exists_walk_met hls
      exact ⟨answers, n, by rwa [hcounted ls₀ hpartly, hmet]⟩
    · obtain ⟨v, hv⟩ := hcompleted hstatus
      obtain ⟨flow, hflow⟩ := hended v hv
      refine ⟨flow, ⟨l, entry, _, main, fuel', s, hbody, h.routines, ?_, ?_⟩, ?_⟩
      · show (slot :: tracer :: others ++ [main]).getLast? = some main
        exact getLast?_concat ..
      · rw [hstart, htrace]
        refine ⟨hframe, hflow, ?_⟩
        unfold Machine.kept
        rw [hlog, hheap]
      · obtain ⟨hleft, ls, hls, hwhole⟩ | ⟨hend, -, ls, hls, hwhole⟩ :=
          htakes.wholly start hsteady flow hflow
        · obtain ⟨answers, n, i, t, hmet, ht, hkind, hnode⟩ := exists_walk_left hls
          exact ⟨answers, n, by rw [hcounted ls hwhole, hmet], .inr ⟨hleft, i, t, ht, hkind, hnode⟩⟩
        · obtain ⟨answers, n, hmet, hnode⟩ := exists_walk_met hls
          exact ⟨answers, n, by rw [hcounted ls hwhole, hmet], .inl ⟨hend, hnode⟩⟩

end Following

/-- A text with a counted loop that is left by a `volver`. -/
def countedText : Text :=
  "inicio\n  entero i\n  para i desde 1 hasta 3 hacer\n    si i == 2\n      entonces\n" ++
    "        volver\n    finsi\n    escribir i\n  finpara\nfin"

/-- A text with two calls whose arguments are three quotation marks each, so
that its script is read with all that stands between them as one argument. -/
def hiddenText : Text :=
  "funcion f(a)\nfin\ninicio\n  f(\"\"\")\n  escribir \"x\"\n  f(\"\"\")\n  escribir \"y\"\nfin"

def hiddenMain : List Statement :=
  [⟨"f(\"\"\")", 4, .call "f"⟩, ⟨"escribir \"x\"", 5, .write "\"x\""⟩,
    ⟨"f(\"\"\")", 6, .call "f"⟩, ⟨"escribir \"y\"", 7, .write "\"y\""⟩]

/-- The first text is left in the second round of its loop. The second one
comes to its end without the first of its two outputs. -/
theorem completes_texts :
    Completes countedText (fun a => WellNested a.program.main ∧ a.ReadAsWritten)
        (fun a o => o.stepsOf a.program.main = [2, 3, 8, 3]) ∧
      Completes hiddenText (fun a => a.program.main = hiddenMain)
        (fun a o => o.stepsOf a.program.main = [7]) := by
  decide +kernel

/-- No walk meets the second output of the second text first: there is one
walk, and it comes to the end having met the first output and then the
second. -/
theorem not_prefix_met_hiddenMain (answers : Nat → Bool) (m : Nat) :
    ¬ [7] <+: met hiddenMain answers m := by
  intro h
  have hlater := h.trans (met_prefix_met_add hiddenMain answers m 5)
  rw [met_eq_of_no_decision (by decide +kernel) answers fun _ => false, Nat.add_comm,
    met_add_of_ways_eq_nil (by decide +kernel)] at hlater
  exact absurd hlater (by decide +kernel)

end Pseudocode.Run
