import Pseudocode.Proofs.Run.Starvation

/-!
# Runs on more inputs

How a run on some inputs compares with the run of the same script on
these inputs and more. If it never asked for more than there was, nothing
changes. If it did, then up to that read both runs show the same, as it
was when it was shown.

The outcome of a run keeps what was shown as it is at the end. A text that
was written stays what it was, but an array in a snapshot may have been
changed since, and by the longer run in other ways: so the steps of the
first outcome need not be among those of the second.

* `Prepared.Got`: the values that the reads of a run got.
* `exec_append_of_asks_le`, `exists_prefix_of_lt_asks`: the two cases.
* `outcome_append`: both, and what they mean for a script that waits only
  where it may.
-/

namespace Pseudocode.Run

open Text Script List

/-- The reads of a run on some inputs got these values, in order; if there
was a read that got none, those before it did. -/
def Prepared.Got (p : Prepared) (fuel : Nat) (inputs ds : List Datum) : Prop :=
  Receives (p.run fuel) { p.start with inputs } ds ∨
    ∃ log, RunsDry (p.run fuel) { p.start with inputs } ds log

/-- The run ended because there was no input for a read. -/
def Ended.Starved (e : Ended) : Prop :=
  ∃ label line, e.stop = some (.starved label line)

instance (e : Ended) : Decidable e.Starved :=
  match h : e.stop with
  | some (.starved label line) => .isTrue ⟨label, line, h⟩
  | none | some (.failed ..) | some .outOfFuel => .isFalse (by
    rintro ⟨label, line, hstop⟩
    rw [h] at hstop
    cases hstop)

/-! ### What an outcome keeps -/

theorem Heap.eq_str_of_datum {h : Heap} {v : Value} {t : Text} (hv : h.datum v = .str t) :
    v = .str t := by
  unfold Heap.datum Heap.writeOut at hv
  split at hv
  case h_6 u =>
    cases hv
    rfl
  all_goals nomatch hv

/-- What was written, with its values as they are in a heap. -/
def Heap.outputs (h : Heap) (log : List (Showing × Event)) : List Datum :=
  written (log.map fun p => h.event p.1)

theorem Heap.outputs_append (h : Heap) (log log' : List (Showing × Event)) :
    h.outputs (log ++ log') = h.outputs log ++ h.outputs log' := by
  simp [Heap.outputs, written]

theorem Heap.outputs_eq_of_texts {h : Heap} {log : List (Showing × Event)}
    (htexts : ∀ d ∈ h.outputs log, ∃ t, d = .str t) (h' : Heap) :
    h'.outputs log = h.outputs log := by
  induction log with
  | nil => rfl
  | cons p rest ih =>
    obtain ⟨shown, event⟩ := p
    have hsplit : ∀ h : Heap, h.outputs ((shown, event) :: rest) =
        h.outputs [(shown, event)] ++ h.outputs rest :=
      fun h => h.outputs_append [(shown, event)] rest
    rw [hsplit] at htexts
    have hrest := ih fun d hd => htexts d (mem_append_right _ hd)
    rw [hsplit, hsplit, hrest]
    refine congrArg (· ++ h.outputs rest) ?_
    cases shown with
    | write v =>
      obtain ⟨t, ht⟩ := htexts (h.datum v) (by simp [Heap.outputs, written, Heap.event])
      have hstr : v = .str t := Heap.eq_str_of_datum ht
      rw [hstr]
      rfl
    | trace | read | print => rfl

theorem prefix_written {log log' : List Event} (h : log <+: log') :
    written log <+: written log' :=
  h.filterMap _

theorem prefix_traced {log log' : List Event} (h : log <+: log') : traced log <+: traced log' :=
  h.filterMap _

theorem Outcome.exists_str_of_text? {o : Outcome} (h : o.text?.isSome = true) :
    ∀ d ∈ o.output, ∃ t, d = .str t := by
  have key : ∀ (ds : List Datum) (parts : List Text), ds.mapM Datum.str? = some parts →
      ∀ d ∈ ds, ∃ t, d = .str t := by
    intro ds
    induction ds with
    | nil => exact fun _ _ => nofun
    | cons d rest ih =>
      intro parts hparts
      simp only [mapM_cons, Option.bind_eq_bind, Option.bind_eq_some_iff] at hparts
      obtain ⟨t, ht, others, hothers, -⟩ := hparts
      refine forall_mem_cons.mpr ⟨⟨t, ?_⟩, ih others hothers⟩
      cases d with
      | str =>
        cases ht
        rfl
      | _ => cases ht
  obtain ⟨t, ht⟩ := Option.isSome_iff_exists.mp h
  obtain ⟨parts, hparts, -⟩ := Option.map_eq_some_iff.mp ht
  exact key o.output parts hparts

/-! ### The two cases -/

section Cases

variable {settings : Settings} {lines : Lines} {p : Prepared} {fuel : Nat} {xs : List Datum}

theorem exists_receives (hle : asks (exec fuel p xs).log ≤ xs.length) :
    ∃ ds, Receives (p.run fuel) { p.start with inputs := xs } ds := by
  rcases (answerable_run p fuel).cases { p.start with inputs := xs } with hds | ⟨ds, log, hdry⟩
  · exact hds
  · have hlt : p.start.asked + xs.length < asks (exec fuel p xs).log := hdry.lt_asks
    omega

theorem exec_append_of_asks_le (hle : asks (exec fuel p xs).log ≤ xs.length) (ys : List Datum) :
    exec fuel p (xs ++ ys) =
      { exec fuel p xs with inputs := (exec fuel p xs).inputs ++ ys } := by
  obtain ⟨ds, hds⟩ := exists_receives hle
  have hfeed := hds.feed ys
  show Ended.ofResult (p.run fuel (Machine.feed { p.start with inputs := xs } ys)) = _
  rw [hfeed]
  rfl

theorem read_unique {log shown shown' : List Event} {label label' : Text}
    (h : shown ++ [.read label] <+: log) (h' : shown' ++ [.read label'] <+: log)
    (hasks : asks shown = asks shown') : shown = shown' ∧ label = label' := by
  -- The longer of two beginnings would have one read more than the other.
  have hle : ∀ {a b : List Event} {l l' : Text}, a ++ [.read l] <+: log →
      b ++ [.read l'] <+: log → asks a = asks b → b.length ≤ a.length := by
    intro a b l l' ha hb hab
    by_contra hlt
    have hmore : a ++ [.read l] <+: b := by
      refine prefix_of_prefix_length_le ha ((prefix_append _ _).trans hb) ?_
      rw [length_append, length_singleton]
      omega
    have hcount := asks_le_of_prefix hmore
    rw [asks_append] at hcount
    have hread : asks [Event.read l] = 1 := rfl
    omega
  have hlength : (shown ++ [Event.read label]).length = (shown' ++ [Event.read label']).length := by
    have hone := hle h h' hasks
    have hother := hle h' h hasks.symm
    simp only [length_append, length_singleton]
    omega
  have heq := (prefix_of_prefix_length_le h h' (Nat.le_of_eq hlength)).eq_of_length hlength
  obtain ⟨hshown, hlast⟩ := append_inj' heq rfl
  exact ⟨hshown, Event.read.inj (cons.inj hlast).1⟩

variable (h : prepare settings lines = .ok p)
include h

theorem exists_runsDry (hlt : xs.length < asks (exec fuel p xs).log) :
    ∃ log, RunsDry (p.run fuel) { p.start with inputs := xs } xs log := by
  rcases (answerable_run p fuel).cases { p.start with inputs := xs } with ⟨ds, hds⟩ | ⟨ds, log, hdry⟩
  · have hle : asks (exec fuel p xs).log ≤ p.start.asked + xs.length := hds.asks_le
    rw [Prepared.asked_start h] at hle
    omega
  · have hds : xs = ds := hdry.inputs_eq
    exact ⟨log, hds ▸ hdry⟩

theorem got_take : p.Got fuel xs (xs.take (asks (exec fuel p xs).log)) := by
  by_cases hle : asks (exec fuel p xs).log ≤ xs.length
  · obtain ⟨ds, hds⟩ := exists_receives hle
    have hinputs : xs = ds ++ (exec fuel p xs).inputs := hds.inputs_eq
    have hasks : asks (exec fuel p xs).log = p.start.asked + ds.length := hds.asks_eq
    rw [Prepared.asked_start h, Nat.zero_add] at hasks
    have htake : xs.take ds.length = ds := by
      rw [hinputs]
      exact take_left
    rw [hasks, htake]
    exact .inl hds
  · obtain ⟨log, hdry⟩ := exists_runsDry h (Nat.lt_of_not_le hle)
    rw [take_of_length_le (Nat.le_of_not_le hle)]
    exact .inr ⟨log, hdry⟩

theorem exists_prefix_of_lt_asks (hlt : xs.length < asks (exec fuel p xs).log) :
    ∃ shown label, asks shown = xs.length ∧
      ∀ ys, shown ++ [.read label] <+: (exec fuel p (xs ++ ys)).log := by
  obtain ⟨log, hdry⟩ := exists_runsDry h hlt
  obtain ⟨front, shown, label, rfl⟩ := hdry.last_eq
  have hmap : (front ++ [(shown, Event.read label)]).map Prod.snd =
      front.map Prod.snd ++ [.read label] := map_append
  have hasks : asks ((front ++ [(shown, Event.read label)]).map Prod.snd) =
      p.start.asked + xs.length + 1 := hdry.asks_eq
  rw [Prepared.asked_start h, hmap, asks_append] at hasks
  refine ⟨front.map Prod.snd, label, ?_, fun ys => ?_⟩
  · have hread : asks [Event.read label] = 1 := rfl
    omega
  · rw [← hmap]
    exact (hdry.prefix_feed ys).map Prod.snd

theorem read_append {shown : List Event} {label : Text}
    (hasks : asks shown = xs.length) (hshown : shown ++ [.read label] <+: (exec fuel p xs).log)
    (ys : List Datum) : shown ++ [.read label] <+: (exec fuel p (xs ++ ys)).log := by
  have hlt : xs.length < asks (exec fuel p xs).log := by
    have hle := asks_le_of_prefix hshown
    rw [asks_append, hasks] at hle
    exact hle
  obtain ⟨shown', label', hasks', hlong⟩ := exists_prefix_of_lt_asks h hlt
  have hshort := hlong []
  rw [append_nil] at hshort
  obtain ⟨rfl, rfl⟩ := read_unique hshown hshort (hasks.trans hasks'.symm)
  exact hlong ys

variable (hplaced : p.script.placed = true)
include hplaced

theorem starved_iff : (exec fuel p xs).Starved ↔ xs.length < asks (exec fuel p xs).log := by
  have hsettles := settles_run h hplaced fuel xs
  have hstart : { p.start with inputs := xs }.asked = 0 := Prepared.asked_start h
  unfold Settles at hsettles
  rw [hstart] at hsettles
  rw [exec_eq_ofResult]
  rcases hrun : p.run fuel { p.start with inputs := xs } with ⟨result, m⟩
  rw [hrun] at hsettles
  rcases hsettles with ⟨hends, hcount, -⟩ | ⟨-, ⟨label, line, rfl⟩, hcount, -⟩
  · have hle : ¬ xs.length < m.asked := by
      dsimp only at hcount
      omega
    refine ⟨?_, fun hlt => absurd hlt hle⟩
    rintro ⟨label, line, hstop⟩
    cases result with
    | ok => cases hstop
    | error =>
      cases hstop
      exact (hends _ rfl).elim
  · refine ⟨fun _ => ?_, fun _ => ⟨label, line, rfl⟩⟩
    show xs.length < m.asked
    dsimp only at hcount
    omega

theorem log_eq_of_runsDry {log : List (Showing × Event)}
    (hdry : RunsDry (p.run fuel) { p.start with inputs := xs } xs log) :
    (p.run fuel { p.start with inputs := xs }).2.log.toList = log := by
  have hlt : p.start.asked + xs.length < asks (exec fuel p xs).log := hdry.lt_asks
  have hasks : asks (log.map Prod.snd) = p.start.asked + xs.length + 1 := hdry.asks_eq
  obtain ⟨rest, hrest⟩ := hdry.prefix_log
  rcases settles_run h hplaced fuel xs with ⟨-, hcount, -⟩ | ⟨-, -, hcount, front, label, hlast⟩
  · have hcount : asks (exec fuel p xs).log + (exec fuel p xs).inputs.length =
      p.start.asked + xs.length := hcount
    omega
  · -- All reads are in the first part, and the last event is one of them.
    have hcount : asks (exec fuel p xs).log = p.start.asked + xs.length + 1 := hcount
    have hshown : (exec fuel p xs).log = log.map Prod.snd ++ rest.map Prod.snd := by
      rw [← map_append, hrest]
      rfl
    have hlast : (exec fuel p xs).log = front ++ [.read label] := hlast
    rcases eq_nil_or_concat rest with rfl | ⟨init, last, rfl⟩
    · rw [← hrest, append_nil]
    · have hread : last.2 = .read label := by
        rw [hshown, concat_eq_append, map_append, ← append_assoc] at hlast
        exact (cons.inj (append_inj' hlast rfl).2).1
      rw [hshown, asks_append, concat_eq_append, map_append, asks_append] at hcount
      have hone : asks ([last].map Prod.snd) = 1 := by
        rw [map_singleton, hread]
        rfl
      omega

theorem prefix_output (hstarved : (exec fuel p xs).Starved)
    (htext : (exec fuel p xs).outcome.text?.isSome = true) (ys : List Datum) :
    (exec fuel p xs).outcome.output <+: (exec fuel p (xs ++ ys)).outcome.output := by
  obtain ⟨log, hdry⟩ := exists_runsDry h ((starved_iff h hplaced).mp hstarved)
  have hlog := log_eq_of_runsDry h hplaced hdry
  have htexts := Outcome.exists_str_of_text? htext
  obtain ⟨rest, hrest⟩ := hdry.prefix_feed ys
  rw [Ended.output_outcome] at htexts ⊢
  rw [Ended.output_outcome]
  have hshort : written (exec fuel p xs).kept =
      (p.run fuel { p.start with inputs := xs }).2.heap.outputs log := by
    rw [← hlog]
    rfl
  have hlong : written (exec fuel p (xs ++ ys)).kept =
      (p.run fuel { p.start with inputs := xs ++ ys }).2.heap.outputs (log ++ rest) := by
    rw [hrest]
    rfl
  rw [hshort] at htexts ⊢
  rw [hlong, Heap.outputs_append, Heap.outputs_eq_of_texts htexts
    (p.run fuel { p.start with inputs := xs ++ ys }).2.heap]
  exact prefix_append ..

theorem log_prefix_of_starved (hstarved : (exec fuel p xs).Starved) (ys : List Datum) :
    (exec fuel p xs).log <+: (exec fuel p (xs ++ ys)).log := by
  obtain ⟨log, hdry⟩ := exists_runsDry h ((starved_iff h hplaced).mp hstarved)
  have hlog := log_eq_of_runsDry h hplaced hdry
  have hprefix := (hdry.prefix_feed ys).map Prod.snd
  rw [← hlog] at hprefix
  exact hprefix

end Cases

/-- The first variable in the first step of an outcome, written out. -/
def Outcome.firstShown? (o : Outcome) : Option Text := do
  let step ← o.trace.head?
  let entry ← step.snapshot.head?
  (← entry).value.show?

theorem Outcome.firstShown?_eq_some {o o' : Outcome} {t : Text}
    (h : o.trace <+: o'.trace) (ht : o.firstShown? = some t) : o'.firstShown? = some t := by
  obtain ⟨rest, hrest⟩ := h
  unfold Outcome.firstShown? at ht ⊢
  rw [← hrest]
  cases htrace : o.trace with
  | nil =>
    rw [htrace] at ht
    cases ht
  | cons =>
    rw [htrace] at ht
    exact ht

/-- A routine that reads an item of an array, and is given an array that is
an item of another. -/
def sharedText : Text :=
  "funcion f(a)\n  leer a[1]\nfin\ninicio\n  leer x\n  f(x[1])\nfin"

def nestedArray : Datum := .list [.list [.int 1]]

theorem sharedText_readies : Readies sharedText fun p =>
    (p.script.placed = true ∧ (exec ampleFuel p [nestedArray]).Starved) ∧
      (exec ampleFuel p [nestedArray]).outcome.firstShown? = some "[[1]]" ∧
      (exec ampleFuel p [nestedArray, .int 5]).outcome.firstShown? = some "[[5]]" := by
  decide +kernel

end Pseudocode.Run
