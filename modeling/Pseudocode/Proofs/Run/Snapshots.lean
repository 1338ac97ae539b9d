import Pseudocode.Proofs.Run.Slot

/-!
# Steps are shown with the snapshots that were written

A snapshot is known to the log alone: the dictionaries in it and the list of
them join the core as they are made, so nothing changes them until the end
of the run. What the log tells of a step is therefore the same when it is
shown and at the end.

* `SlotView.Matches`, `Report.Matches`: the entries of a snapshot are those
  that a report asks for. `Core.World.Views` is the same for values, given
  the variables without one, and `Core.World.ShowsAll` leaves open which
  these are.
* `Core.recording`: the invariant that every step in the log is that of one
  of some reports.
* `Core.Recording`: the core has what a report needs. `report_reveals` says
  what a report shows in one state, and `records` that code which keeps to
  the rules keeps the invariant.
-/

namespace Pseudocode

open Text Script

variable {e : Expr} {v : Run.Value} {view : SlotView} {views : List SlotView} {vs : List Run.Value}

/-! ### What was written and what is shown -/

/-- The entry tells that a variable is without a value, or that it is in a
state. -/
def Run.Entry.Tells (state : SlotState) (d : Run.Entry) : Prop :=
  d.state = .str "unset" ∧ d.value = .nothing ∨ d.state = .str state.name

def Script.SlotView.Matches : SlotView → Option Run.Entry → Prop
  | .elsewhere, d => d = none
  | .shown _ state, d => ∃ entry, d = some entry ∧ entry.Tells state

structure Script.Report.Matches (r : Report) (e : Run.TraceEvent) : Prop where
  line : e.line = .int r.line
  snapshot : List.Forall₂ SlotView.Matches r.views e.snapshot

namespace Run

open Realm

variable {h : Heap}

theorem Heap.ofDatum?_description {a : Nat} {state : Text} {u : Value}
    (ha : h.objects[a]? = some (.entries (description state u))) :
    Entry.ofDatum? (h.datum (.dict a)) = some ⟨.str state, h.writeOut h.objects.size u⟩ := by
  have hentries : h.entries a = description state u := by
    rw [Heap.entries, ha]
  unfold Heap.datum
  rw [Heap.writeOut, hentries]
  simp only [description, List.map_cons, Heap.writeOut]
  rfl

namespace Core

variable {lacks : Text → Bool} {reports : List Report} {slot : Nat × Closure} {k : Core}

namespace World

variable {k : Core} {w w' : k.World}

/-- The value is what a view of a slot asks for, if the variables that lack
a value are these. -/
def Views (w : k.World) (lacks : Text → Bool) : SlotView → Value → Prop
  | .elsewhere, v => v = .nothing
  | .shown name state, v => w.Tells (lacks name) state.name v

theorem Views.mono (h : w.Views lacks view v) (hle : w ≤ w') : w'.Views lacks view v := by
  cases view with
  | elsewhere => exact h
  | shown => exact Tells.mono h hle

theorem Views.matches (hv : w.Views lacks view v) (hs : w.Sound h) :
    view.Matches (Entry.ofDatum? (h.datum v)) := by
  cases view with
  | elsewhere =>
    obtain rfl : v = .nothing := hv
    rfl
  | shown name =>
    obtain ⟨a, u, rfl, hu, ha⟩ := hv
    refine ⟨_, Heap.ofDatum?_description (hs.shown _ ha), ?_⟩
    cases hlacks : lacks name with
    | false => exact .inr rfl
    | true =>
      obtain rfl := hu hlacks
      exact .inl ⟨rfl, by simp only [Heap.writeOut]⟩

/-- The values are what the views of a snapshot ask for. -/
abbrev ViewsAll (w : k.World) (lacks : Text → Bool) (views : List SlotView) (vs : List Value) :
    Prop :=
  List.Forall₂ (w.Views lacks) views vs

theorem ViewsAll.mono (h : w.ViewsAll lacks views vs) (hle : w ≤ w') : w'.ViewsAll lacks views vs :=
  h.imp fun _ _ hv => hv.mono hle

/-- The values are what the views of a snapshot ask for, whichever variables
lack a value. -/
abbrev ShowsAll (w : k.World) (views : List SlotView) (vs : List Value) : Prop :=
  ∃ lacks, w.ViewsAll lacks views vs

theorem ShowsAll.mono (h : w.ShowsAll views vs) (hle : w ≤ w') : w'.ShowsAll views vs :=
  h.imp fun _ hvs => hvs.mono hle

/-- The value is a list that only the log knows, with what the views of a
snapshot ask for. -/
def Pictures (w : k.World) (lacks : Text → Bool) (views : List SlotView) (v : Value) : Prop :=
  ∃ a vs, v = .list a ∧ (a, .cells vs.toArray) ∈ w.shown ∧ w.ViewsAll lacks views vs

theorem Pictures.mono (h : w.Pictures lacks views v)
    (hle : w ≤ w') : w'.Pictures lacks views v := by
  obtain ⟨a, vs, rfl, ha, hvs⟩ := h
  exact ⟨a, vs, rfl, hle.shown _ ha, hvs.mono hle⟩

theorem Pictures.valuesOf_safe
    (h : w.Pictures lacks views v) : Safe w (valuesOf v) (w.ViewsAll lacks views) := by
  obtain ⟨a, vs, rfl, ha, hvs⟩ := h
  refine .get_bind fun h hs => .pure ?_
  -- The list is known to the log only, so its cells are those it was made with.
  have hcells : h.cells a = vs.toArray := by
    rw [Heap.cells, hs.shown _ ha]
  rw [hcells]
  exact hvs

/-- A step is shown as one of some reports asks for, both as it was written
out and as values, which are written out again at the end. -/
structure Logged (w : k.World) (reports : List Report) (p : Showing × Event) : Prop where
  event : ∀ e, p.2 = .trace e → ∃ r ∈ reports, r.Matches e
  values : ∀ line vs output, p.1 = .trace line vs output →
    ∃ r ∈ reports, line = .int r.line ∧ w.ShowsAll r.views vs

theorem Logged.mono {p : Showing × Event} (h : w.Logged reports p)
    (hle : w ≤ w') : w'.Logged reports p := by
  refine ⟨h.event, fun line vs output hp => ?_⟩
  obtain ⟨r, hr, hline, hvs⟩ := h.values line vs output hp
  exact ⟨r, hr, hline, hvs.mono hle⟩

theorem ShowsAll.matches {r : Report} {output : Datum} (hvs : w.ShowsAll r.views vs)
    (hs : w.Sound h) :
    r.Matches ⟨.int r.line, vs.map fun v => Entry.ofDatum? (h.datum v), output⟩ := by
  obtain ⟨lacks, hvs⟩ := hvs
  refine ⟨rfl, ?_⟩
  rw [List.forall₂_map_right_iff]
  exact hvs.imp fun _ _ hv => hv.matches hs

end World

/-! ### Computations that leave the frames as they are -/

namespace Invariant

variable {k : Core} {I : k.Invariant} {w : k.World} {m : Machine} {x : Executable} {s : Site}

/-- A computation keeps the invariant and leaves the frames as they were. -/
abbrev Returns {α : Type} (I : k.Invariant) (w : k.World) (frames : Array Frame)
    (Q : k.World → α → Prop) (r : Except Stop α × Machine) : Prop :=
  I.Ends w (fun w' m' a => m'.frames = frames ∧ Q w' a) r

theorem Returns.ofReads {α : Type} {e : Exec α} {Q : α → Prop} (h : Reads m e Q)
    (hm : I.At w m) : I.Returns w m.frames (fun _ => Q) (e m) := by
  refine (Ends.ofReads h hm).mono w.le_refl ?_
  rintro _ _ a - ⟨-, rfl, ha⟩
  exact ⟨rfl, ha⟩

/-- States with the invariant have the routine that describes a variable at
its place, and their objects are counted. -/
def Knows (I : k.Invariant) (slot : Nat × Closure) : Prop :=
  ∀ {w : k.World} {m : Machine}, I.At w m →
    w.size.isSome = true ∧ (slot.1, .closure slot.2) ∈ w.shown

theorem Knows.closure? (hI : I.Knows slot) (hm : I.At w m) : m.heap.closure? slot.1 = some slot.2 :=
  (I.steady hm).sound.closure?_shown (hI hm).2

end Invariant

/-! ### The invariant -/

def recording (k : Core) (reports : List Report) (slot : Nat × Closure) : k.Invariant where
  At w m := w.Steady m ∧ w.size.isSome = true ∧ (slot.1, .closure slot.2) ∈ w.shown ∧
    ∀ p ∈ m.log, w.Logged reports p
  steady h := h.1
  heap := by
    rintro w w' m h ⟨hm, hsize, hslot, hlog⟩ hle hs
    obtain ⟨n, hn⟩ := Option.isSome_iff_exists.mp hsize
    obtain ⟨n', hn', -⟩ := hle.size n hn
    refine ⟨⟨hs, hm.fits.mono fun p hp => hp.mono hle⟩, ?_, hle.shown _ hslot, fun p hp =>
      (hlog p hp).mono hle⟩
    rw [hn']
    rfl
  frames := by
    rintro w m fs ⟨hm, hrest⟩ hfits
    exact ⟨⟨hm.sound, hfits⟩, hrest⟩
  inputs := by
    rintro w m ds ⟨hm, hrest⟩
    exact ⟨{ hm with }, hrest⟩
  reveal := by
    rintro w m shown ⟨hm, hsize, hslot, hlog⟩ hshown
    refine ⟨{ hm with }, hsize, hslot, fun p hp => ?_⟩
    rcases Array.mem_push.mp hp with hp | rfl
    · exact hlog p hp
    -- What is no step says nothing about the reports.
    · cases shown with
      | trace => cases hshown
      | _ => exact ⟨nofun, nofun⟩

theorem recording_knows : (k.recording reports slot).Knows slot :=
  fun hm => ⟨hm.2.1, hm.2.2.1⟩

theorem recording_shows {w : k.World} {m : Machine} {r : Report} {output : Value}
    (hm : (k.recording reports slot).At w m) (hr : r ∈ reports) (hvs : w.ShowsAll r.views vs) :
    (k.recording reports slot).At w (m.shows (.trace (.int r.line) vs output)) := by
  obtain ⟨hm, hsize, hslot, hlog⟩ := hm
  refine ⟨{ hm with }, hsize, hslot, fun p hp => ?_⟩
  rcases Array.mem_push.mp hp with hp | rfl
  · exact hlog p hp
  · refine ⟨?_, ?_⟩
    · rintro _ ⟨⟩
      exact ⟨r, hr, hvs.matches hm.sound⟩
    · rintro _ _ _ ⟨⟩
      exact ⟨r, hr, rfl, hvs⟩

theorem recording_matches {w : k.World} {m : Machine} (hm : (k.recording reports slot).At w m)
    {p : Showing × Event} (hp : p ∈ m.log) {e : TraceEvent}
    (he : p.2 = .trace e ∨ m.heap.event p.1 = .trace e) : ∃ r ∈ reports, r.Matches e := by
  obtain ⟨hm, -, -, hlog⟩ := hm
  have hlogged := hlog p hp
  -- What was written out at the time is in the log; the values are written out anew.
  rcases he with he | he
  · exact hlogged.event e he
  · obtain ⟨shown, event⟩ := p
    cases shown with
    | trace line vs output =>
      obtain ⟨r, hr, rfl, hvs⟩ := hlogged.values line vs output rfl
      obtain rfl := Event.trace.inj he
      exact ⟨r, hr, hvs.matches hm.sound⟩
    | _ => cases he

/-- The core has what a report needs: the routine that describes a variable
under its name, and the one that reports a step, whose snapshot may be any
value. -/
structure Recording (k : Core) (reports : List Report) (slot : Nat × Closure) : Prop where
  rules : k.rules = snapshotRules k.entryPoint reports
  describing : k.Describing slot.2
  binding : k.bindings.lookup "__slot".toList = some [.routine slot.1]
  isTracer : k.tracer.code.isTracer = true
  hasSnapshot : k.tracer.code.locals.contains "snapshot" = true
  initials : k.tracer.initials = [("output".toList, .str [])]
  loose : "snapshot".toList ∈ k.loose ∧ k.bindings.lookup "snapshot".toList = none
  admits : ∀ v, k.admits v
  line : k.rules.mayBind "line" = true
  output : k.rules.mayBind "output" = true

namespace Recording

variable {k : Core} {reports : List Report} {slot : Nat × Closure} {w : k.World} {x : Executable}
variable {args : List Expr} {line : Nat}
  {s : Site} (hk : k.Recording reports slot)
include hk

theorem hidden_eq : k.hidden = snapshotNames k.entryPoint :=
  congrArg Rules.hidden hk.rules

theorem unbound_eq : k.unbound = ["isinstance".toList, "list"] :=
  congrArg Rules.unbound hk.rules

theorem also_eq : k.also = fun _ _ => false :=
  congrArg Rules.also hk.rules

/-! ### Snapshots -/

section Snapshots

variable {I : k.Invariant} (hI : I.Knows slot) {m : Machine}
include hI

omit hI in
theorem lookup_slot (hm : I.At w m) {n : Nat}
    (hv : m.lookup n "__slot".toList = .ok v) : v = .routine slot.1 :=
  List.mem_singleton.mp ((I.steady hm).fits.lookup_hidden hv hk.binding (by decide +kernel))

theorem lacks_congr {w' : k.World} {m' : Machine} (hm : I.At w m) (hm' : I.At w' m')
    (hframes : m'.frames = m.frames) (n : Nat) : m'.lacks n = m.lacks n := by
  have hlookup : ∀ name, m'.lookup n name = m.lookup n name := by
    intro name
    unfold Machine.lookup Machine.binder? Machine.var?
    rw [hframes]
  have hunset : m'.unset? n = m.unset? n := by
    unfold Machine.unset?
    rw [hlookup]
    split
    · next a ha =>
      obtain ⟨⟩ := lookup_slot hk hm ha
      rw [hI.closure? hm, hI.closure? hm']
      exact Machine.outside_congr hframes _ _
    · rfl
  funext name
  unfold Machine.lacks
  rw [hlookup, hunset]

omit hk hI in
theorem bare_ne_spread {hidden : List Text}
    (h : view.isReadAs hidden e = true) (e' : Expr) : e.bare ≠ .spread e' := by
  unfold SlotView.isReadAs at h
  split at h
  · nofun
  · nofun
  · cases h

theorem view_returns (h : view.isReadAs k.hidden e = true) (hm : I.At w m) (fuel : Nat) :
    I.Returns w m.frames (fun w' => w'.Views (m.lacks s.frame) view) (eval x fuel s e m) := by
  cases fuel with
  | zero => exact .stop hm
  | succ fuel =>
    unfold SlotView.isReadAs at h
    split at h
    · exact .pure hm ⟨rfl, rfl⟩
    · next name state f t rest =>
      simp only [Bool.and_eq_true, beq_iff_eq] at h
      obtain ⟨⟨⟨rfl, rfl⟩, ht⟩, hstate⟩ := h
      obtain ⟨hsize, hslot⟩ := hI hm
      obtain ⟨size, hsize⟩ := Option.isSome_iff_exists.mp hsize
      have hvalue : ∀ v, m.lookup s.frame t = .ok v → m.lookup s.frame t = .ok v ∧ Tame w v :=
        fun v hv => ⟨hv, ((I.steady hm).fits.lookup hv).elim
          (fun h => h.tame (by simpa using ht)) World.tame_builtinValue?⟩
      refine .read_bind (.name
        (fun _ h => h) fuel) hm fun v hlookup => ?_
      obtain rfl := lookup_slot hk hm hlookup
      -- The value of the variable is compared with what the routine finds.
      have hlacks : ∀ {v u : Value}, m.lookup s.frame t = .ok v →
          m.outside slot.2 "__UNSET" = some u → m.lacks s.frame t = v.same u := by
        intro v u hv hu
        have hunset : m.unset? s.frame = some u := by
          unfold Machine.unset?
          rw [hlookup]
          dsimp only
          rw [hI.closure? hm]
          exact hu
        unfold Machine.lacks
        rw [hv, hunset]
      have hcall : ∀ {v : Value} {vs : List Value}, m.lookup s.frame t = .ok v → Tame w v →
          (vs = [v] ∧ state.name = "value" ∨ vs = [v, .str state.name]) →
            I.Returns w m.frames (fun w' => w'.Views (m.lacks s.frame) (.shown t state))
              (call x fuel s (.routine slot.1) ⟨vs, []⟩ m) := by
        intro v vs hv htame hvs
        refine (Invariant.slot_ends hk.describing hslot hsize htame hvs hm fuel).mono w.le_refl ?_
        rintro w' m' r - ⟨hframes, u, hu, hr⟩
        refine ⟨hframes, ?_⟩
        show w'.Tells (m.lacks s.frame t) state.name r
        rwa [hlacks hv hu]
      -- The state is named by the second argument, or it is the usual one.
      unfold namedState? at hstate
      split at hstate
      · refine .read_bind (Reads.arguments rfl (.items_cons (by nofun) (.name hvalue) .items_nil)
          fuel) hm ?_
        rintro ⟨byPosition, byName⟩ ⟨rfl, v, _, rfl, hv, rfl⟩
        exact hcall hv.1 hv.2 (.inl ⟨rfl, (Option.some.inj hstate).symm⟩)
      · refine .read_bind (Reads.arguments rfl (.items_cons (by nofun) (.name hvalue)
          (.items_cons (by nofun) .str .items_nil)) fuel) hm ?_
        rintro ⟨byPosition, byName⟩ ⟨rfl, v, _, rfl, hv, _, _, rfl, rfl, rfl⟩
        exact hcall hv.1 hv.2 (.inr (by rw [Option.some.inj hstate]))
      · cases hstate
    · cases h

theorem views_returns {es : List Expr}
    (h : areReadAs k.hidden views es = true) (hm : I.At w m) (fuel : Nat) :
    I.Returns w m.frames (fun w' => w'.ViewsAll (m.lacks s.frame) views)
      (evalItems x fuel s es m) := by
  induction views generalizing w m es fuel with
  | nil =>
    cases es with
    | nil =>
      refine (Invariant.Returns.ofReads (.items_nil fuel) hm).mono w.le_refl ?_
      rintro _ _ _ - ⟨hframes, rfl⟩
      exact ⟨hframes, .nil⟩
    | cons => cases h
  | cons view views ih =>
    cases es with
    | nil => cases h
    | cons =>
      simp only [areReadAs, Bool.and_eq_true] at h
      refine (Invariant.Ends.items_cons (R := fun w' => w'.ViewsAll (m.lacks s.frame) views) hm
        (bare_ne_spread h.1) (fun n _ => view_returns hk hI h.1 hm n)
          (fun _ _ _ hle hv => hv.mono hle) (fun w' _ m' hm' hframes n _ => ?_)).mono w.le_refl ?_
      · rw [← lacks_congr hk hI hm hm' hframes, ← hframes]
        exact ih h.2 hm' n
      · rintro _ _ _ - ⟨hframes, v, vs, rfl, hv, hvs⟩
        exact ⟨hframes, .cons hv hvs⟩

theorem snapshot_returns {es : List Expr}
    (h : areReadAs k.hidden views es = true) (hm : I.At w m) (fuel : Nat) :
    I.Returns w m.frames (fun w' => w'.Pictures (m.lacks s.frame) views)
      (eval x fuel s (.list es) m) := by
  cases fuel with
  | zero => exact .stop hm
  | succ fuel =>
    refine (views_returns hk hI h hm fuel).bind ?_
    rintro w₁ _ m₁ vs hm₁ ⟨hframes, hvs⟩
    -- The list joins the core with the descriptions in it, before anyone else knows it.
    obtain ⟨size, hsize⟩ := Option.isSome_iff_exists.mp (hI hm₁).1
    have hlist : Makes w₁ (Eval.newList vs.toArray) fun w' =>
        w'.Pictures (m.lacks s.frame) views :=
      (World.alloc_seals hsize).bind fun _ hle a ha => .pure ⟨a, vs, rfl, ha, hvs.mono hle⟩
    refine (Invariant.Ends.evaluate hm₁ hlist).mono w₁.le_refl ?_
    rintro _ _ _ - ⟨hsame, hv⟩
    exact ⟨hsame.trans hframes, hv⟩

theorem rest_returns (h : isSnapshotOf k.hidden views args = true) (hm : I.At w m) (fuel : Nat) :
    I.Returns w m.frames (fun w' vs => ∃ snapshot rest, vs = snapshot :: rest ∧
      w'.Pictures (m.lacks s.frame) views snapshot ∧
        (rest = [] ∨ ∃ output, rest = [output] ∧ Tame w' output)) (evalItems x fuel s args m) := by
  unfold isSnapshotOf at h
  split at h
  · refine Invariant.Ends.items_cons hm (by nofun) (fun n _ => snapshot_returns hk hI h hm n)
      (fun _ _ _ hle hv => hv.mono hle) fun w₁ _ m₁ hm₁ hframes fuel _ => ?_
    rw [← hframes]
    refine (Invariant.Returns.ofReads (.items_nil fuel) hm₁).mono w₁.le_refl ?_
    rintro _ _ _ - ⟨hsame, hnil⟩
    exact ⟨hsame, .inl hnil⟩
  · next es t =>
    simp only [Bool.and_eq_true] at h
    refine Invariant.Ends.items_cons hm (by nofun) (fun n _ => snapshot_returns hk hI h.1 hm n)
      (fun _ _ _ hle hv => hv.mono hle) fun w₁ _ m₁ hm₁ hframes fuel _ => ?_
    have houtput : ∀ v, m₁.lookup s.frame t = .ok v → Tame w₁ v := fun v hv =>
      ((I.steady hm₁).fits.lookup hv).elim (fun hfits => hfits.tame (by simpa using h.2))
        World.tame_builtinValue?
    refine (Invariant.Ends.ofReads (.items_cons (by nofun) (.name houtput) .items_nil fuel)
      hm₁).mono w₁.le_refl ?_
    rintro _ _ _ - ⟨rfl, rfl, v, _, rfl, hv, rfl⟩
    exact ⟨hframes, .inr ⟨v, rfl, hv⟩⟩
  · cases h

/-! ### Reports -/

omit hI in
theorem tracer_reveals {snapshot : Value} {rest : List Value}
    (hsnapshot : w.Pictures lacks views snapshot)
    (hrest : rest = [] ∨ ∃ output, rest = [output] ∧ Tame w output) (hm : I.At w m) (fuel : Nat) :
    I.Reveals w (Invariant.ShowsStep line (fun w' => w'.ViewsAll lacks views) fun _ => True)
      (call x fuel s (.routine k.tracerAt) ⟨.int line :: snapshot :: rest, []⟩ m) := by
  have hline : w.Fits ("line".toList, .int line) := World.fits_of_tame ⟨hk.line, trivial⟩
  have hfits : w.Fits ("snapshot".toList, snapshot) := by
    refine ⟨?_, ?_⟩
    · rw [hk.unbound_eq]
      show "snapshot".toList ∉ _
      decide
    · rw [hk.loose.2]
      exact (if_pos hk.loose.1).mpr (hk.admits snapshot)
  obtain ⟨output, hgiven, houtput⟩ : ∃ output, (rest = [] ∧ output = .str [] ∨ rest = [output]) ∧
      Tame w output := by
    rcases hrest with rfl | ⟨output, rfl, houtput⟩
    · exact ⟨.str [], .inl ⟨rfl, rfl⟩, trivial⟩
    · exact ⟨output, .inr rfl, houtput⟩
  have hbind : Makes w (bindArguments k.tracer.code.path tracerParams k.tracer.initials
      ⟨.int line :: snapshot :: rest, []⟩) fun w' bound => (∀ p ∈ bound, w'.Fits p) ∧
        bound.lookup "line".toList = some (.int line) ∧ w ≤ w' ∧
          bound.lookup "snapshot".toList = some snapshot := by
    rw [hk.initials]
    refine (Invariant.bindArguments_tracer hgiven).mono ?_
    rintro _ _ - ⟨rfl, rfl⟩
    refine ⟨?_, rfl, World.le_refl _, rfl⟩
    exact List.forall_mem_cons.mpr ⟨hline, List.forall_mem_cons.mpr ⟨hfits,
      List.forall_mem_singleton.mpr (World.fits_of_tame ⟨hk.output, houtput⟩)⟩⟩
  refine Invariant.tracer_reveals hk.isTracer (by rw [hk.unbound_eq]; decide) hbind ?_
    (fun _ _ _ _ _ _ _ _ _ _ => trivial) hm fuel
  rintro w' _ bound ⟨hle, hbound⟩ n m' _ hholds v hv
  rw [hholds.lookup hk.hasSnapshot (by decide) hbound] at hv
  cases hv
  exact .ofSafe (hsnapshot.mono hle).valuesOf_safe

theorem report_reveals (he : e.report? = some (line, args)) (h : k.reports line args = true)
    (hm : I.At w m) (fuel : Nat) :
    ∃ views, ⟨line, views⟩ ∈ reports ∧ I.Reveals w (Invariant.ShowsStep line
      (fun w' => w'.ViewsAll (m.lacks s.frame) views) fun _ => True)
        (eval x (fuel + 1) s e m) := by
  obtain ⟨views, hr, hargs⟩ := exists_report (show (snapshotRules k.entryPoint reports).reports
    line args = true from hk.rules ▸ h)
  refine ⟨views, hr, ?_⟩
  rw [← hk.hidden_eq] at hargs
  have hlone : loneSpread? (.int line :: args) = none := by
    unfold isSnapshotOf at hargs
    split at hargs
    · rfl
    · rfl
    · cases hargs
  unfold Expr.report? at he
  split at he
  · next f line args =>
    split at he
    · next hf =>
      cases he
      subst hf
      refine .read_bind (.name (fun v hv => (I.steady hm).fits.lookup_trace hv) fuel) hm ?_
      rintro _ rfl
      have hline : ∀ fuel, I.Returns w m.frames (fun _ v => v = .int line)
          (eval x fuel s (.int line) m) := fun fuel =>
        Invariant.Returns.ofReads (.constant (fun _ => by rfl) fuel) hm
      have hrest : ∀ w', w ≤ w' → ∀ m', I.At w' m' → m'.frames = m.frames → ∀ fuel,
          I.Returns w' m.frames (fun w'' vs => ∃ snapshot rest, vs = snapshot :: rest ∧
            w''.Pictures (m.lacks s.frame) views snapshot ∧
              (rest = [] ∨ ∃ output, rest = [output] ∧ Tame w'' output))
            (evalItems x fuel s args m') := by
        intro w' _ m' hm' hframes fuel
        rw [← lacks_congr hk hI hm hm' hframes, ← hframes]
        exact rest_returns hk hI hargs hm' fuel
      refine .bind (Invariant.Ends.arguments hm hlone fun n _ => .items_cons hm (by nofun)
        (fun n' _ => hline n') (fun _ _ _ _ hv => hv) fun w' hle m' hm' hframes n' _ =>
          hrest w' hle m' hm' hframes n') ?_
      rintro w₂ - m₂ ⟨byPosition, byName⟩ hm₂
        ⟨-, rfl, _, _, rfl, rfl, snapshot, rest, rfl, hsnapshot, hrest⟩
      exact tracer_reveals hk hsnapshot hrest hm₂ fuel
    · cases he
  · cases he

end Snapshots

theorem report_upholds (he : e.report? = some (line, args)) (h : k.reports line args = true)
    (fuel : Nat) :
    (k.recording reports slot).Upholds w (eval x (fuel + 1) s e) fun _ _ => True := by
  intro m hm
  obtain ⟨views, hr, hreveals⟩ := report_reveals hk recording_knows he h hm fuel
  refine hreveals.ends ?_
  rintro w' m' _ hm' ⟨vs, output, rfl, hvs, -⟩
  exact recording_shows hm' hr ⟨_, hvs⟩

theorem records (x : Executable) (fuel : Nat) : (k.recording reports slot).Evaluates x fuel := by
  induction fuel with
  | zero => exact .zero
  | succ fuel ih =>
    refine ih.succ (fun w s e line args he h => report_upholds hk he h fuel) fun w s a halso => ?_
    rw [hk.also_eq] at halso
    cases halso

end Recording

end Core

end Run

end Pseudocode
