import Pseudocode.Proofs.Run.Inputs

/-!
# Runs that end for want of inputs

A read for which there is no input is a fault, and a script may deal with
faults: then the run goes on. It cannot if the script waits only where it
may (`Expr.placed`), outside of all blocks whose faults are dealt with. Its
run ends at the first read that gets nothing, and in no other way says that
inputs were wanting.

* `Heap.WellPlaced`: all code that the heap holds waits only where it may.
* `Settles`: how often a computation asked, against the inputs that it
  took, and whether it ended for want of one.
* `settles_run`: every run of a well placed script settles so.
-/

namespace Pseudocode.Run

open Text Script Realm

/-- What stopped is not that an input was wanting. -/
def Stop.Ordinary : Stop → Prop
  | .starved _ _ => False
  | _ => True

def Heap.WellPlaced (h : Heap) : Prop :=
  ∀ isCall r, h.HasCode (isCall, r) → Placed isCall r

/-- How often a run has asked for a value. -/
def Machine.asked (m : Machine) : Nat :=
  asks m.shown

/-- A computation from a state took one input each time that it asked, or
ended when there was none. If it may not wait it never asked. -/
def Settles (may : Bool) {α : Type} (e : Exec α) (m : Machine) : Prop :=
  ((∀ stop, (e m).1 = .error stop → stop.Ordinary) ∧
      (e m).2.asked + (e m).2.inputs.length = m.asked + m.inputs.length ∧
        (may = false → (e m).2.asked = m.asked)) ∨
    (may = true ∧ (∃ label line, (e m).1 = .error (.starved label line)) ∧
      (e m).2.asked = m.asked + m.inputs.length + 1 ∧
        ∃ front label, (e m).2.shown = front ++ [.read label])

/-- From a state with well placed code, a computation settles and leaves
well placed code, and its result has a property. -/
structure Honest (may : Bool) (w : Holding Placed) {α : Type} (e : Exec α) (Q : α → Prop) :
    Prop where
  keeps : w.Keeps e Q
  settles : ∀ m, m.heap.WellPlaced → Settles may e m

namespace Honest

variable {α β : Type} {may : Bool} {w : Holding Placed} {e : Exec α} {Q : α → Prop} {R : β → Prop}

theorem ofBlind (h : Blind e) (hkeeps : w.Keeps e Q)
    (hends : ∀ m stop, (e m).1 = .error stop → stop.Ordinary) : Honest may w e Q := by
  refine ⟨hkeeps, fun m _ => .inl ⟨hends m, ?_, fun _ => h.asks m⟩⟩
  rw [Machine.asked, Machine.asked, h.asks, h.inputs_eq]

theorem stop {stop : Stop} (h : stop.Ordinary) : Honest may w (throw stop) Q := by
  refine .ofBlind (.stop stop) .stop fun m stop' hstop' => ?_
  cases hstop'
  exact h

theorem bind {f : α → Exec β} (he : Honest may w e Q) (hf : ∀ a, Q a → Honest may w (f a) R) :
    Honest may w (e >>= f) R := by
  refine ⟨he.keeps.bind fun a ha => (hf a ha).keeps, fun m hm => ?_⟩
  obtain ⟨hkept, hQ⟩ := he.keeps m hm
  have hfirst := he.settles m hm
  unfold Settles at hfirst ⊢
  rw [bind_apply]
  rcases heq : e m with ⟨result, m'⟩
  rw [heq] at hkept hQ hfirst
  cases result with
  | error =>
    -- What follows is not run, so the end is that of the first part.
    rcases hfirst with ⟨hends, hcount, hquiet⟩ | ⟨hmay, ⟨label, line, hstop⟩, hcount, hlast⟩
    · refine .inl ⟨fun stop' hstop' => hends stop' ?_, hcount, hquiet⟩
      cases hstop'
      rfl
    · cases hstop
      exact .inr ⟨hmay, ⟨label, line, rfl⟩, hcount, hlast⟩
  | ok a =>
    obtain ⟨-, hcount, hquiet⟩ | ⟨-, ⟨label, line, hstop⟩, -⟩ := hfirst
    · dsimp only at hcount hquiet ⊢
      rcases (hf a (hQ a rfl)).settles m' hkept with ⟨hends, hcount', hquiet'⟩ |
        ⟨hmay, hstop, hcount', hlast⟩
      · refine .inl ⟨hends, by omega, fun hmay => ?_⟩
        rw [hquiet' hmay, hquiet hmay]
      · exact .inr ⟨hmay, hstop, by omega, hlast⟩
    · cases hstop

theorem look {f : Machine → Exec β} (hf : ∀ m, m.heap.WellPlaced → Honest may w (f m) R) :
    Honest may w (get >>= f) R :=
  ⟨.look fun m hm => (hf m hm).keeps, fun m hm => (hf m hm).settles m hm⟩

theorem weaken (h : Honest false w e Q) : Honest may w e Q := by
  refine ⟨h.keeps, fun m hm => ?_⟩
  rcases h.settles m hm with ⟨hends, hcount, hquiet⟩ | ⟨hmay, -⟩
  · exact .inl ⟨hends, hcount, fun _ => hquiet rfl⟩
  · cases hmay

theorem evaluate {s : Site} {e : Eval α} {Q : Holding Placed → α → Prop} (h : Makes w e Q) :
    Honest may w (evaluate s e) (Q w) := by
  refine .ofBlind (.evaluate s e) (.evaluate h) fun m stop hstop => ?_
  replace hstop : (e m.heap).1.mapError (Stop.failed · s.traceback) = .error stop := hstop
  rcases heq : (e m.heap).1 with fault | a
  · rw [heq] at hstop
    cases hstop
    trivial
  · rw [heq] at hstop
    cases hstop

theorem onFrames (h : OnFrames e) : Honest may w e fun _ => True := by
  refine .ofBlind (.onFrames h) (.ofHeap fun m => by rw [h.frames]) fun m stop hstop => ?_
  obtain ⟨fault, line, rfl⟩ := h.ends m stop hstop
  trivial

theorem newRoutine {s : Site} {code : Routine} {initials : List (Text × Value)}
    (h : Placed false code) : Honest may w (newRoutine s code initials) (Tame w) :=
  .ofBlind (newRoutine_blind s code initials) (.newRoutine h) nofun

theorem beginCall {s : Site} {a : Nat} :
    Honest may w (beginCall s a) fun c? => ∀ c, c? = some c → TameObject w (.call c) := by
  refine .ofBlind (beginCall_blind s a) .beginCall fun m stop hstop => ?_
  rw [beginCall_apply] at hstop
  split at hstop
  · split at hstop
    · cases hstop
      trivial
    · cases hstop
  · cases hstop

theorem nextInput {s : Site} {label : Text} : Honest true w (nextInput s label) fun _ => True := by
  refine ⟨.ofHeap (heap_nextInput s label), fun m _ => ?_⟩
  have hasked : (m.shows (.read label)).asked = m.asked + 1 := asks_shows_read m label
  unfold Settles
  rcases h : m.inputs with _ | ⟨d, rest⟩
  · rw [nextInput_nil h]
    refine .inr ⟨rfl, ⟨label, s.traceback, rfl⟩, hasked, m.shown, label, ?_⟩
    exact m.shown_shows (.read label)
  · rw [nextInput_cons h]
    refine .inl ⟨nofun, ?_, nofun⟩
    show (m.shows (.read label)).asked + rest.length = m.asked + (d :: rest).length
    rw [List.length_cons]
    omega

theorem attempt {f : Except Stop α → Exec β} (he : Honest false w e Q)
    (hok : ∀ a, Q a → Honest may w (f (.ok a)) R)
    (hstop : ∀ stop, stop.Ordinary → Honest may w (f (.error stop)) R) :
    Honest may w (attempt e >>= f) R := by
  have hrest : ∀ m, m.heap.WellPlaced → Honest may w (f (e m).1) R := by
    intro m hm
    rcases he.settles m hm with ⟨hends, -⟩ | ⟨hmay, -⟩
    · rcases heq : (e m).1 with stop | a
      · exact hstop stop (hends stop heq)
      · exact hok a ((he.keeps m hm).2 a heq)
    · cases hmay
  refine ⟨fun m hm => (hrest m hm).keeps _ (he.keeps m hm).1, fun m hm => ?_⟩
  have hkept := (he.keeps m hm).1
  rcases he.settles m hm with ⟨-, hcount, hquiet⟩ | ⟨hmay, -⟩
  · have hquiet := hquiet rfl
    rcases (hrest m hm).settles _ hkept with ⟨hends, hcount', hquiet'⟩ |
      ⟨hmay, hstop, hcount', hlast⟩
    · exact .inl ⟨hends, hcount'.trans hcount, fun hmay => (hquiet' hmay).trans hquiet⟩
    · refine .inr ⟨hmay, hstop, hcount'.trans ?_, hlast⟩
      omega
  · cases hmay

end Honest

/-- Well placed code ends where it runs dry. -/
def honesty (x : Executable) : Logic (Holding Placed) x where
  code := placedCode
  Holds may _ w _ e Q := Honest may w e (Q w)
  Stops _ := Stop.Ordinary
  failed _ _ := trivial
  outOfFuel := trivial
  pure h := .ofBlind (.pure _) (.pure h) nofun
  stop := .stop
  bind he hf := he.bind fun a => hf _ trivial a
  mono h hQ := ⟨h.keeps.mono fun a => hQ _ a trivial, h.settles⟩
  look _ hf := .look hf
  evaluate := .evaluate
  lookup _ := have h := Honest.onFrames (lookup_onFrames _ _)
    ⟨h.keeps.mono fun v _ => Holding.tame _ v, h.settles⟩
  host h := absurd trivial h
  storeName _ := .onFrames (storeName_onFrames _ _ _)
  deleteName := .onFrames (deleteName_onFrames _ _)
  enterFrame _ := .onFrames (enterFrame_onFrames _)
  leaveFrame := .onFrames (leaveFrame_onFrames _)
  newRoutine h _ := .newRoutine h
  beginCall _ := .beginCall
  reveal h := .ofBlind (.reveal fun _ hread => by rw [hread] at h; exact h)
    (.ofHeap fun _ => rfl) nofun
  read := .nextInput
  attempt he hok hstop := he.attempt (fun a => hok _ trivial a) fun stop => hstop _ trivial stop
  ofStill h := h.weaken
  ofWaiting {may _ _ _ _ _} hmay h := by
    obtain rfl : may = true := hmay
    exact h
  ofWithin h := h
  enter h := h
  goTo _ h := h

/-! ### Scripts -/

theorem Prepared.of_ofExecutable {x : Executable} {p : Prepared}
    (h : Prepared.ofExecutable x = .ok p) :
    p.script = x ∧ p.start = (execBlock x ampleFuel {} x.body Machine.initial).2.beforeRun := by
  unfold Prepared.ofExecutable at h
  split at h
  · cases h
  · next m hrun =>
    split at h
    · cases h
      rw [hrun]
      exact ⟨rfl, rfl⟩
    · cases h

theorem Prepared.of_prepare {settings : Settings} {lines : Lines} {p : Prepared}
    (h : prepare settings lines = .ok p) :
    p.start = (execBlock p.script ampleFuel {} p.script.body Machine.initial).2.beforeRun := by
  obtain ⟨x, -, hx⟩ := prepare_eq_ok_iff.mp h
  obtain ⟨hscript, hstart⟩ := of_ofExecutable hx
  rw [hstart, hscript]

theorem Machine.asked_beforeRun (m : Machine) : m.beforeRun.asked = 0 := by
  refine List.countP_eq_zero.mpr fun e he => ?_
  obtain ⟨⟨shown, event⟩, hmem, rfl⟩ := List.mem_map.mp he
  have hprint := (Array.mem_filter.mp (Array.mem_toList_iff.mp hmem)).2
  cases event with
  | print => nofun
  | write | trace | read => cases hprint

section Scripts

variable {settings : Settings} {lines : Lines} {p : Prepared}

theorem Prepared.asked_start (h : prepare settings lines = .ok p) : p.start.asked = 0 := by
  rw [of_prepare h]
  exact Machine.asked_beforeRun _

theorem Prepared.wellPlaced_start (h : prepare settings lines = .ok p)
    (hplaced : p.script.placed = true) : p.start.heap.WellPlaced := by
  rw [of_prepare h]
  have hblock := (((honesty p.script).evaluates (fun _ => id) ampleFuel).block false ⟨⟩ {} _
    (placedBlock_iff.mp hplaced)).keeps
  exact (hblock Machine.initial fun isCall r hr => absurd hr Heap.not_hasCode_empty).1

theorem settles_run (h : prepare settings lines = .ok p) (hplaced : p.script.placed = true)
    (fuel : Nat) (inputs : List Datum) : Settles true (p.run fuel) { p.start with inputs } := by
  have hruns := (honesty p.script).evaluates (fun _ => id) fuel
  have hrun := (honesty p.script).bind (hruns.call true ⟨⟩ {} p.entry ⟨[.host], []⟩ (Holding.tame _ _)
    ⟨fun v _ => Holding.tame _ v, nofun⟩) fun w _ v hv => hruns.await w {} v hv
  exact Honest.settles hrun _ (Prepared.wellPlaced_start h hplaced)

end Scripts

end Pseudocode.Run
