import Mathlib.Algebra.GroupWithZero.Nat
import Pseudocode.Proofs.Run.Extension
import Pseudocode.Proofs.Session.Order

/-!
# What becomes of a cancelled run

A run that was cancelled goes nowhere any more, whatever is asked of the
session then: it shows nothing, reads nothing, and comes to its end as soon as
the jobs of the queue are done. How it ends is decided when it is cancelled. A
script that has ended by then, or that fails in the same breath, keeps its
ending; in every other case the outcome is that the run was cancelled.

* `Session.queue_settle`: settling leaves nothing to be done.
* `Flight.Halted`, `Session.Halting`: a cancelled run, and a session in which
  it is on its way to its end. `Halting.after` says that this lasts.
* `Session.Cancels`: a run is cancelled in the course of a move.
* `cancel_decides`: what the outcome of the run is.
-/

namespace Pseudocode

open Run Script List

variable {s s' : Session} {m : Move} {f g : Flight}

/-! ### Settling -/

namespace Session

/-- The number of jobs that the queue may lead to. -/
def weight (s : Session) : Nat :=
  (s.queue.map Job.weight).sum

theorem settle_eq (s : Session) : s.settle = s.steps s.weight := by
  unfold settle weight
  congr 1
  induction s.queue with
  | nil => rfl
  | cons job rest ih => rw [foldr_cons, ih, map_cons, sum_cons]

theorem steps_eq_after (s : Session) (n : Nat) : s.steps n = s.after (.replicate n .step) := by
  induction n generalizing s with
  | zero => rfl
  | succ n ih => exact ih s.step

theorem job_weight_pos (job : Job) : 0 < job.weight := by
  cases job with
  | begin => exact Nat.succ_pos 2
  | advance => exact Nat.succ_pos 1
  | conclude => exact Nat.one_pos

theorem weight_step_lt (hqueue : s.queue ≠ []) : s.step.weight < s.weight := by
  have hturn : Turn s .step s.step := s.turn .step
  generalize s.step = s' at hturn ⊢
  unfold weight
  cases hturn with
  | idle hnone => exact absurd hnone hqueue
  | resume hqueue hflight hnext =>
    obtain ⟨f', _, _, _, _, queue, heq, -, hends⟩ := Turn.resume_shape _ hnext
    rw [heq, hqueue]
    obtain ⟨_, -, rfl, -⟩ | ⟨-, rfl, -⟩ := hends
    · rw [map_append, sum_append, map_cons]
      have hlt : ∀ n, n + (Job.conclude.weight + 0) < Job.advance.weight + n := fun n => by
        show n + 1 < 2 + n
        omega
      exact hlt _
    · simp [Job.weight]
  | @skip job rest hqueue =>
    have hpos := job_weight_pos job
    rw [hqueue, map_cons]
    exact Nat.lt_add_of_pos_left hpos
  | _ => simp_all [Job.weight] <;> omega

theorem step_of_queue_eq_nil (hqueue : s.queue = []) : s.step = s := by
  unfold step
  rw [hqueue]

theorem queue_steps {n : Nat} (h : s.weight ≤ n) : (s.steps n).queue = [] := by
  induction n generalizing s with
  | zero =>
    cases hqueue : s.queue with
    | nil => exact hqueue
    | cons job =>
      have hpos := job_weight_pos job
      rw [weight, hqueue, map_cons, sum_cons] at h
      omega
  | succ n ih =>
    by_cases hqueue : s.queue = []
    · have hstep : s.step = s := step_of_queue_eq_nil hqueue
      have hzero : s.weight = 0 := by rw [weight, hqueue]; rfl
      show (s.step.steps n).queue = []
      rw [hstep]
      exact ih (by omega)
    · have hlt := weight_step_lt hqueue
      exact ih (by omega)

theorem queue_settle (s : Session) : s.settle.queue = [] := by
  rw [settle_eq]
  exact queue_steps (Nat.le_refl _)

theorem exists_settle_eq_after (s : Session) : ∃ n, s.settle = s.after (.replicate n .step) :=
  ⟨s.weight, by rw [settle_eq, steps_eq_after]⟩

end Session

/-! ### A cancelled run -/

def Ending.status : Ending → Status
  | .completed => .completed
  | .failed _ => .failed
  | .cancelled => .cancelled

/-- The status with which a cancelled run comes to its end: that of its
script, if it has ended. -/
def Flight.verdict (f : Flight) : Status :=
  match f.stage with
  | .ended e => e.status
  | .scheduled | .reading | .answered _ | .dropped => .cancelled

/-- The run was cancelled, and its script has ended or will be stopped when it
would go on. -/
structure Flight.Halted (f : Flight) : Prop where
  cancelled : f.cancelled = true
  stopped : (∃ e, f.stage = .ended e) ∨ f.interrupted = true ∧ f.stage.job? = some .advance

theorem Flight.Halted.next?_eq_none (h : f.Halted) : f.next? = none := by
  cases hnext : f.next? with
  | none => rfl
  | some =>
    obtain ⟨hinterrupted, hstage⟩ := Flight.of_next?_eq_some hnext
    obtain ⟨e, he⟩ | ⟨hstop, -⟩ := h.stopped
    · obtain ⟨hscheduled, -⟩ | ⟨d, hanswered, -⟩ := hstage
      · rw [he] at hscheduled
        cases hscheduled
      · rw [he] at hanswered
        cases hanswered
    · rw [hinterrupted] at hstop
      cases hstop

theorem Flight.Halted.stage_ne_reading (h : f.Halted) : f.stage ≠ .reading := by
  intro hreading
  obtain ⟨e, he⟩ | ⟨-, hjob⟩ := h.stopped
  · rw [hreading] at he
    cases he
  · rw [hreading] at hjob
    cases hjob

theorem Flight.finish_of_cancelled (h : f.cancelled = true) (e : Ending) :
    ∃ error, f.finish e =
      .outcome (.ofLog (if f.withdrawn then .cancelled else e.status) f.log error) := by
  unfold Flight.finish
  rw [if_pos h]
  cases f.withdrawn with
  | true => exact ⟨none, rfl⟩
  | false =>
    cases e with
    | completed => exact ⟨none, rfl⟩
    | failed error => exact ⟨some error, rfl⟩
    | cancelled => exact ⟨none, rfl⟩

/-- The run `g` is the cancelled run `f` as it was, but for being withdrawn. -/
structure Flight.Remains (f g : Flight) : Prop where
  halted : g.Halted
  number : g.number = f.number
  token : g.token = f.token
  inputs : g.inputs = f.inputs
  log : g.log = f.log
  verdict : g.verdict = f.verdict

namespace Flight.Remains

theorem mark (h : f.Remains g) {cancelled interrupted : Bool} (withdrawn : Bool)
    (hcancelled : cancelled = true) (hinterrupted : g.interrupted = true → interrupted = true) :
    f.Remains { g with cancelled, interrupted, withdrawn } where
  halted := ⟨hcancelled, h.halted.stopped.imp_right fun hstop => ⟨hinterrupted hstop.1, hstop.2⟩⟩
  number := h.number
  token := h.token
  inputs := h.inputs
  log := h.log
  verdict := h.verdict

theorem halt (h : f.Remains g) (hjob : g.stage.job? = some .advance) :
    f.Remains { g with stage := .ended .cancelled } where
  halted := ⟨h.halted.cancelled, .inl ⟨.cancelled, rfl⟩⟩
  number := h.number
  token := h.token
  inputs := h.inputs
  log := h.log
  verdict := by
    rw [← h.verdict]
    unfold Flight.verdict
    cases hstage : g.stage with
    | scheduled | answered d | dropped => rfl
    | reading | ended e =>
      rw [hstage] at hjob
      cases hjob

theorem finish (h : f.Remains g) {e : Ending} (hstage : g.stage = .ended e) :
    ∃ o, g.finish e = .outcome o ∧ (o.output = written f.log ∧ o.trace = traced f.log) ∧
      (o.status = f.verdict ∨ g.withdrawn = true ∧ o.status = .cancelled) := by
  obtain ⟨error, hfinish⟩ := finish_of_cancelled h.halted.cancelled e
  have hverdict : e.status = f.verdict := by
    rw [← h.verdict, Flight.verdict, hstage]
  refine ⟨_, hfinish, ?_, ?_⟩
  · rw [h.log]
    exact ⟨rfl, rfl⟩
  · cases hwithdrawn : g.withdrawn with
    | true => exact .inr ⟨rfl, rfl⟩
    | false => exact .inl hverdict

end Flight.Remains

/-- The request for the cancelled run `f` has come to its end, and nothing was
shown since it was cancelled, unless a later run did. The run may have been
withdrawn only if `withdrawn` holds. -/
structure Session.Concluded (f : Flight) (notices : List Notice) (withdrawn : Prop)
    (s : Session) : Prop where
  outcome : ∃ o, (f.number, .outcome o) ∈ s.finished ∧
    (o.output = written f.log ∧ o.trace = traced f.log) ∧
    (o.status = f.verdict ∨ withdrawn ∧ o.status = .cancelled)
  begun : f.token ≤ s.begun
  flight : ∀ g, s.flight = some g → f.token < g.token
  notices : s.begun = f.token → s.notices = notices

inductive Session.Halting (f : Flight) (notices : List Notice) (withdrawn : Prop) (s : Session) :
    Prop where
  | flying {g : Flight} (hflight : s.flight = some g) (hremains : f.Remains g)
    (hwithdrawn : g.withdrawn = true → withdrawn) (hnotices : s.notices = notices)
  | concluded (h : s.Concluded f notices withdrawn)

variable {notices : List Notice} {withdrawn : Prop}

theorem Session.Concluded.turn (h : s.Concluded f notices withdrawn) (horderly : s.Orderly)
    (hturn : Turn s m s') : s'.Concluded f notices withdrawn := by
  obtain ⟨⟨o, hfinished, ho⟩, hbegun, hflight, hnotices⟩ := h
  have htoken := horderly.token
  refine ⟨⟨o, ?_, ho⟩, ?_, ?_, ?_⟩
  all_goals
    cases hturn with
    | resume hqueue hf hnext =>
      obtain ⟨f', _, _, _, _, _, heq, ⟨-, hsame, -⟩, -⟩ := Turn.resume_shape _ hnext
      rw [heq]
      grind
    | _ => grind

theorem Session.Halting.turn (h : s.Halting f notices withdrawn) (horderly : s.Orderly)
    (hturn : Turn s m s') (hm : m = .withdraw → withdrawn) : s'.Halting f notices withdrawn := by
  cases h with
  | concluded h => exact .concluded (h.turn horderly hturn)
  | @flying g hflight hremains hwithdrawn hnotices =>
    have hhalted := hremains.halted
    have hreading := hhalted.stage_ne_reading
    cases hturn with
    | resume hqueue hf hnext =>
      obtain rfl := Option.some.inj (hflight.symm.trans hf)
      rw [hhalted.next?_eq_none] at hnext
      cases hnext
    | halt hqueue hf hjob =>
      obtain rfl := Option.some.inj (hflight.symm.trans hf)
      exact .flying rfl (hremains.halt hjob) hwithdrawn hnotices
    | cancelQueued hf =>
      obtain rfl := Option.some.inj (hflight.symm.trans hf)
      exact .flying rfl (hremains.mark _ rfl fun _ => rfl) hwithdrawn hnotices
    | cancelEnded hf =>
      obtain rfl := Option.some.inj (hflight.symm.trans hf)
      exact .flying rfl (hremains.mark _ rfl id) hwithdrawn hnotices
    | withdrawQueued hf =>
      obtain rfl := Option.some.inj (hflight.symm.trans hf)
      exact .flying rfl (hremains.mark _ hhalted.cancelled fun _ => rfl) hwithdrawn hnotices
    | withdrawEnded hf =>
      obtain rfl := Option.some.inj (hflight.symm.trans hf)
      exact .flying rfl (hremains.mark true hhalted.cancelled id) (fun _ => hm rfl) hnotices
    | @conclude _ e _ hqueue hf hstage =>
      obtain rfl := Option.some.inj (hflight.symm.trans hf)
      obtain ⟨o, hfinish, hlog, hstatus⟩ := hremains.finish hstage
      have hbegun : f.token = s.begun := by
        rw [← hremains.token]
        exact horderly.token g hf
      refine .concluded ⟨⟨o, ?_, hlog, ?_⟩, Nat.le_of_eq hbegun, nofun, fun _ => hnotices⟩
      · rw [hfinish, hremains.number]
        exact mem_append_right _ (mem_singleton_self _)
      · exact hstatus.imp_right fun hcancelled => ⟨hwithdrawn hcancelled.1, hcancelled.2⟩
    | answer | cancelRead | withdrawRead | cancelNone | reject | launch => grind
    | _ => exact .flying hflight hremains hwithdrawn hnotices

theorem Session.Halting.after (h : s.Halting f notices withdrawn) (horderly : s.Orderly)
    {moves : List Move} (hmoves : .withdraw ∈ moves → withdrawn) :
    (s.after moves).Halting f notices withdrawn := by
  induction moves generalizing s with
  | nil => exact h
  | cons move rest ih =>
    refine ih (h.turn horderly (s.turn move) ?_) (horderly.move move) ?_
    · rintro rfl
      exact hmoves mem_cons_self
    · exact fun hmem => hmoves (mem_cons_of_mem _ hmem)

theorem Session.Halting.concluded_of_queue_eq_nil (h : s.Halting f notices withdrawn)
    (horderly : s.Orderly) (hqueue : s.queue = []) : s.Concluded f notices withdrawn := by
  cases h with
  | concluded h => exact h
  | @flying g hflight hremains =>
    -- A run that is due no job waits for a value, which a cancelled one does not.
    have hjobs := horderly.jobs
    rw [hqueue, Session.due?, hflight] at hjobs
    have hjob : g.stage.job? = none := Option.toList_eq_nil_iff.mp hjobs.symm
    obtain ⟨e, he⟩ | ⟨-, hstop⟩ := hremains.halted.stopped
    · rw [he] at hjob
      cases hjob
    · rw [hstop] at hjob
      cases hjob

/-! ### How a run is cancelled -/

def Session.told (s : Session) (move : Move) : List Notice :=
  (s.move move).notices.drop s.notices.length

/-- A run in flight is cancelled with a move: by a request, or by the host
when it is shown what the run writes. -/
def Session.Cancels (s : Session) : Move → Prop
  | .cancel => s.cancel.1 = true
  | .step => .cancel true ∈ s.told .step
  | _ => False

theorem Session.halted_of_cancel (h : s.cancel.1 = true) :
    ∃ f g, s.flight = some f ∧ s.cancel.2.flight = some g ∧ g.Halted ∧
      (g.number = f.number ∧ g.token = f.token ∧ g.inputs = f.inputs ∧ g.log = f.log) ∧
      g.verdict = f.verdict ∧ g.withdrawn = f.withdrawn ∧ s.cancel.2.notices = s.notices := by
  have hturn : Turn s .cancel s.cancel.2 := s.turn .cancel
  generalize s.cancel.2 = s' at hturn ⊢
  cases hturn with
  | cancelNone hflight =>
    rw [Session.cancel, hflight] at h
    cases h
  | @cancelRead f hflight hstage =>
    refine ⟨f, _, hflight, rfl, ⟨rfl, .inr ⟨rfl, rfl⟩⟩, ⟨rfl, rfl, rfl, rfl⟩, ?_, rfl, rfl⟩
    rw [Flight.verdict, Flight.verdict, hstage]
  | @cancelQueued f hflight hstage =>
    exact ⟨f, _, hflight, rfl, ⟨rfl, .inr ⟨rfl, hstage⟩⟩, ⟨rfl, rfl, rfl, rfl⟩, rfl, rfl, rfl⟩
  | @cancelEnded f e hflight hstage =>
    exact ⟨f, _, hflight, rfl, ⟨rfl, .inl ⟨e, hstage⟩⟩, ⟨rfl, rfl, rfl, rfl⟩, rfl, rfl, rfl⟩

theorem Session.halted_of_told (h : .cancel true ∈ s.told .step) :
    ∃ f g, s.flight = some f ∧ s.step.flight = some g ∧ g.Halted ∧
      (g.number = f.number ∧ g.token = f.token) ∧
      (∃ e, g.stage = .ended e ∧ e ≠ .completed) ∧ g.withdrawn = f.withdrawn := by
  have hturn : Turn s .step s.step := s.turn .step
  change .cancel true ∈ s.step.notices.drop s.notices.length at h
  generalize s.step = s' at hturn h ⊢
  cases hturn with
  | @resume f g rest hqueue hflight hnext =>
    obtain ⟨front, rest', notices, values, cancels, s'', f'', -, hrelay, hstopped⟩ :=
      { s with queue := rest, pending := f.keeps s.pending }.resume_cases g
    generalize Session.resume _ g = resumed at hstopped h ⊢
    obtain ⟨provider, cancelAt, rfl⟩ := hrelay.session
    have hnotices : resumed.notices = s.notices ++ notices := by cases hstopped <;> rfl
    rw [hnotices, drop_left] at h
    obtain ⟨hnumber, htoken, -, hwithdrawn⟩ := Flight.same_of_next? hnext
    -- The run is marked, so it neither waits nor completes.
    obtain rfl : cancels = true := hrelay.cancels_iff.mpr h
    have hcancelled : f''.cancelled = true := by rw [hrelay.flight]; exact Bool.or_true _
    have hinterrupted : f''.interrupted = true := by rw [hrelay.flight]; exact Bool.or_true _
    have hf'' : f''.number = f.number ∧ f''.token = f.token ∧ f''.withdrawn = f.withdrawn := by
      rw [hrelay.flight]
      exact ⟨hnumber, htoken, hwithdrawn⟩
    cases hstopped with
    | ended =>
      refine ⟨f, _, hflight, rfl, ⟨hcancelled, .inl ⟨_, rfl⟩⟩, ⟨hf''.1, hf''.2.1⟩, ⟨_, rfl, ?_⟩,
        hf''.2.2⟩
      rw [hinterrupted]
      split
      · nofun
      · next hends => exact fun he => hends (by rw [he]; rfl)
    | refused | starved =>
      exact ⟨f, _, hflight, rfl, ⟨hcancelled, .inl ⟨_, rfl⟩⟩, ⟨hf''.1, hf''.2.1⟩,
        ⟨_, rfl, nofun⟩, hf''.2.2⟩
    | waits hfalse =>
      rw [hcancelled] at hfalse
      cases hfalse
  | _ => simp at h

theorem filter_fst_eq_singleton {α : Type} {l : List (Nat × α)} {n : Nat} {a : α}
    (hnodup : (l.map Prod.fst).Nodup) (hmem : (n, a) ∈ l) :
    (l.filter fun p => p.1 == n) = [(n, a)] :=
  filter_eq_singleton hnodup hmem fun _ _ => beq_iff_eq

/-- The status with which a request came to its end, if it was run. -/
def Finish.status? : Finish → Option Status
  | .outcome o => some o.status
  | .busy | .unready _ | .abandoned => none

/-- The host was told that it cancelled a run. -/
def Notice.isCancel : Notice → Bool
  | .cancel done => done
  | .write _ | .trace _ => false

def Notice.isWrite : Notice → Bool
  | .write _ => true
  | .trace _ | .cancel _ => false

def Session.statuses (s : Session) : List (Nat × Option Status) :=
  s.finished.map fun p => (p.1, p.2.status?)

theorem Notice.cancel_mem {notices : List Notice} (h : notices.any Notice.isCancel = true) :
    .cancel true ∈ notices := by
  obtain ⟨n, hn, hcancel⟩ := any_eq_true.mp h
  cases n with
  | cancel done =>
    obtain rfl : done = true := hcancel
    exact hn
  | write | trace => cases hcancel

theorem Session.exists_outcome {number : Nat} {status : Status}
    (h : (number, some status) ∈ s.statuses) :
    ∃ o, (number, .outcome o) ∈ s.finished ∧ o.status = status := by
  obtain ⟨⟨n, finish⟩, hmem, heq⟩ := mem_map.mp h
  obtain ⟨rfl, hstatus⟩ := Prod.mk.inj heq
  cases finish with
  | outcome o => exact ⟨o, hmem, Option.some.inj hstatus⟩
  | busy | unready | abandoned => cases hstatus

/-- A script that reads a value, writes it, and writes its reciprocal. -/
def quotientText : Text :=
  "inicio\n  leer x\n  escribir x\n  escribir 1 / x\nfin"

/-- A script is run until it asks for a value and is supplied with it. -/
def suppliedMoves (p : Prepared) (cancelAt : Option Nat) (d : Datum) : List Move :=
  [.start (.ok p) cancelAt, .step, .step, .provide d]

/-- The host cancels the run when it is shown what is written first, and the
run goes on: it fails if the value is zero, and else it writes once more. Or it
comes to its end, and is cancelled then. -/
theorem quotientText_readies : Readies quotientText fun p =>
    let failing := ({} : Session).after (suppliedMoves p (some 1) (.int 0))
    let writing := ({} : Session).after (suppliedMoves p (some 1) (.int 1))
    let ended := (({} : Session).after (suppliedMoves p none (.int 1))).step
    ((failing.told .step).any Notice.isCancel = true ∧
        failing.step.settle.statuses = [(0, some .failed)]) ∧
      (ended.cancel.1 = true ∧ ended.cancel.2.settle.statuses = [(0, some .completed)]) ∧
      ((writing.told .step).dropWhile (!·.isCancel)).any Notice.isWrite = true := by
  decide +kernel

end Pseudocode
