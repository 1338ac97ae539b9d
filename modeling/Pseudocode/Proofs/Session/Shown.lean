import Pseudocode.Proofs.Session.Turn

/-!
# The steps that a session shows

A session shows events of runs of its scripts, some of them only in part:
a run can be cancelled, or wait for a value that never comes. Whatever is
true of every step that the scripts report is true of every step that the
session shows to its host or hands over in an outcome.

* `Prepared.Tells`: a property of all steps that a script reports.
* `Session.Shows`: the invariant. `Shows.turn` says that one move keeps it,
  and `Shows.after` that any moves do.
-/

namespace Pseudocode

open Run Script List

/-! ### The invariant -/

/-- Every step among the events has a property. -/
def AllSteps (P : TraceEvent → Prop) (log : List Event) : Prop :=
  ∀ e, Event.trace e ∈ log → P e

def Run.Prepared.Tells (P : TraceEvent → Prop) (p : Prepared) : Prop :=
  ∀ inputs, AllSteps P (exec ampleFuel p inputs).log ∧ AllSteps P (exec ampleFuel p inputs).kept

structure Flight.Shows (P : TraceEvent → Prop) (f : Flight) : Prop where
  log : AllSteps P f.log
  script : f.script.Tells P

def Job.Shows (P : TraceEvent → Prop) : Job → Prop
  | .begin _ (.ok p) _ => p.Tells P
  | _ => True

def Notice.Shows (P : TraceEvent → Prop) : Notice → Prop
  | .trace e => P e
  | _ => True

def Finish.Shows (P : TraceEvent → Prop) : Finish → Prop
  | .outcome o => ∀ e ∈ o.trace, P e
  | _ => True

/-- Every step that the session has shown, or can show, has a property. -/
structure Session.Shows (P : TraceEvent → Prop) (s : Session) : Prop where
  flight : ∀ f, s.flight = some f → f.Shows P
  queue : ∀ job ∈ s.queue, job.Shows P
  notices : ∀ n ∈ s.notices, n.Shows P
  finished : ∀ p ∈ s.finished, p.2.Shows P

variable {P : TraceEvent → Prop} {s s' : Session} {f : Flight}

theorem AllSteps.append {log log' : List Event} (h : AllSteps P log) (h' : AllSteps P log') :
    AllSteps P (log ++ log') := by
  intro e he
  exact (mem_append.mp he).elim (h e) (h' e)

theorem AllSteps.singleton {event : Event} (h : ∀ e, event = .trace e → P e) : AllSteps P [event] :=
  fun e he => h e (mem_singleton.mp he).symm

theorem AllSteps.take {log : List Event} (h : AllSteps P log) (n : Nat) : AllSteps P (log.take n) :=
  fun e he => h e (mem_of_mem_take he)

theorem Finish.shows_ofLog {log : List Event} (h : AllSteps P log) (status : Status)
    (error : Option RunError) : (Finish.outcome (.ofLog status log error)).Shows P := by
  intro e he
  obtain ⟨event, hevent, htrace⟩ := mem_filterMap.mp he
  cases event with
  | trace =>
    cases htrace
    exact h _ hevent
  | _ => cases htrace

theorem Flight.Shows.finish (h : f.Shows P) (e : Ending) : (f.finish e).Shows P := by
  unfold Flight.finish
  split
  · split
    · exact Finish.shows_ofLog h.log _ _
    · trivial
  · split
    · exact Finish.shows_ofLog h.log _ _
    · exact Finish.shows_ofLog h.log _ _
    · split
      · exact Finish.shows_ofLog h.log _ _
      · trivial

namespace Session.Shows

theorem empty : ({} : Session).Shows P :=
  ⟨nofun, nofun, nofun, nofun⟩

variable (h : s.Shows P)
include h

theorem endFlight (hf : f.Shows P) (e : Ending) : (s.endFlight f e).Shows P where
  flight _ hg := Option.some.inj hg ▸ { hf with }
  queue := forall_mem_concat h.queue trivial
  notices := h.notices
  finished := h.finished

theorem resume (hf : f.Shows P) : (s.resume f).Shows P := by
  -- The script is run again from its start, and what was shown before is left out.
  obtain ⟨hlog, hkept⟩ := hf.script (f.inputs ++ s.provider.getD [])
  obtain ⟨front, rest, notices, values, cancels, s', f', hahead, hrelay, hstopped⟩ :=
    s.resume_cases f
  generalize s.resume f = resumed at hstopped ⊢
  have hevents : ∀ p ∈ front ++ rest, (∀ t, p.1 = .trace t → P t) ∧ ∀ t, p.2 = .trace t → P t := by
    intro p hp
    obtain ⟨hevent, hlast⟩ := of_mem_zip (mem_of_mem_drop (hahead ▸ hp))
    exact ⟨fun t ht => hlog t (ht ▸ hevent), fun t ht => hkept t (ht ▸ hlast)⟩
  obtain ⟨hfront, hrest⟩ := forall_mem_append.mp hevents
  have hs' : s'.Shows P := by
    obtain ⟨_, _, rfl⟩ := hrelay.session
    refine ⟨h.flight, h.queue, forall_mem_append.mpr ⟨h.notices, fun n hn => ?_⟩, h.finished⟩
    cases n with
    | trace t =>
      obtain ⟨p, hp, ht⟩ := mem_map.mp (hrelay.traces t hn)
      exact (hfront p hp).1 t ht
    | write | cancel => trivial
  have hf' : f'.Shows P := by
    rw [hrelay.flight]
    refine ⟨(hkept.take _).append fun t ht => ?_, hf.script⟩
    obtain ⟨p, hp, hlast⟩ := mem_map.mp ht
    exact (hfront p hp).2 t hlast
  have hnext {event kept rest'} (heq : rest = (event, kept) :: rest') :
      AllSteps P (f'.log ++ [kept]) :=
    hf'.log.append (.singleton (hrest (event, kept) (heq ▸ mem_cons_self ..)).2)
  cases hstopped with
  | ended | refused => exact hs'.endFlight hf' _
  | starved => exact hs'.endFlight (f := { f' with log := _ }) ⟨hnext rfl, hf'.script⟩ _
  | waits =>
    refine ⟨?_, hs'.queue, hs'.notices, hs'.finished⟩
    rintro _ ⟨⟩
    exact ⟨hnext rfl, hf'.script⟩

theorem turn {m : Move} (hturn : Turn s m s')
    (hm : ∀ p, m.script? = some (.ok p) → p.Tells P) : s'.Shows P := by
  have hset : ∀ {g : Flight}, g.Shows P → ∀ g', some g = some g' → g'.Shows P :=
    fun hg _ heq => Option.some.inj heq ▸ hg
  have hadvance : ∀ {jobs : List Job}, (∀ job ∈ jobs, job.Shows P) →
      ∀ job ∈ jobs ++ [.advance], job.Shows P :=
    fun hjobs => forall_mem_concat hjobs trivial
  have hqueued : ∀ {job : Job} {rest : List Job}, s.queue = job :: rest →
      job.Shows P ∧ ∀ job ∈ rest, job.Shows P :=
    fun hqueue => forall_mem_cons.mp (hqueue ▸ h.queue)
  have hfinish : ∀ {e : Finish} (number : Nat), e.Shows P →
      ∀ p ∈ s.finished ++ [(number, e)], p.2.Shows P :=
    fun _ he => forall_mem_concat h.finished he
  cases hturn with
  | request script =>
    refine ⟨h.flight, forall_mem_concat h.queue ?_, h.notices, h.finished⟩
    cases script with
    | ok p => exact hm p rfl
    | error => trivial
  | @answer f _ _ hf | @cancelRead f hf | @withdrawRead f hf =>
    exact ⟨hset { h.flight f hf with }, hadvance h.queue, h.notices, h.finished⟩
  | @cancelQueued f hf | @cancelEnded f _ hf | @withdrawQueued f hf | @withdrawEnded f _ hf =>
    exact ⟨hset { h.flight f hf with }, h.queue, h.notices, h.finished⟩
  | refuse | cancelNone | withdrawNone | setProvider | idle => exact { h with }
  | withdrawRequest =>
    refine ⟨h.flight, fun job hjob => ?_, h.notices, h.finished⟩
    -- A job that is withdrawn keeps its script.
    obtain ⟨before, hbefore, rfl⟩ := mem_map.mp hjob
    have hshows := h.queue before hbefore
    cases before with
    | begin number script => cases script <;> exact hshows
    | _ => trivial
  | abandon hqueue | busy hqueue =>
    exact ⟨h.flight, (hqueued hqueue).2, h.notices, hfinish _ trivial⟩
  | @reject _ fault _ hqueue =>
    refine ⟨h.flight, (hqueued hqueue).2, h.notices, hfinish _ ?_⟩
    cases fault with
    | invalid => exact nofun
    | raised => trivial
  | launch hqueue =>
    exact ⟨hset ⟨nofun, (hqueued hqueue).1⟩, hadvance (hqueued hqueue).2, h.notices, h.finished⟩
  | @halt f _ hqueue hf =>
    refine endFlight (s := { s with queue := _, pending := _ }) ?_ (h.flight f hf) _
    exact ⟨h.flight, (hqueued hqueue).2, h.notices, h.finished⟩
  | @resume f _ _ hqueue hf hnext =>
    refine resume ⟨h.flight, (hqueued hqueue).2, h.notices, h.finished⟩ ?_
    obtain ⟨-, ⟨-, rfl⟩ | ⟨d, -, rfl⟩⟩ := Flight.of_next?_eq_some hnext
    · exact h.flight _ hf
    · exact { h.flight f hf with }
  | @conclude f e _ hqueue hf =>
    exact ⟨nofun, (hqueued hqueue).2, h.notices, hfinish _ ((h.flight f hf).finish e)⟩
  | skip hqueue => exact ⟨h.flight, (hqueued hqueue).2, h.notices, h.finished⟩

theorem after {moves : List Move}
    (hmoves : ∀ move ∈ moves, ∀ p, move.script? = some (.ok p) → p.Tells P) :
    (s.after moves).Shows P := by
  induction moves generalizing s with
  | nil => exact h
  | cons move rest ih =>
    obtain ⟨hmove, hrest⟩ := forall_mem_cons.mp hmoves
    exact ih (h.turn (s.turn move) hmove) hrest

end Session.Shows

end Pseudocode
