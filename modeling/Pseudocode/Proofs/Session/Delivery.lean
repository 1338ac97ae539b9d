import Pseudocode.Proofs.Run.Extension
import Pseudocode.Proofs.Session.Cancellation

/-!
# Where a supplied value goes

A value that a session accepts is meant for the read that waits at that
moment. Such a read is known by the run that it belongs to and by how many
values this run had read before: it is the next read of the script on these
values, whatever comes after.

* `Session.deliveries`: the values that were accepted, each with its read.
* `Flight.AwaitsAt`: the run waits at the next read of its script.
* `Session.Keeps`: the run in flight has read what was accepted for its reads,
  in order, but perhaps for the last value. `Keeps.turn` says that a move keeps
  this, and `Keeps.after` that any moves do.
* `Session.Silent`: nothing more was recorded of a cancelled run.
-/

namespace Pseudocode

open Run Script List Session

variable {s s' : Session} {m : Move} {f g : Flight}

/-! ### Deliveries -/

structure Delivery where
  token : Nat
  /-- The number of values that this run had read. -/
  index : Nat
  value : Datum

/-- The deliveries to the reads of one run. -/
def deliveredTo (token : Nat) (ds : List Delivery) : List Delivery :=
  ds.filter fun d => d.token == token

namespace Session

/-- The delivery that is made with a move, if the move supplies a value that
is accepted. -/
def delivers (s : Session) : Move → List Delivery
  | .provide d =>
    if (s.provide d).1 then (s.flight.map fun f => ⟨f.token, f.inputs.length, d⟩).toList else []
  | _ => []

/-- The deliveries that are made with some moves. -/
def deliveries (s : Session) : List Move → List Delivery
  | [] => []
  | move :: rest => s.delivers move ++ (s.move move).deliveries rest

theorem provide_eq_true_iff {d : Datum} : (s.provide d).1 = true ↔
    ∃ f r, s.flight = some f ∧ f.stage = .reading ∧ s.pending = some r ∧ r.token = s.begun := by
  unfold provide
  grind

end Session

theorem deliveredTo_append (token : Nat) (ds ds' : List Delivery) :
    deliveredTo token (ds ++ ds') = deliveredTo token ds ++ deliveredTo token ds' :=
  filter_append ..

theorem nodup_reads {ds : List Delivery}
    (h : ∀ token, ((deliveredTo token ds).map Delivery.index).Nodup) :
    (ds.map fun d => (d.token, d.index)).Nodup := by
  induction ds with
  | nil => exact nodup_nil
  | cons d rest ih =>
    refine nodup_cons.mpr ⟨fun hmem => ?_, ih fun token => ?_⟩
    · obtain ⟨d', hd', heq⟩ := mem_map.mp hmem
      obtain ⟨htoken, hindex⟩ := Prod.mk.inj heq
      have hnodup := h d.token
      rw [deliveredTo, filter_cons, if_pos (beq_self_eq_true _)] at hnodup
      refine (nodup_cons.mp hnodup).1 (mem_map.mpr ⟨d', ?_, hindex⟩)
      exact mem_filter.mpr ⟨hd', by rw [htoken]; exact beq_self_eq_true _⟩
    · have hsub : (deliveredTo token rest).Sublist (deliveredTo token (d :: rest)) :=
        (sublist_cons_self d rest).filter _
      exact (hsub.map _).nodup (h token)

/-! ### Where a run is -/

def Flight.AwaitsAt (f : Flight) (label : Text) : Prop :=
  ∃ shown, shown.length + 1 = f.log.length ∧ asks shown = f.inputs.length ∧
    ∀ more, shown ++ [.read label] <+: (exec ampleFuel f.script (f.inputs ++ more)).log

/-- Every read that the run has shown has got its value. -/
structure Flight.CaughtUp (f : Flight) : Prop where
  length : f.log.length ≤ (exec ampleFuel f.script f.inputs).log.length
  asks : asks ((exec ampleFuel f.script f.inputs).log.take f.log.length) = f.inputs.length

/-- The run has been supplied with these values, and where it is agrees with
that. A value that the run does not get is the last one, and the run was
stopped before it went on. -/
def Flight.Supplied (f : Flight) (values : List Datum) : Prop :=
  match f.stage with
  | .scheduled => values = f.inputs ∧ f.CaughtUp
  | .reading | .dropped => values = f.inputs ∧ ∃ label, f.AwaitsAt label
  | .answered d => values = f.inputs ++ [d] ∧ ∃ label, f.AwaitsAt label
  | .ended e => (values = f.inputs ∧ (f.CaughtUp ∨ ∃ label, f.AwaitsAt label)) ∨
      ∃ d, values = f.inputs ++ [d] ∧ e = .cancelled ∧ f.interrupted = true

def Run.Prepared.IsReady (p : Prepared) : Prop :=
  ∃ settings lines, prepare settings lines = .ok p

def Job.IsReady : Job → Prop
  | .begin _ (.ok p) _ => p.IsReady
  | _ => True

theorem Job.IsReady.withdraw {job : Job} (h : job.IsReady) (number : Nat) :
    (job.withdraw number).IsReady := by
  cases job with
  | begin n script => cases script <;> exact h
  | advance | conclude => trivial

theorem length_kept (p : Prepared) (inputs : List Datum) :
    (exec ampleFuel p inputs).kept.length = (exec ampleFuel p inputs).log.length := by
  rw [exec_eq_ofResult]
  simp [Ended.ofResult, Machine.kept]

namespace Flight.Supplied

variable {values : List Datum}

variable (h : f.Supplied values)
include h

theorem mark {interrupted : Bool} (cancelled withdrawn : Bool)
    (hinterrupted : f.interrupted = true → interrupted = true) :
    { f with cancelled, interrupted, withdrawn }.Supplied values := by
  unfold Supplied at h ⊢
  cases hstage : f.stage with
  | scheduled =>
    rw [hstage] at h
    exact ⟨h.1, h.2.length, h.2.asks⟩
  | reading | answered d | dropped =>
    rw [hstage] at h
    exact h
  | ended =>
    rw [hstage] at h
    obtain ⟨hvalues, hcaught | hawaits⟩ | ⟨d, hvalues, hcancelled, hstop⟩ := h
    · exact .inl ⟨hvalues, .inl { hcaught with }⟩
    · exact .inl ⟨hvalues, .inr hawaits⟩
    · exact .inr ⟨d, hvalues, hcancelled, hinterrupted hstop⟩

theorem drop (hstage : f.stage = .reading) (cancelled interrupted : Bool) :
    { f with stage := .dropped, cancelled, interrupted }.Supplied values := by
  rw [Supplied, hstage] at h
  exact h

theorem halt (hjob : f.stage.job? = some .advance)
    (hnext : f.next? = none) : { f with stage := .ended .cancelled }.Supplied values := by
  unfold Supplied at h
  cases hstage : f.stage with
  | scheduled =>
    rw [hstage] at h
    exact .inl ⟨h.1, .inl { h.2 with }⟩
  | dropped =>
    rw [hstage] at h
    exact .inl ⟨h.1, .inr h.2⟩
  | answered d =>
    rw [hstage] at h
    rw [next?, hstage] at hnext
    by_cases hinterrupted : f.interrupted = true
    · exact .inr ⟨d, h.1, rfl, hinterrupted⟩
    · dsimp only at hnext
      rw [if_neg hinterrupted] at hnext
      cases hnext
  | reading | ended e =>
    rw [hstage] at hjob
    cases hjob

theorem next (hnext : f.next? = some g) : values = g.inputs ∧ g.CaughtUp := by
  obtain ⟨-, ⟨hstage, rfl⟩ | ⟨d, hstage, rfl⟩⟩ := of_next?_eq_some hnext
  · rw [Supplied, hstage] at h
    exact h
  · rw [Supplied, hstage] at h
    obtain ⟨hvalues, label, shown, hlength, hasks, hshown⟩ := h
    have hone := hshown [d]
    refine ⟨hvalues, ?_, ?_⟩
    · rw [← hlength]
      simpa using hone.length_le
    · have htake : shown ++ [.read label] =
          take f.log.length (exec ampleFuel f.script (f.inputs ++ [d])).log := by
        rw [prefix_iff_eq_take.mp hone]
        simp [hlength]
      rw [← htake, asks_append, hasks, length_append]
      rfl

theorem cases : values = f.inputs ∨ ∃ d, values = f.inputs ++ [d] ∧
    (f.stage = .answered d ∨ f.stage = .ended .cancelled ∧ f.interrupted = true) := by
  unfold Supplied at h
  cases hstage : f.stage with
  | scheduled | reading | dropped =>
    rw [hstage] at h
    exact .inl h.1
  | answered d =>
    rw [hstage] at h
    exact .inr ⟨d, h.1, .inl rfl⟩
  | ended =>
    rw [hstage] at h
    obtain ⟨hvalues, -⟩ | ⟨d, hvalues, rfl, hinterrupted⟩ := h
    · exact .inl hvalues
    · exact .inr ⟨d, hvalues, .inr ⟨rfl, hinterrupted⟩⟩

end Flight.Supplied

theorem Flight.AwaitsAt.got {label : Text} (h : f.AwaitsAt label) (hready : f.script.IsReady) :
    f.script.Got ampleFuel f.inputs f.inputs := by
  obtain ⟨shown, -, hasks, hshown⟩ := h
  obtain ⟨settings, lines, hprepare⟩ := hready
  have hall := asks_le_of_prefix (hshown [])
  rw [append_nil, asks_append, hasks] at hall
  have hgot : f.script.Got ampleFuel f.inputs
      (f.inputs.take (asks (exec ampleFuel f.script f.inputs).log)) := got_take hprepare
  rw [take_of_length_le (Nat.le_of_succ_le hall)] at hgot
  exact hgot

theorem Session.resume_supplied (hprovider : s.provider = none) (hready : g.script.IsReady)
    (hcaught : g.CaughtUp) :
    ∃ f', (s.resume g).flight = some f' ∧ (s.resume g).provider = none ∧
      (f'.token = g.token ∧ f'.script = g.script ∧ f'.inputs = g.inputs) ∧
      ((∃ e, f'.stage = .ended e ∧ f'.CaughtUp) ∨
        (f'.stage = .reading ∧ ∃ label, f'.AwaitsAt label ∧
          (s.resume g).pending = some ⟨g.token, label⟩)) := by
  obtain ⟨front, rest, notices, values, cancels, s', f', hahead, hrelay, hstopped⟩ :=
    s.resume_cases g
  generalize s.resume g = resumed at hstopped ⊢
  obtain rfl : values = [] := hrelay.values_of_none hprovider
  have hprovider' : s'.provider = none := by
    have hsame := hrelay.provider
    rw [hprovider] at hsame
    exact Option.map_eq_none_iff.mp hsame.symm
  have hinputs : g.inputs ++ s.provider.getD [] = g.inputs := by
    rw [hprovider]
    exact append_nil _
  -- What the script shows is what was shown before, what is shown now, and the rest.
  have hlog : (exec ampleFuel g.script g.inputs).log =
      (exec ampleFuel g.script g.inputs).log.take g.log.length ++ front.map Prod.fst ++
        rest.map Prod.fst := by
    unfold ahead at hahead
    rw [hinputs] at hahead
    have hfst := congrArg (map Prod.fst) hahead
    rw [map_drop, map_fst_zip (Nat.le_of_eq (length_kept _ _).symm), map_append] at hfst
    rw [append_assoc, ← hfst, take_append_drop]
  have hlength : f'.log.length =
      ((exec ampleFuel g.script g.inputs).log.take g.log.length ++ front.map Prod.fst).length := by
    rw [hrelay.flight]
    unfold refresh Flight.extend
    rw [hinputs]
    simp [length_kept]
  have hasks : asks ((exec ampleFuel g.script g.inputs).log.take g.log.length ++
      front.map Prod.fst) = g.inputs.length := by
    rw [asks_append, hcaught.asks, hrelay.reads]
    rfl
  have hsame : f'.token = g.token ∧ f'.script = g.script ∧ f'.inputs = g.inputs := by
    rw [hrelay.flight]
    exact ⟨rfl, rfl, append_nil _⟩
  generalize (exec ampleFuel g.script g.inputs).log.take g.log.length ++ front.map Prod.fst =
    shown at hlog hlength hasks
  have hcaught' : f'.CaughtUp := by
    constructor
    · rw [hsame.2.1, hsame.2.2, hlog, hlength, length_append]
      exact Nat.le_add_right _ _
    · rw [hsame.2.1, hsame.2.2, hlog, hlength, take_left]
      exact hasks
  cases hstopped with
  | ended => exact ⟨_, rfl, hprovider', hsame, .inl ⟨_, rfl, hcaught'.length, hcaught'.asks⟩⟩
  | refused => exact ⟨_, rfl, hprovider', hsame, .inl ⟨_, rfl, hcaught'.length, hcaught'.asks⟩⟩
  | starved hnone =>
    rw [hprovider'] at hnone
    cases hnone
  | @waits label kept rest =>
    refine ⟨_, rfl, hprovider', hsame, .inr ⟨rfl, label, ⟨shown, ?_, ?_, fun more => ?_⟩, ?_⟩⟩
    · rw [← hlength, length_append]
      rfl
    · rw [hasks]
      exact congrArg length hsame.2.2.symm
    · rw [hsame.2.1, hsame.2.2]
      obtain ⟨settings, lines, hprepare⟩ := hready
      refine read_append hprepare hasks ⟨rest.map Prod.fst, ?_⟩ more
      rw [hlog, append_assoc]
      rfl
    · rw [hsame.1]

/-! ### The invariant -/

/-- The session has no provider, its scripts were made ready, and what was
accepted is where it belongs. -/
structure Session.Keeps (ds : List Delivery) (s : Session) : Prop where
  provider : s.provider = none
  queue : ∀ job ∈ s.queue, job.IsReady
  script : ∀ f, s.flight = some f → f.script.IsReady
  tokens : ∀ d ∈ ds, d.token ≤ s.begun
  /-- The deliveries to a run are numbered in order. -/
  indices : ∀ token, (deliveredTo token ds).map Delivery.index =
    range (deliveredTo token ds).length
  flight : ∀ f, s.flight = some f → f.Supplied ((deliveredTo f.token ds).map Delivery.value)
  /-- The label that is registered is that of the read at which the run is. -/
  label : ∀ f r, s.flight = some f → s.pending = some r → f.AwaitsAt r.label

/-- A move of a session without a provider, with a script that was made ready
if it asks for a run. -/
def Move.Manual : Move → Prop
  | .start script _ => ∀ p, script = .ok p → p.IsReady
  | .setProvider provider => provider = none
  | .provide _ | .cancel | .withdraw | .step => True

namespace Session.Keeps

variable {ds : List Delivery}

theorem empty : ({} : Session).Keeps [] :=
  ⟨rfl, nofun, nofun, nofun, fun _ => rfl, nofun, nofun⟩

variable (h : s.Keeps ds)
include h

theorem frame (hprovider : s'.provider = none) (hbegun : s'.begun = s.begun)
    (hqueue : ∀ job ∈ s'.queue, job.IsReady) (hflight : s'.flight = s.flight)
    (hpending : ∀ r, s'.pending = some r → s.pending = some r) : s'.Keeps ds where
  provider := hprovider
  queue := hqueue
  script f hf := h.script f (hflight ▸ hf)
  tokens d hd := hbegun ▸ h.tokens d hd
  indices := h.indices
  flight f hf := h.flight f (hflight ▸ hf)
  label f r hf hr := h.label f r (hflight ▸ hf) (hpending r hr)

theorem setFlight (hflight : s.flight = some f) (hprovider : s'.provider = none)
    (hbegun : s'.begun = s.begun) (hqueue : ∀ job ∈ s'.queue, job.IsReady)
    (hflight' : s'.flight = some g) (hsame : g.token = f.token ∧ g.script = f.script)
    (hsupplied : g.Supplied ((deliveredTo f.token ds).map Delivery.value))
    (hlabel : ∀ r, s'.pending = some r → g.AwaitsAt r.label) : s'.Keeps ds where
  provider := hprovider
  queue := hqueue
  script f' hf' := by
    obtain rfl := Option.some.inj (hflight'.symm.trans hf')
    rw [hsame.2]
    exact h.script f hflight
  tokens d hd := hbegun ▸ h.tokens d hd
  indices := h.indices
  flight f' hf' := by
    obtain rfl := Option.some.inj (hflight'.symm.trans hf')
    rw [hsame.1]
    exact hsupplied
  label f' r hf' hr := by
    obtain rfl := Option.some.inj (hflight'.symm.trans hf')
    exact hlabel r hr

theorem resume (hflight : s.flight = some f) (hnext : f.next? = some g)
    {rest : List Job} (hrest : ∀ job ∈ rest, job.IsReady) :
    ({ s with queue := rest, pending := none }.resume g).Keeps ds := by
  obtain ⟨hvalues, hcaught⟩ := (h.flight f hflight).next hnext
  obtain ⟨-, hsame, hsame', -⟩ := Flight.same_of_next? hnext
  have hready : g.script.IsReady := hsame' ▸ h.script f hflight
  obtain ⟨f', hf', hprovider, ⟨htoken, hscript, hinputs⟩, hends⟩ :=
    resume_supplied (s := { s with queue := rest, pending := none }) h.provider hready hcaught
  obtain ⟨f'', _, _, _, pending, queue, heq, -, hshape⟩ :=
    { s with queue := rest, pending := none }.resume_shape g
  rw [heq] at hf' hprovider hends ⊢
  cases hf'
  have hqueue : ∀ job ∈ queue, job.IsReady := by
    obtain ⟨_, -, rfl, -⟩ | ⟨-, rfl, -⟩ := hshape
    · exact forall_mem_concat hrest trivial
    · exact hrest
  refine h.setFlight hflight hprovider rfl hqueue rfl
    ⟨htoken.trans hsame, hscript.trans hsame'⟩ ?_ ?_
  · rw [hvalues, Flight.Supplied]
    obtain ⟨e, hstage, hcaught'⟩ | ⟨hstage, label, hawaits, -⟩ := hends
    · rw [hstage]
      exact .inl ⟨hinputs.symm, .inl hcaught'⟩
    · rw [hstage]
      exact ⟨hinputs.symm, label, hawaits⟩
  · intro r hr
    obtain ⟨e, hstage, -⟩ | ⟨-, label, hawaits, hpending⟩ := hends
    · obtain ⟨_, -, -, hpending⟩ | ⟨hreading, -⟩ := hshape
      · rw [show pending = some r from hr] at hpending
        cases hpending
      · rw [hstage] at hreading
        cases hreading
    · obtain rfl := Option.some.inj (hpending.symm.trans hr)
      exact hawaits

variable (horderly : s.Orderly)
include horderly

theorem answer (d : Datum) (hflight : s.flight = some f) (hstage : f.stage = .reading) :
    Keeps (ds ++ [⟨f.token, f.inputs.length, d⟩])
      { s with
        flight := some { f with stage := .answered d }
        queue := s.queue ++ [.advance] } := by
  have hsupplied := h.flight f hflight
  rw [Flight.Supplied, hstage] at hsupplied
  obtain ⟨hvalues, label, hawaits⟩ := hsupplied
  have hlength : (deliveredTo f.token ds).length = f.inputs.length := by
    rw [← hvalues, length_map]
  have hlast : deliveredTo f.token [⟨f.token, f.inputs.length, d⟩] =
      [⟨f.token, f.inputs.length, d⟩] := by
    simp [deliveredTo]
  refine ⟨h.provider, ?_, ?_, ?_, fun token => ?_, ?_, ?_⟩
  · exact forall_mem_concat h.queue trivial
  · rintro f' hf'
    cases hf'
    exact h.script f hflight
  · refine forall_mem_concat h.tokens ?_
    exact Nat.le_of_eq (horderly.token f hflight)
  · rw [deliveredTo_append]
    by_cases htoken : f.token = token
    · -- The next number is that of the values so far.
      subst htoken
      rw [hlast, map_append, h.indices, length_append, hlength, length_singleton, range_succ]
      rfl
    · have hnone : deliveredTo token [⟨f.token, f.inputs.length, d⟩] = [] := by
        simp [deliveredTo, htoken]
      rw [hnone, append_nil]
      exact h.indices token
  · rintro f' hf'
    cases hf'
    refine ⟨?_, label, hawaits⟩
    rw [deliveredTo_append, hlast, map_append, hvalues]
    rfl
  · rintro f' r hf' hr
    cases hf'
    exact h.label f r hflight hr

theorem launch {number : Nat} {p : Prepared}
    {rest : List Job} (hqueue : s.queue = .begin number (.ok p) false :: rest)
    (hflight : s.flight = none) :
    Keeps ds
      { s with
        queue := rest ++ [.advance]
        begun := s.begun + 1
        flight := some { number, token := s.begun + 1, script := p } } := by
  have hjobs := h.queue
  rw [hqueue] at hjobs
  obtain ⟨hready, hrest⟩ := forall_mem_cons.mp hjobs
  have hnone : deliveredTo (s.begun + 1) ds = [] := by
    refine filter_eq_nil_iff.mpr fun d hd htoken => ?_
    have hle := h.tokens d hd
    rw [eq_of_beq htoken] at hle
    omega
  refine ⟨h.provider, ?_, ?_, fun d hd => Nat.le_succ_of_le (h.tokens d hd), h.indices, ?_, ?_⟩
  · exact forall_mem_concat hrest trivial
  · rintro f' hf'
    cases hf'
    exact hready
  · rintro f' hf'
    cases hf'
    refine ⟨?_, Nat.zero_le _, rfl⟩
    rw [hnone]
    rfl
  · intro f' r _ hr
    have hpending : s.pending = some r := hr
    rw [horderly.pending_eq_none hflight] at hpending
    cases hpending

theorem turn_of_ne_provide (hturn : Turn s m s')
    (hm : m.Manual) (hprovide : ∀ d, m ≠ .provide d) : s'.Keeps ds := by
  have hadvance : ∀ job ∈ s.queue ++ [.advance], job.IsReady :=
    forall_mem_concat h.queue trivial
  have hrest : ∀ {job : Job} {rest : List Job}, s.queue = job :: rest →
      ∀ job ∈ rest, job.IsReady := by
    intro job rest hqueue job' hjob'
    exact h.queue job' (hqueue ▸ mem_cons_of_mem _ hjob')
  cases hturn with
  | answer d | refuse d => exact absurd rfl (hprovide d)
  | request script =>
    refine h.frame h.provider rfl ?_ rfl fun _ hr => hr
    refine forall_mem_concat h.queue ?_
    cases script with
    | ok p => exact hm p rfl
    | error => trivial
  | launch hqueue hflight => exact h.launch horderly hqueue hflight
  | @halt f rest hqueue hflight hjob hnext =>
    refine h.setFlight hflight h.provider rfl ?_ rfl ⟨rfl, rfl⟩
      ((h.flight f hflight).halt hjob hnext) ?_
    · exact forall_mem_concat (hrest hqueue) trivial
    · rw [horderly.keeps_eq_none hflight]
      nofun
  | @resume f g rest hqueue hflight hnext =>
    rw [horderly.keeps_eq_none hflight]
    exact h.resume hflight hnext (hrest hqueue)
  | cancelNone | withdrawNone | idle => exact h
  | setProvider => exact h.frame hm rfl h.queue rfl fun _ hr => hr
  | withdrawRequest =>
    refine h.frame h.provider rfl (fun job hjob => ?_) rfl fun _ hr => hr
    obtain ⟨before, hbefore, rfl⟩ := mem_map.mp hjob
    exact (h.queue before hbefore).withdraw _
  | @cancelRead f hflight hstage =>
    exact h.setFlight hflight h.provider rfl hadvance rfl ⟨rfl, rfl⟩
      ((h.flight f hflight).drop hstage _ _) nofun
  | @cancelQueued f hflight =>
    exact h.setFlight hflight h.provider rfl h.queue rfl ⟨rfl, rfl⟩
      ((h.flight f hflight).mark _ _ fun _ => rfl) nofun
  | @cancelEnded f e hflight =>
    exact h.setFlight hflight h.provider rfl h.queue rfl ⟨rfl, rfl⟩
      ((h.flight f hflight).mark _ _ id) nofun
  | @withdrawRead f hflight hstage =>
    exact h.setFlight hflight h.provider rfl hadvance rfl ⟨rfl, rfl⟩
      ((h.flight f hflight).drop hstage _ _) fun r hr => h.label f r hflight hr
  | @withdrawQueued f hflight =>
    exact h.setFlight hflight h.provider rfl h.queue rfl ⟨rfl, rfl⟩
      ((h.flight f hflight).mark _ _ fun _ => rfl) fun r hr => h.label f r hflight hr
  | @withdrawEnded f e hflight =>
    exact h.setFlight hflight h.provider rfl h.queue rfl ⟨rfl, rfl⟩
      ((h.flight f hflight).mark _ _ id) fun r hr => h.label f r hflight hr
  | abandon hqueue | busy hqueue | reject hqueue | skip hqueue =>
    exact h.frame h.provider rfl (hrest hqueue) rfl fun _ hr => hr
  | conclude hqueue => exact ⟨h.provider, hrest hqueue, nofun, h.tokens, h.indices, nofun, nofun⟩

theorem turn (hturn : Turn s m s') (hm : m.Manual) : s'.Keeps (ds ++ s.delivers m) := by
  have hnil : ds ++ [] = ds := append_nil ds
  cases m with
  | provide d =>
    cases hturn with
    | @answer f r d hflight hstage hpending htoken =>
      have haccepted : (s.provide d).1 = true :=
        provide_eq_true_iff.mpr ⟨f, r, hflight, hstage, hpending, htoken⟩
      rw [delivers, if_pos haccepted, hflight]
      exact h.answer horderly d hflight hstage
    | refuse d hnone =>
      have hrefused : ¬ (s.provide d).1 = true := by
        rw [provide_eq_true_iff]
        rintro ⟨f, r, hflight, hstage, hpending, htoken⟩
        exact hnone f r hflight hstage hpending htoken
      rw [delivers, if_neg hrefused, hnil]
      exact h.frame h.provider rfl h.queue rfl nofun
  | start | cancel | withdraw | setProvider | step =>
    exact hnil.symm ▸ h.turn_of_ne_provide horderly hturn hm nofun

theorem after {moves : List Move}
    (hmoves : ∀ move ∈ moves, move.Manual) : (s.after moves).Keeps (ds ++ s.deliveries moves) := by
  induction moves generalizing s ds with
  | nil => exact (append_nil ds).symm ▸ h
  | cons move rest ih =>
    obtain ⟨hmove, hrest⟩ := forall_mem_cons.mp hmoves
    have hnext := ih (h.turn horderly (s.turn move) hmove) (horderly.move move) hrest
    rw [append_assoc] at hnext
    exact hnext

end Session.Keeps

/-! ### After a run was cancelled -/

/-- Between the sessions `s` and `t`, nothing more was recorded of the run `f`,
and no value was accepted for it. -/
structure Session.Silent (f : Flight) (s t : Session) : Prop where
  flight : ∀ g, t.flight = some g → g.token = f.token → g.log = f.log ∧ g.inputs = f.inputs
  /-- Nothing at all is shown before another run begins. -/
  notices : t.begun = s.begun → t.notices = s.notices
  outcome : ∀ o, (f.number, .outcome o) ∈ t.finished →
    o.output = written f.log ∧ o.trace = traced f.log
  /-- A value is accepted only when a later run waits for one. -/
  provide : ∀ d, (t.provide d).1 = true →
    ∃ g, t.flight = some g ∧ f.token < g.token ∧ g.stage = .reading

theorem Session.Orderly.not_mem_finished (h : s.Orderly) (hflight : s.flight = some f)
    (finish : Finish) : (f.number, finish) ∉ s.finished := by
  intro hmem
  have hnodup : s.numbers.Nodup := h.numbers.nodup_iff.mpr nodup_range
  rw [Session.numbers, hflight] at hnodup
  refine (nodup_append.mp hnodup).2.2 f.number ?_ f.number ?_ rfl
  · exact mem_append_right _ (mem_singleton_self _)
  · exact mem_map.mpr ⟨_, hmem, rfl⟩

theorem Session.silent_of_halted (h : s.Orderly) (hflight : s.flight = some f)
    (hhalted : f.Halted) (later : List Move) : Silent f s (s.after later) := by
  have hstart : s.Halting f s.notices True :=
    .flying hflight ⟨hhalted, rfl, rfl, rfl, rfl, rfl⟩ (fun _ => trivial) rfl
  have hlater := hstart.after h fun (_ : .withdraw ∈ later) => trivial
  have horderly : (s.after later).Orderly := h.after later
  have hbegun : f.token = s.begun := h.token f hflight
  cases hlater with
  | @flying g hg hremains _ hnotices =>
    refine ⟨fun g' hg' _ => ?_, fun _ => hnotices, fun o ho => ?_, fun d hd => ?_⟩
    · obtain rfl := Option.some.inj (hg.symm.trans hg')
      exact ⟨hremains.log, hremains.inputs⟩
    · rw [← hremains.number] at ho
      exact absurd ho (horderly.not_mem_finished hg _)
    · obtain ⟨g', r, hg', hstage, -⟩ := provide_eq_true_iff.mp hd
      obtain rfl := Option.some.inj (hg.symm.trans hg')
      exact absurd hstage hremains.halted.stage_ne_reading
  | concluded hconcluded =>
    obtain ⟨o, hfinished, hlog, -⟩ := hconcluded.outcome
    refine ⟨fun g hg htoken => ?_, fun ht => ?_, fun o' ho' => ?_, fun d hd => ?_⟩
    · exact absurd htoken (Nat.ne_of_gt (hconcluded.flight g hg))
    · exact hconcluded.notices (ht.trans hbegun.symm)
    · have hfilter := filter_fst_eq_singleton horderly.nodup_finished hfinished
      have hmem : (f.number, .outcome o') ∈ [(f.number, Finish.outcome o)] := by
        rw [← hfilter]
        exact mem_filter.mpr ⟨ho', beq_self_eq_true _⟩
      obtain rfl := Finish.outcome.inj (Prod.mk.inj (mem_singleton.mp hmem)).2
      exact hlog
    · obtain ⟨g, r, hg, hstage, -⟩ := provide_eq_true_iff.mp hd
      exact ⟨g, hg, hconcluded.flight g hg, hstage⟩

theorem Session.Keeps.caughtUp_of_told {ds : List Delivery} (h : s.Keeps ds)
    (horderly : s.Orderly) (htold : .cancel true ∈ s.told .step)
    (hflight : s.step.flight = some g) : g.CaughtUp := by
  obtain ⟨_, g', -, hg', -, -, ⟨e, hstage, -⟩, -⟩ := halted_of_told htold
  obtain rfl := Option.some.inj (hflight.symm.trans hg')
  have hturn : Turn s .step s.step := s.turn .step
  change .cancel true ∈ s.step.notices.drop s.notices.length at htold
  generalize s.step = s' at hturn htold hflight
  cases hturn with
  | @resume f next rest hqueue hf hnext =>
    obtain ⟨-, hcaught⟩ := (h.flight f hf).next hnext
    have hready : next.script.IsReady := (Flight.same_of_next? hnext).2.2.1 ▸ h.script f hf
    rw [horderly.keeps_eq_none hf] at hflight
    obtain ⟨f', hf', -, -, hends⟩ :=
      resume_supplied (s := { s with queue := rest, pending := none }) h.provider hready hcaught
    obtain rfl := Option.some.inj (hf'.symm.trans hflight)
    obtain ⟨_, -, hcaught'⟩ | ⟨hreading, -⟩ := hends
    · exact hcaught'
    · rw [hstage] at hreading
      cases hreading
  | _ => simp at htold

theorem Notice.exists_write_after {notices : List Notice}
    (h : (notices.dropWhile (!·.isCancel)).any Notice.isWrite = true) :
    ∃ before rest d, notices = before ++ .cancel true :: rest ∧ .write d ∈ rest := by
  induction notices with
  | nil => cases h
  | cons n rest ih =>
    cases hn : n.isCancel with
    | false =>
      rw [dropWhile_cons_of_pos (by rw [hn]; rfl)] at h
      obtain ⟨before, rest', d, hrest, hmem⟩ := ih h
      exact ⟨n :: before, rest', d, by rw [hrest]; rfl, hmem⟩
    | true =>
      cases n with
      | cancel done =>
        obtain rfl : done = true := hn
        obtain ⟨n', hmem, hwrite⟩ := any_eq_true.mp h
        cases n' with
        | write d =>
          obtain hmem | hmem := mem_cons.mp hmem
          · cases hmem
          · exact ⟨[], rest, d, rfl, hmem⟩
        | trace | cancel => cases hwrite
      | write | trace => cases hn

theorem suppliedMoves_manual {a : Analysis} {p : Prepared}
    (h : prepare a.settings a.script = .ok p) (cancelAt : Option Nat) (d : Datum) :
    ∀ move ∈ suppliedMoves p cancelAt d, move.Manual := by
  have hready : (Move.start (.ok p) cancelAt).Manual := by
    rintro p' hp'
    cases hp'
    exact ⟨a.settings, a.script, h⟩
  exact forall_mem_cons.mpr ⟨hready, forall_mem_cons.mpr ⟨trivial,
    forall_mem_cons.mpr ⟨trivial, forall_mem_singleton.mpr trivial⟩⟩⟩

end Pseudocode
