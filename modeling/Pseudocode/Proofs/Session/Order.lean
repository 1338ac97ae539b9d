import Pseudocode.Proofs.Session.Turn

/-!
# One run at a time

Whatever is asked of a session and whenever, its parts agree. Each request to
run is at one place: it waits for its turn, is in flight, or has come to its
end. At most one is in flight, and the queue has the one job that this run is
due and no other job of a run. A read is registered only for that run.

* `Session.Orderly`: the parts agree. `Orderly.turn` says that a move keeps
  this, one lemma for each part, and `Orderly.after` that any moves do.
* `Session.returned`: the requests that come to their end with a move.
* `runs_one_at_a_time`: what this means for whoever asks for a run.
-/

namespace Pseudocode

open Run Script List Flight

/-! ### The invariant -/

def Stage.registers : Stage → Bool
  | .reading | .answered _ | .dropped => true
  | .scheduled | .ended _ => false

/-- The requests of a session, wherever they are: before their turn, in
flight, or at their end. -/
def Session.numbers (s : Session) : List Nat :=
  s.queue.filterMap Job.number? ++ (s.flight.map Flight.number).toList ++
    s.finished.map Prod.fst

structure Session.Orderly (s : Session) : Prop where
  /-- Every request is at exactly one place. -/
  numbers : s.numbers.Perm (range s.requested)
  /-- The jobs that begin no run are those that the run in flight is due: one,
  or none while it waits for a value. -/
  jobs : s.queue.filter Job.serves = s.due?.toList
  /-- The run in flight is the last that began. -/
  token : ∀ f, s.flight = some f → f.token = s.begun
  /-- A read is registered for the run in flight, which is at this read, has
  been supplied with a value for it or has given it up. -/
  pending : ∀ r, s.pending = some r → ∃ f, s.flight = some f ∧ r.token = s.begun ∧
    f.cancelled = false ∧ f.stage.registers = true
  /-- A run that waits for a value has its read registered. -/
  reading : ∀ f, s.flight = some f → f.stage = .reading →
    ∃ label, s.pending = some ⟨s.begun, label⟩

variable {s s' : Session} {m : Move}

theorem Job.number?_withdraw (number : Nat) (job : Job) :
    (job.withdraw number).number? = job.number? := by
  cases job <;> rfl

theorem Job.number?_eq_none {job : Job} (h : job.serves = true) : job.number? = none := by
  cases job with
  | begin => cases h
  | advance | conclude => rfl

theorem filter_map_withdraw (number : Nat) (jobs : List Job) :
    (jobs.map (Job.withdraw number)).filter Job.serves = jobs.filter Job.serves := by
  induction jobs with
  | nil => rfl
  | cons job rest ih => cases job <;> simp [Job.withdraw, Job.serves, filter_cons, ih]

theorem Flight.same_of_next? {f g : Flight} (h : f.next? = some g) :
    g.number = f.number ∧ g.token = f.token ∧ g.script = f.script ∧ g.withdrawn = f.withdrawn := by
  obtain ⟨-, ⟨-, rfl⟩ | ⟨d, -, rfl⟩⟩ := of_next?_eq_some h
  · exact ⟨rfl, rfl, rfl, rfl⟩
  · exact ⟨rfl, rfl, rfl, rfl⟩

theorem Turn.resume_shape {f g : Flight} (rest : List Job) (hnext : f.next? = some g) :
    ∃ f' provider cancelAt notices pending queue,
      { s with queue := rest, pending := f.keeps s.pending }.resume g =
        { s with
          flight := some f', provider, cancelAt, notices := s.notices ++ notices, pending, queue } ∧
      (f'.number = f.number ∧ f'.token = f.token ∧ f'.script = f.script) ∧
      ((∃ e, f'.stage = .ended e ∧ queue = rest ++ [.conclude] ∧
          (pending = none ∨ f.stage = .scheduled ∧ pending = s.pending)) ∨
        (f'.stage = .reading ∧ queue = rest ∧ f'.cancelled = false ∧
          ∃ label, pending = some ⟨f.token, label⟩)) := by
  obtain ⟨-, hg⟩ := of_next?_eq_some hnext
  obtain ⟨hnumber, htoken, hscript, -⟩ := same_of_next? hnext
  obtain ⟨f', provider, cancelAt, notices, pending, queue, heq, hf', hends⟩ :=
    { s with queue := rest, pending := f.keeps s.pending }.resume_shape g
  rw [hnumber, htoken, hscript] at hf'
  rw [htoken] at hends
  refine ⟨f', provider, cancelAt, notices, pending, queue, heq, hf', ?_⟩
  obtain ⟨e, hstage, hqueue, hpending⟩ | hreads := hends
  · refine .inl ⟨e, hstage, hqueue, ?_⟩
    obtain ⟨hscheduled, -⟩ | ⟨d, hanswered, -⟩ := hg
    · exact .inr ⟨hscheduled, by rw [hpending, keeps, hscheduled]⟩
    · exact .inl (by rw [hpending, keeps, hanswered])
  · exact .inr hreads

namespace Session.Orderly

/-! ### What a move does to each part -/

theorem empty : ({} : Session).Orderly :=
  ⟨.refl _, rfl, nofun, nofun, nofun⟩

variable (h : s.Orderly)
include h

theorem of_queue_cons {job : Job} {rest : List Job}
    (hqueue : s.queue = job :: rest) (hjob : job.serves = true) :
    s.due? = some job ∧ rest.filter Job.serves = [] := by
  have hjobs := h.jobs
  rw [hqueue, filter_cons_of_pos hjob] at hjobs
  cases hdue : s.due? with
  | none =>
    rw [hdue] at hjobs
    cases hjobs
  | some =>
    rw [hdue] at hjobs
    obtain ⟨rfl, hrest⟩ := cons.inj hjobs
    exact ⟨rfl, hrest⟩

section

variable (hturn : Turn s m s')
include hturn

theorem numbers_turn : s'.numbers.Perm (range s'.requested) := by
  have hnumbers := h.numbers
  unfold Session.numbers at hnumbers ⊢
  rw [perm_iff_count] at hnumbers ⊢
  intro n
  have hcount := hnumbers n
  simp only [count_append] at hcount ⊢
  cases hturn with
  | resume hqueue hflight hnext =>
    obtain ⟨f', _, _, _, _, queue, heq, ⟨hnumber, -⟩, hends⟩ := Turn.resume_shape _ hnext
    rw [heq]
    rw [hqueue, hflight] at hcount
    rw [Option.map_some, hnumber]
    obtain ⟨_, -, rfl, -⟩ | ⟨-, rfl, -⟩ := hends
    · rw [filterMap_append, count_append]
      exact hcount
    · exact hcount
  | skip hqueue hjob =>
    rw [hqueue, filterMap_cons_none (Job.number?_eq_none hjob)] at hcount
    exact hcount
  | withdrawRequest =>
    have hjobs : (s.queue.map (Job.withdraw (s.requested - 1))).filterMap Job.number? =
        s.queue.filterMap Job.number? := by
      rw [filterMap_map]
      exact filterMap_congr fun job _ => job.number?_withdraw _
    rw [hjobs]
    exact hcount
  | _ => simp_all [filterMap_cons, count_cons, range_succ, Job.number?] <;> omega

theorem jobs_turn : s'.queue.filter Job.serves = s'.due?.toList := by
  have hjobs := h.jobs
  cases hturn with
  | resume hqueue hflight hnext =>
    obtain ⟨-, hrest⟩ := h.of_queue_cons hqueue rfl
    obtain ⟨f', _, _, _, _, queue, heq, -, hends⟩ := Turn.resume_shape _ hnext
    rw [heq]
    obtain ⟨e, hstage, rfl, -⟩ | ⟨hstage, rfl, -⟩ := hends
    · rw [filter_append, hrest, due?, Option.bind_some, hstage]
      rfl
    · rw [hrest, due?, Option.bind_some, hstage]
      rfl
  | withdrawRequest =>
    rw [filter_map_withdraw]
    exact hjobs
  | halt hqueue =>
    obtain ⟨-, hrest⟩ := h.of_queue_cons hqueue rfl
    rw [filter_append, hrest]
    rfl
  | conclude hqueue => exact (h.of_queue_cons hqueue rfl).2
  | skip hqueue hjob hdue => exact absurd (h.of_queue_cons hqueue hjob).1 hdue
  | _ => simp_all [filter_cons, due?, Job.serves, Stage.job?]

theorem token_turn : ∀ f, s'.flight = some f → f.token = s'.begun := by
  have htoken := h.token
  cases hturn with
  | resume hqueue hflight hnext =>
    obtain ⟨f', _, _, _, _, _, heq, ⟨-, hsame, -⟩, -⟩ := Turn.resume_shape _ hnext
    rw [heq]
    grind
  | _ => grind

theorem pending_turn :
    ∀ r, s'.pending = some r → ∃ f, s'.flight = some f ∧ r.token = s'.begun ∧
      f.cancelled = false ∧ f.stage.registers = true := by
  have htoken := h.token
  have hpending := h.pending
  cases hturn with
  | resume hqueue hflight hnext =>
    obtain ⟨f', _, _, _, _, _, heq, ⟨-, hsame, -⟩, hends⟩ := Turn.resume_shape _ hnext
    rw [heq]
    grind [Stage.registers]
  | _ => grind [keeps, Stage.registers, Stage.job?]

theorem reading_turn :
    ∀ f, s'.flight = some f → f.stage = .reading →
      ∃ label, s'.pending = some ⟨s'.begun, label⟩ := by
  have htoken := h.token
  have hreading := h.reading
  cases hturn with
  | resume hqueue hflight hnext =>
    obtain ⟨f', _, _, _, _, _, heq, -, hends⟩ := Turn.resume_shape _ hnext
    rw [heq]
    grind
  | _ => grind [keeps, Stage.job?]

/-! ### Any moves -/

theorem turn : s'.Orderly :=
  ⟨h.numbers_turn hturn, h.jobs_turn hturn, h.token_turn hturn, h.pending_turn hturn,
    h.reading_turn hturn⟩

end

theorem move (move : Move) : (s.move move).Orderly :=
  h.turn (s.turn move)

theorem after (moves : List Move) : (s.after moves).Orderly := by
  induction moves generalizing s with
  | nil => exact h
  | cons move rest ih => exact ih (h.move move)

theorem nodup_finished : (s.finished.map Prod.fst).Nodup := by
  have hnodup : s.numbers.Nodup := h.numbers.nodup_iff.mpr nodup_range
  exact (nodup_append.mp hnodup).2.1

theorem pending_eq_none (hflight : s.flight = none) : s.pending = none := by
  cases hpending : s.pending with
  | none => rfl
  | some r =>
    obtain ⟨f, hf, -⟩ := h.pending r hpending
    rw [hflight] at hf
    cases hf

theorem keeps_eq_none {f : Flight} (hflight : s.flight = some f) : f.keeps s.pending = none := by
  unfold keeps
  cases hstage : f.stage with
  | scheduled =>
    cases hpending : s.pending with
    | none => rfl
    | some r =>
      obtain ⟨g, hg, -, -, hregisters⟩ := h.pending r hpending
      obtain rfl := Option.some.inj (hflight.symm.trans hg)
      rw [hstage] at hregisters
      cases hregisters
  | reading | answered d | dropped | ended e => rfl

end Session.Orderly

/-! ### What a request comes to -/

def Session.returned (s : Session) (move : Move) : List (Nat × Finish) :=
  (s.move move).finished.drop s.finished.length

theorem Session.step_of_begin {number : Nat} {script : Except Unready Prepared} {withdrawn : Bool}
    {rest : List Job} (hqueue : s.queue = .begin number script withdrawn :: rest) :
    s.step = { s with queue := rest }.beginRun number script withdrawn := by
  unfold Session.step
  rw [hqueue]

theorem Run.Unready.finish_ne_busy (fault : Unready) : fault.finish ≠ .busy := by
  cases fault <;> nofun

theorem Flight.finish_ne_busy (f : Flight) (e : Ending) : f.finish e ≠ .busy := by
  unfold finish
  split
  · split <;> nofun
  · cases e with
    | completed | failed => nofun
    | cancelled =>
      dsimp only
      split <;> nofun

theorem Turn.of_mem_returned (hturn : Turn s m s') {number : Nat} {finish : Finish}
    (h : (number, finish) ∈ s'.finished.drop s.finished.length) :
    m = .step ∧
      ((∃ script rest, s.queue = .begin number script true :: rest ∧ finish = .abandoned) ∨
        (∃ script rest, s.queue = .begin number script false :: rest ∧ s.running = true ∧
          finish = .busy) ∨
        (finish ≠ .busy ∧ s'.flight = none ∧
          (s.running = true → ∃ rest, s.queue = .conclude :: rest))) := by
  cases hturn with
  | resume hqueue hflight hnext =>
    obtain ⟨f', _, _, _, _, _, heq, -⟩ := Turn.resume_shape _ hnext
    rw [heq] at h
    simp at h
  | abandon hqueue =>
    obtain ⟨rfl, rfl⟩ : number = _ ∧ finish = _ := by simpa using h
    exact ⟨rfl, .inl ⟨_, _, hqueue, rfl⟩⟩
  | busy hqueue hrunning =>
    obtain ⟨rfl, rfl⟩ : number = _ ∧ finish = _ := by simpa using h
    exact ⟨rfl, .inr (.inl ⟨_, _, hqueue, hrunning, rfl⟩)⟩
  | reject hqueue hflight =>
    obtain ⟨rfl, rfl⟩ : number = _ ∧ finish = _ := by simpa using h
    refine ⟨rfl, .inr (.inr ⟨Unready.finish_ne_busy _, hflight, fun hrunning => ?_⟩)⟩
    rw [Session.running, hflight] at hrunning
    cases hrunning
  | conclude hqueue =>
    obtain ⟨rfl, rfl⟩ : number = _ ∧ finish = _ := by simpa using h
    exact ⟨rfl, .inr (.inr ⟨finish_ne_busy _ _, rfl, fun _ => ⟨_, hqueue⟩⟩)⟩
  | _ => simp at h

end Pseudocode
