import Pseudocode.Proofs.Run.Inputs
import Pseudocode.Session.Loop

/-!
# What a move does to a session

`Move` is what can happen to a session, in any order, and `Session.after`
what it has come to. A move either finds nothing to do or changes the session in one of a few
ways, which depend on the stage of the run in flight and on the first job of
the queue. `Turn` lists them with what each takes, and `Session.turn` says
that there are no others. Whatever is claimed of all moves is proved by cases
on it.

When the run in flight goes on, it shows some of its events and then stops in
one of four ways: at its end, at a read that it must not do, at a read for
which the provider has nothing, or at a read that waits (`Stopped`). `Relay`
says how the session and the run have changed until then.
-/

namespace Pseudocode

open Run Script List Flight

variable {s : Session} {f : Flight}

/-! ### Moves -/

inductive Move where
  | start (script : Except Unready Prepared) (cancelAt : Option Nat)
  | provide (d : Datum)
  | cancel
  | withdraw
  | setProvider (provider : Option (List Datum))
  | step

def Move.script? : Move → Option (Except Unready Prepared)
  | .start script _ => some script
  | _ => none

namespace Session

def move (s : Session) : Move → Session
  | .start script cancelAt => s.start script cancelAt
  | .provide d => (s.provide d).2
  | .cancel => s.cancel.2
  | .withdraw => s.withdraw.2
  | .setProvider provider => s.setProvider provider
  | .step => s.step

def after (s : Session) (moves : List Move) : Session :=
  moves.foldl move s

end Session

/-! ### Stages and jobs -/

def Job.number? : Job → Option Nat
  | .begin number _ _ => some number
  | .advance | .conclude => none

def Job.serves : Job → Bool
  | .begin _ _ _ => false
  | .advance | .conclude => true

/-- The job that is queued for a run at a stage. -/
def Stage.job? : Stage → Option Job
  | .scheduled | .answered _ | .dropped => some .advance
  | .reading => none
  | .ended _ => some .conclude

def Session.due? (s : Session) : Option Job :=
  s.flight.bind fun f => f.stage.job?

/-- What a request comes to if its script is not ready. -/
def Run.Unready.finish : Unready → Finish
  | .invalid line => .outcome (.invalid line)
  | .raised fault => .unready fault

/-- The run as it goes on with its `advance`; `none` if it is stopped
instead. -/
def Flight.next? (f : Flight) : Option Flight :=
  match f.stage with
  | .scheduled => if f.interrupted then none else some f
  | .answered d => if f.interrupted then none else some { f with inputs := f.inputs ++ [d] }
  | .reading | .dropped | .ended _ => none

theorem Flight.of_next?_eq_some {g : Flight} (h : f.next? = some g) :
    f.interrupted = false ∧ ((f.stage = .scheduled ∧ g = f) ∨
      ∃ d, f.stage = .answered d ∧ g = { f with inputs := f.inputs ++ [d] }) := by
  unfold Flight.next? at h
  cases hinterrupted : f.interrupted with
  | true | false => grind

/-- What is registered when a run goes on; the read that it was at is not. -/
def Flight.keeps (f : Flight) (pending : Option Registration) : Option Registration :=
  match f.stage with
  | .scheduled => pending
  | _ => none

theorem Session.advance_eq (hjob : f.stage.job? = some .advance) :
    s.advance f = f.next?.elim ({ s with pending := f.keeps s.pending }.endFlight f .cancelled)
      { s with pending := f.keeps s.pending }.resume := by
  unfold Session.advance Flight.keeps Flight.next?
  cases hstage : f.stage with
  | scheduled | answered d => cases f.interrupted <;> rfl
  | dropped => rfl
  | reading | ended e =>
    rw [hstage] at hjob
    cases hjob

/-! ### What a move can do -/

inductive Turn (s : Session) : Move → Session → Prop where
  /-- A request to run is queued. -/
  | request (script : Except Unready Prepared) (cancelAt : Option Nat) :
    Turn s (.start script cancelAt)
      { s with
        requested := s.requested + 1, cancelAt
        queue := s.queue ++ [.begin s.requested script false] }
  /-- A value is accepted for the read that waits. -/
  | answer {f : Flight} {r : Registration} (d : Datum) (hflight : s.flight = some f)
    (hstage : f.stage = .reading) (hpending : s.pending = some r) (htoken : r.token = s.begun) :
    Turn s (.provide d)
      { s with flight := some { f with stage := .answered d }, queue := s.queue ++ [.advance] }
  /-- No read waits for the value. -/
  | refuse (d : Datum) (h : ∀ f r, s.flight = some f → f.stage = .reading →
      s.pending = some r → r.token ≠ s.begun) :
    Turn s (.provide d) { s with pending := none }
  | cancelNone (hflight : s.flight = none) : Turn s .cancel s
  /-- A run is cancelled at a read, which is given up. -/
  | cancelRead {f : Flight} (hflight : s.flight = some f) (hstage : f.stage = .reading) :
    Turn s .cancel
      { s with
        pending := none
        flight := some { f with stage := .dropped, cancelled := true, interrupted := true }
        queue := s.queue ++ [.advance] }
  /-- A run is cancelled before it goes on. -/
  | cancelQueued {f : Flight} (hflight : s.flight = some f)
    (hstage : f.stage.job? = some .advance) :
    Turn s .cancel
      { s with pending := none, flight := some { f with cancelled := true, interrupted := true } }
  /-- The script of a cancelled run has ended already. -/
  | cancelEnded {f : Flight} {e : Ending} (hflight : s.flight = some f)
    (hstage : f.stage = .ended e) :
    Turn s .cancel { s with pending := none, flight := some { f with cancelled := true } }
  | withdrawRequest :
    Turn s .withdraw { s with queue := s.queue.map (Job.withdraw (s.requested - 1)) }
  /-- A run is withdrawn at a read, which is given up. -/
  | withdrawRead {f : Flight} (hflight : s.flight = some f) (hstage : f.stage = .reading) :
    Turn s .withdraw
      { s with flight := some { f with stage := .dropped }, queue := s.queue ++ [.advance] }
  /-- A run is withdrawn before it goes on. -/
  | withdrawQueued {f : Flight} (hflight : s.flight = some f)
    (hstage : f.stage.job? = some .advance) :
    Turn s .withdraw { s with flight := some { f with interrupted := true } }
  /-- The script of a withdrawn run has ended already. -/
  | withdrawEnded {f : Flight} {e : Ending} (hflight : s.flight = some f)
    (hstage : f.stage = .ended e) :
    Turn s .withdraw { s with flight := some { f with withdrawn := true } }
  /-- The last request has come to its end. -/
  | withdrawNone : Turn s .withdraw s
  | setProvider (provider : Option (List Datum)) :
    Turn s (.setProvider provider) { s with provider }
  /-- Nothing is to be done. -/
  | idle (hqueue : s.queue = []) : Turn s .step s
  /-- A request that was withdrawn has its turn. -/
  | abandon {number : Nat} {script : Except Unready Prepared} {rest : List Job}
    (hqueue : s.queue = .begin number script true :: rest) :
    Turn s .step
      { s with queue := rest, finished := s.finished ++ [(number, .abandoned)] }
  /-- A request has its turn while a run is in flight. -/
  | busy {number : Nat} {script : Except Unready Prepared} {rest : List Job}
    (hqueue : s.queue = .begin number script false :: rest) (hrunning : s.running = true) :
    Turn s .step { s with queue := rest, finished := s.finished ++ [(number, .busy)] }
  /-- A script that is not ready has its turn. -/
  | reject {number : Nat} {fault : Unready} {rest : List Job}
    (hqueue : s.queue = .begin number (.error fault) false :: rest) (hflight : s.flight = none) :
    Turn s .step { s with queue := rest, finished := s.finished ++ [(number, fault.finish)] }
  /-- A run begins. -/
  | launch {number : Nat} {p : Prepared} {rest : List Job}
    (hqueue : s.queue = .begin number (.ok p) false :: rest) (hflight : s.flight = none) :
    Turn s .step
      { s with
        queue := rest ++ [.advance]
        begun := s.begun + 1
        flight := some { number, token := s.begun + 1, script := p } }
  /-- The run in flight is stopped when it would go on. -/
  | halt {f : Flight} {rest : List Job} (hqueue : s.queue = .advance :: rest)
    (hflight : s.flight = some f) (hjob : f.stage.job? = some .advance)
    (hnext : f.next? = none) :
    Turn s .step
      { s with
        queue := rest ++ [.conclude]
        pending := f.keeps s.pending
        flight := some { f with stage := .ended .cancelled } }
  /-- The run in flight goes on. -/
  | resume {f g : Flight} {rest : List Job} (hqueue : s.queue = .advance :: rest)
    (hflight : s.flight = some f) (hnext : f.next? = some g) :
    Turn s .step ({ s with queue := rest, pending := f.keeps s.pending }.resume g)
  /-- The outcome of an ended script is handed over. -/
  | conclude {f : Flight} {e : Ending} {rest : List Job} (hqueue : s.queue = .conclude :: rest)
    (hflight : s.flight = some f) (hstage : f.stage = .ended e) :
    Turn s .step
      { s with
        queue := rest, flight := none, pending := none
        finished := s.finished ++ [(f.number, f.finish e)] }
  /-- A job that no run in flight is due. -/
  | skip {job : Job} {rest : List Job} (hqueue : s.queue = job :: rest) (hjob : job.serves = true)
    (hdue : s.due? ≠ some job) :
    Turn s .step { s with queue := rest }

namespace Session

variable {rest : List Job}

theorem turn_provide (s : Session) (d : Datum) : Turn s (.provide d) (s.provide d).2 := by
  unfold provide
  split
  · next r f hpending hflight =>
    split
    · next hstage =>
      split
      · next htoken => exact .answer d hflight hstage hpending htoken
      · next htoken =>
        refine .refuse d fun f' r' _ _ hpending' => ?_
        rw [hpending] at hpending'
        cases hpending'
        exact htoken
    · next hstage =>
      refine .refuse d fun f' r' hflight' hstage' => ?_
      rw [hflight] at hflight'
      cases hflight'
      exact absurd hstage' hstage
  · next hnone => exact .refuse d fun f r hflight _ hpending => absurd hflight (hnone r f hpending)

theorem turn_cancel (s : Session) : Turn s .cancel s.cancel.2 := by
  unfold cancel
  split
  · next hflight => exact .cancelNone hflight
  · next f hflight =>
    -- With the stage in place of its name, the new state computes.
    obtain ⟨number, token, script, inputs, log, stage, cancelled, interrupted, withdrawn⟩ := f
    cases stage with
    | reading =>
      have hturn := Turn.cancelRead hflight rfl
      exact hturn
    | ended =>
      have hturn := Turn.cancelEnded hflight rfl
      exact hturn
    | scheduled | answered d | dropped =>
      have hturn := Turn.cancelQueued hflight rfl
      exact hturn

theorem turn_withdraw (s : Session) : Turn s .withdraw s.withdraw.2 := by
  unfold withdraw
  dsimp only
  split
  · exact .withdrawRequest
  · split
    · exact .withdrawNone
    · next f hflight =>
      obtain ⟨number, token, script, inputs, log, stage, cancelled, interrupted, withdrawn⟩ := f
      split
      · cases stage with
        | reading =>
          have hturn := Turn.withdrawRead hflight rfl
          exact hturn
        | ended =>
          have hturn := Turn.withdrawEnded hflight rfl
          exact hturn
        | scheduled | answered d | dropped =>
          have hturn := Turn.withdrawQueued hflight rfl
          exact hturn
      · exact .withdrawNone

theorem turn_beginRun {number : Nat} {script : Except Unready Prepared} {withdrawn : Bool}
    (hqueue : s.queue = .begin number script withdrawn :: rest) :
    Turn s .step ({ s with queue := rest }.beginRun number script withdrawn) := by
  unfold beginRun
  cases withdrawn with
  | true => exact .abandon hqueue
  | false =>
    rw [if_neg Bool.false_ne_true]
    split
    · next hrunning => exact .busy hqueue hrunning
    · next hrunning =>
      have hflight : s.flight = none := Option.not_isSome_iff_eq_none.mp hrunning
      cases script with
      | ok => exact .launch hqueue hflight
      | error fault => cases fault <;> exact .reject hqueue hflight

theorem turn_advance (hqueue : s.queue = .advance :: rest) (hflight : s.flight = some f) :
    Turn s .step ({ s with queue := rest }.advance f) := by
  by_cases hjob : f.stage.job? = some .advance
  · rw [advance_eq hjob]
    cases hnext : f.next? with
    | none => exact .halt hqueue hflight hjob hnext
    | some => exact .resume hqueue hflight hnext
  · have hskip : { s with queue := rest }.advance f = { s with queue := rest } := by
      unfold advance
      cases hstage : f.stage with
      | reading | ended e => rfl
      | scheduled | answered d | dropped => exact absurd (by rw [hstage]; rfl) hjob
    rw [hskip]
    exact .skip hqueue rfl (by rw [due?, hflight]; exact hjob)

theorem turn_conclude (hqueue : s.queue = .conclude :: rest) (hflight : s.flight = some f) :
    Turn s .step ({ s with queue := rest }.conclude f) := by
  unfold conclude
  cases hstage : f.stage with
  | ended => exact .conclude hqueue hflight hstage
  | scheduled | reading | answered d | dropped =>
    refine .skip hqueue rfl ?_
    rw [due?, hflight]
    show f.stage.job? ≠ _
    rw [hstage]
    nofun

theorem turn_step (s : Session) : Turn s .step s.step := by
  unfold step
  split
  · next hqueue => exact .idle hqueue
  · next job rest hqueue =>
    dsimp only
    split
    · exact turn_beginRun hqueue
    · next hflight => exact turn_advance hqueue hflight
    · next hflight => exact turn_conclude hqueue hflight
    · next job _ _ hbegin hflight =>
      refine .skip hqueue ?_ (by rw [due?, hflight]; nofun)
      cases job with
      | begin number script withdrawn => exact (hbegin number script withdrawn rfl).elim
      | advance | conclude => rfl

theorem turn (s : Session) (move : Move) : Turn s move (s.move move) := by
  cases move with
  | start script cancelAt => exact .request script cancelAt
  | provide d => exact s.turn_provide d
  | cancel => exact s.turn_cancel
  | withdraw => exact s.turn_withdraw
  | setProvider provider => exact .setProvider provider
  | step => exact s.turn_step

end Session

/-! ### Going on -/

/-- The run with more events shown and more values read, and cancelled if the
host asked for it meanwhile. -/
def Flight.extend (f : Flight) (log : List Event) (values : List Datum) (cancels : Bool) : Flight :=
  { f with
    log := f.log ++ log
    inputs := f.inputs ++ values
    cancelled := f.cancelled || cancels
    interrupted := f.interrupted || cancels }

theorem Flight.extend_nil (f : Flight) : f.extend [] [] false = f := by
  unfold extend
  simp

theorem Flight.extend_extend (f : Flight) (log log' : List Event) (values values' : List Datum)
    (cancels cancels' : Bool) :
    (f.extend log values cancels).extend log' values' cancels' =
      f.extend (log ++ log') (values ++ values') (cancels || cancels') := by
  unfold extend
  simp [Bool.or_assoc]

/-- How the session `s` with the run `f` has changed to `s'` and `f'` when
events have been shown: the host was told `notices`, the reads took `values`
from the provider, and the host may have asked to cancel. -/
structure Relay (s : Session) (f : Flight) (events : List (Event × Event)) (notices : List Notice)
    (values : List Datum) (cancels : Bool) (s' : Session) (f' : Flight) : Prop where
  session : ∃ provider cancelAt,
    s' = { s with provider, cancelAt, notices := s.notices ++ notices }
  flight : f' = f.extend (events.map Prod.snd) values cancels
  provider : s.provider = s'.provider.map (values ++ ·)
  values_of_none : s.provider = none → values = []
  cancels_iff : cancels = true ↔ Notice.cancel true ∈ notices
  reads : asks (events.map Prod.fst) = values.length
  traces : ∀ t, .trace t ∈ notices → .trace t ∈ events.map Prod.fst

namespace Relay

variable {s s' s'' : Session} {f f' f'' : Flight} {events more : List (Event × Event)}
  {notices told : List Notice} {values taken : List Datum} {cancels again : Bool}

theorem refl (s : Session) (f : Flight) : Relay s f [] [] [] false s f where
  session := ⟨s.provider, s.cancelAt, by simp⟩
  flight := f.extend_nil.symm
  provider := by simp
  values_of_none _ := rfl
  cancels_iff := by simp
  reads := rfl
  traces := nofun

theorem trans (h : Relay s f events notices values cancels s' f')
    (h' : Relay s' f' more told taken again s'' f'') :
    Relay s f (events ++ more) (notices ++ told) (values ++ taken) (cancels || again) s'' f'' where
  session := by
    obtain ⟨_, _, rfl⟩ := h.session
    obtain ⟨provider, cancelAt, hs''⟩ := h'.session
    exact ⟨provider, cancelAt, by rw [hs'', append_assoc]⟩
  flight := by rw [h'.flight, h.flight, extend_extend, map_append]
  provider := by
    rw [h.provider, h'.provider, Option.map_map]
    congr 1
    funext rest
    exact (append_assoc ..).symm
  values_of_none hnone := by
    have hprovider := h.provider
    rw [hnone] at hprovider
    rw [h.values_of_none hnone, h'.values_of_none (Option.map_eq_none_iff.mp hprovider.symm)]
    rfl
  cancels_iff := by
    rw [Bool.or_eq_true, h.cancels_iff, h'.cancels_iff, mem_append]
  reads := by rw [map_append, asks_append, h.reads, h'.reads, length_append]
  traces t ht := by
    rw [map_append, mem_append]
    exact (mem_append.mp ht).imp (h.traces t) (h'.traces t)

end Relay

/-- What becomes of a run at the first event that it does not show, or when
there is none left. -/
inductive Stopped (s : Session) (f : Flight) (e : Ending) :
    List (Event × Event) → Session → Prop where
  /-- The script has come to its end. -/
  | ended : Stopped s f e []
      (s.endFlight f (if f.interrupted && e == .completed then .cancelled else e))
  /-- A run that the host asked to cancel does not read any more. -/
  | refused {label : Text} {kept : Event} {rest : List (Event × Event)}
      (hcancelled : f.cancelled = true) :
    Stopped s f e ((.read label, kept) :: rest) (s.endFlight f .cancelled)
  /-- The provider has nothing more. -/
  | starved {label : Text} {kept : Event} {rest : List (Event × Event)}
      (hprovider : s.provider = some []) :
    Stopped s f e ((.read label, kept) :: rest)
      (s.endFlight { f with log := f.log ++ [kept] } (.failed (.starved label)))
  /-- The read waits for a value. -/
  | waits {label : Text} {kept : Event} {rest : List (Event × Event)}
      (hcancelled : f.cancelled = false) (hprovider : s.provider = none) :
    Stopped s f e ((.read label, kept) :: rest)
      { s with
        pending := some ⟨f.token, label⟩
        flight := some { f with log := f.log ++ [kept], stage := .reading } }

namespace Session

theorem relay_write (s : Session) (f : Flight) (d : Datum) (kept : Event) :
    ∃ notices cancels s',
      Relay s f [(.write d, kept)] notices [] cancels s' (f.extend [kept] [] cancels) ∧
      ∀ e rest, s.play f e ((.write d, kept) :: rest) =
        s'.play (f.extend [kept] [] cancels) e rest := by
  have hextend : f.extend [kept] [] false = { f with log := f.log ++ [kept] } := by
    unfold extend
    simp
  have hcancel : f.extend [kept] [] true =
      { f with log := f.log ++ [kept], cancelled := true, interrupted := true } := by
    unfold extend
    simp
  cases hcount : countDown s.cancelAt with
  | mk cancelAt now =>
    cases now with
    | true =>
      refine ⟨[.write d, .cancel true], true,
        { s with cancelAt, notices := s.notices ++ [.write d, .cancel true] },
        ⟨⟨s.provider, cancelAt, rfl⟩, rfl, by simp, fun _ => rfl, by simp, rfl, by simp⟩,
        fun e rest => ?_⟩
      rw [hcancel, play]
      simp only [notify, hcount]
      simp
    | false =>
      refine ⟨[.write d], false, { s with cancelAt, notices := s.notices ++ [.write d] },
        ⟨⟨s.provider, cancelAt, rfl⟩, rfl, by simp, fun _ => rfl, by simp, rfl, by simp⟩,
        fun e rest => ?_⟩
      rw [hextend, play]
      simp only [notify, hcount]
      simp

theorem play_cases (s : Session) (f : Flight) (e : Ending) (events : List (Event × Event)) :
    ∃ front rest notices values cancels s' f', events = front ++ rest ∧
      Relay s f front notices values cancels s' f' ∧
      Stopped s' f' e rest (s.play f e events) := by
  induction events generalizing s f with
  | nil => exact ⟨[], [], [], [], false, s, f, rfl, .refl s f, .ended⟩
  | cons p rest ih =>
    obtain ⟨event, kept⟩ := p
    -- An event that is shown comes before those of the rest.
    have shown (notices : List Notice) (values : List Datum) (cancels : Bool) (s' : Session)
        (f' : Flight) (hrelay : Relay s f [(event, kept)] notices values cancels s' f')
        (hplay : s.play f e ((event, kept) :: rest) = s'.play f' e rest) :
        ∃ front rest' notices values cancels s'' f'', (event, kept) :: rest = front ++ rest' ∧
          Relay s f front notices values cancels s'' f'' ∧
          Stopped s'' f'' e rest' (s.play f e ((event, kept) :: rest)) := by
      obtain ⟨front, rest', told, taken, again, s'', f'', hsplit, hrest, hstopped⟩ := ih s' f'
      exact ⟨(event, kept) :: front, rest', _, _, _, s'', f'', by rw [hsplit]; rfl,
        hrelay.trans hrest, hplay ▸ hstopped⟩
    have hextend (values : List Datum) : f.extend [kept] values false =
        { f with log := f.log ++ [kept], inputs := f.inputs ++ values } := by
      unfold extend
      simp
    cases event with
    | write d =>
      obtain ⟨notices, cancels, s', hrelay, hplay⟩ := s.relay_write f d kept
      exact shown _ _ _ _ _ hrelay (hplay e rest)
    | trace t =>
      refine shown [.trace t] [] false (s.notify (.trace t)) (f.extend [kept] [] false)
        ⟨⟨s.provider, s.cancelAt, rfl⟩, rfl, by simp [notify], fun _ => rfl, by simp, rfl,
          by simp⟩ ?_
      rw [hextend, append_nil]
      rfl
    | print =>
      refine shown [] [] false s (f.extend [kept] [] false)
        ⟨⟨s.provider, s.cancelAt, by simp⟩, rfl, by simp, fun _ => rfl, by simp, rfl, nofun⟩ ?_
      rw [hextend, append_nil]
      rfl
    | read label =>
      -- Only a read that takes a value from the provider is shown and passed.
      cases hcancelled : f.cancelled with
      | true =>
        refine ⟨[], _, [], [], false, s, f, rfl, .refl s f, ?_⟩
        rw [play, if_pos hcancelled]
        exact .refused hcancelled
      | false =>
        have hgoes : ¬ f.cancelled = true := Bool.not_eq_true _ ▸ hcancelled
        cases hprovider : s.provider with
        | none =>
          refine ⟨[], _, [], [], false, s, f, rfl, .refl s f, ?_⟩
          have hwaits : Stopped s f e ((.read label, kept) :: rest) _ :=
            .waits hcancelled hprovider
          rw [play, if_neg hgoes]
          simp only [hprovider] at hwaits ⊢
          exact hwaits
        | some given =>
          cases given with
          | nil =>
            refine ⟨[], _, [], [], false, s, f, rfl, .refl s f, ?_⟩
            rw [play, if_neg hgoes]
            simp only [hprovider]
            exact .starved hprovider
          | cons d given =>
            refine shown [] [d] false { s with provider := some given } (f.extend [kept] [d] false)
              ⟨⟨some given, s.cancelAt, by simp⟩, rfl, by simp [hprovider],
                fun hnone => absurd (hprovider ▸ hnone) nofun, by simp, rfl, nofun⟩ ?_
            rw [play, if_neg hgoes, hextend]
            simp only [hprovider]

/-- What a run has yet to show, when it goes on with the values that it has
and those of the provider. -/
def ahead (s : Session) (f : Flight) : List (Event × Event) :=
  let run := exec ampleFuel f.script (f.inputs ++ s.provider.getD [])
  (run.log.zip run.kept).drop f.log.length

/-- The run as it goes on: what was shown before is as it is now. -/
def refresh (s : Session) (f : Flight) : Flight :=
  { f with
    log := (exec ampleFuel f.script (f.inputs ++ s.provider.getD [])).kept.take f.log.length }

theorem resume_cases (s : Session) (f : Flight) :
    ∃ front rest notices values cancels s' f', s.ahead f = front ++ rest ∧
      Relay s (s.refresh f) front notices values cancels s' f' ∧
      Stopped s' f' (endingOf (exec ampleFuel f.script (f.inputs ++ s.provider.getD [])).stop) rest
        (s.resume f) :=
  s.play_cases (s.refresh f) _ (s.ahead f)

theorem resume_shape (s : Session) (f : Flight) :
    ∃ f' provider cancelAt notices pending queue, s.resume f =
        { s with
          flight := some f', provider, cancelAt, notices := s.notices ++ notices, pending, queue } ∧
      (f'.number = f.number ∧ f'.token = f.token ∧ f'.script = f.script) ∧
      ((∃ e, f'.stage = .ended e ∧ queue = s.queue ++ [.conclude] ∧ pending = s.pending) ∨
        (f'.stage = .reading ∧ queue = s.queue ∧ f'.cancelled = false ∧
          ∃ label, pending = some ⟨f.token, label⟩)) := by
  obtain ⟨front, rest, notices, values, cancels, s', f', -, hrelay, hstopped⟩ := s.resume_cases f
  generalize s.resume f = resumed at hstopped ⊢
  obtain ⟨provider, cancelAt, rfl⟩ := hrelay.session
  obtain rfl := hrelay.flight
  cases hstopped with
  | ended | refused | starved =>
    refine ⟨_, provider, cancelAt, notices, s.pending, s.queue ++ [.conclude], rfl, ?_, ?_⟩
    · exact ⟨rfl, rfl, rfl⟩
    · exact .inl ⟨_, rfl, rfl, rfl⟩
  | waits hcancelled =>
    refine ⟨_, provider, cancelAt, notices, _, s.queue, rfl, ?_, ?_⟩
    · exact ⟨rfl, rfl, rfl⟩
    · exact .inr ⟨rfl, rfl, hcancelled, _, rfl⟩

end Session

end Pseudocode
