import Pseudocode.Session.Requests

/-!
# The jobs of a session

`Session.step` does the first job of the queue. A job queues at most one
other, and of a later kind, so `Session.settle` does all that can be
done without another request.
-/

namespace Pseudocode

open Run Script

/-- The number of jobs that a job may lead to, itself included. -/
def Job.weight : Job → Nat
  | .begin _ _ _ => 3
  | .advance => 2
  | .conclude => 1

/-- What the request for a run in flight comes to when its script has
ended. -/
def Flight.finish (f : Flight) (e : Ending) : Finish :=
  if f.withdrawn then
    if f.cancelled then .outcome (.ofLog .cancelled f.log none) else .abandoned
  else match e with
    | .completed => .outcome (.ofLog .completed f.log none)
    | .failed error => .outcome (.ofLog .failed f.log (some error))
    | .cancelled =>
      if f.cancelled then .outcome (.ofLog .cancelled f.log none) else .abandoned

namespace Session

def endFlight (s : Session) (f : Flight) (e : Ending) : Session :=
  { s with flight := some { f with stage := .ended e } }.enqueue .conclude

/-- The countdown to the write at which the host asks to cancel, after
one more write, and whether this is the one. -/
def countDown : Option Nat → Option Nat × Bool
  | some 1 => (none, true)
  | some (n + 1) => (some n, false)
  | other => (other, false)

/-- Shows new events of the script in flight, up to a read that it has
to wait for or must not do any more, else up to its end. Each event is
given as it was shown and as the outcome keeps it. -/
def play (s : Session) (f : Flight) (e : Ending) : List (Event × Event) → Session
  | [] => s.endFlight f (if f.interrupted && e == .completed then .cancelled else e)
  | (.write d, kept) :: rest =>
    let s := s.notify (.write d)
    let f := { f with log := f.log ++ [kept] }
    let (cancelAt, now) := countDown s.cancelAt
    if now then
      { s with cancelAt }.notify (.cancel true) |>.play
        { f with cancelled := true, interrupted := true } e rest
    else { s with cancelAt }.play f e rest
  | (.trace t, kept) :: rest =>
    (s.notify (.trace t)).play { f with log := f.log ++ [kept] } e rest
  | (.print _, kept) :: rest => s.play { f with log := f.log ++ [kept] } e rest
  | (.read label, kept) :: rest =>
    let g := { f with log := f.log ++ [kept] }
    if f.cancelled then s.endFlight f .cancelled
    else match s.provider with
      | some (d :: values) =>
        { s with provider := some values }.play { g with inputs := g.inputs ++ [d] } e rest
      | some [] => s.endFlight g (.failed (.starved label))
      | none =>
        { s with pending := some ⟨g.token, label⟩, flight := some { g with stage := .reading } }

/-- The ending of a run that did not stop at a read. -/
def endingOf : Option Stop → Ending
  | none => .completed
  | some (.failed fault places) => .failed (.ofFault fault places)
  | some (.starved label _) => .failed (.starved label)
  | some .outOfFuel => .cancelled

def resume (s : Session) (f : Flight) : Session :=
  let run := exec ampleFuel f.script (f.inputs ++ s.provider.getD [])
  let shown := f.log.length
  s.play { f with log := run.kept.take shown } (endingOf run.stop)
    ((run.log.zip run.kept).drop shown)

def advance (s : Session) (f : Flight) : Session :=
  match f.stage with
  | .scheduled => if f.interrupted then s.endFlight f .cancelled else s.resume f
  | .answered d =>
    let s := { s with pending := none }
    if f.interrupted then s.endFlight f .cancelled
    else s.resume { f with inputs := f.inputs ++ [d] }
  | .dropped => { s with pending := none }.endFlight f .cancelled
  | .reading | .ended _ => s

/-- Does a `conclude`: no run is in flight any more. -/
def conclude (s : Session) (f : Flight) : Session :=
  match f.stage with
  | .ended e => { s with flight := none, pending := none }.finish f.number (f.finish e)
  | _ => s

def beginRun (s : Session) (number : Nat) (script : Except Unready Prepared)
    (withdrawn : Bool) : Session :=
  if withdrawn then s.finish number .abandoned
  else if s.running then s.finish number .busy
  else match script with
    | .ok x =>
      { s with
        begun := s.begun + 1
        flight := some ⟨number, s.begun + 1, x, [], [], .scheduled, false, false, false⟩
      }.enqueue .advance
    | .error (.invalid line) => s.finish number (.outcome (.invalid line))
    | .error (.raised fault) => s.finish number (.unready fault)

def step (s : Session) : Session :=
  match s.queue with
  | [] => s
  | job :: rest =>
    let s := { s with queue := rest }
    match job, s.flight with
    | .begin number script withdrawn, _ => s.beginRun number script withdrawn
    | .advance, some f => s.advance f
    | .conclude, some f => s.conclude f
    | _, none => s

def steps (s : Session) : Nat → Session
  | 0 => s
  | n + 1 => s.step.steps n

def settle (s : Session) : Session :=
  s.steps (s.queue.foldr (fun job n => job.weight + n) 0)

/-- Takes what was shown and what was finished since the last time. -/
def drain (s : Session) : List Notice × List (Nat × Finish) × Session :=
  (s.notices, s.finished, { s with notices := [], finished := [] })

end Session

end Pseudocode
