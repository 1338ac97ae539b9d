import Pseudocode.Run.Outcome

/-!
# The state of a session

A session runs one script at a time. A run that asks for a value is
suspended until the value is supplied, or takes it at once from the
session's provider if there is one. What a session does is cut into
jobs, which wait in a queue in the order in which they came up; requests
to the session may come between any two of them:

* `begin` starts a run that was asked for, if none is in flight;
* `advance` lets the script in flight go on to its next read or its end;
* `conclude` hands the outcome of an ended script to whoever waits for it.

A run is a function of the values it has read, so a suspended run is
kept as those values and the events it has shown.
-/

namespace Pseudocode

open Run Script

inductive Ending where
  | completed
  | failed (error : RunError)
  | cancelled
deriving DecidableEq, Repr

/-- What the script in flight is at. -/
inductive Stage where
  /-- An `advance` is queued for its start. -/
  | scheduled
  | reading
  | answered (d : Datum)
  /-- The read has been given up, and an `advance` is queued. -/
  | dropped
  /-- It has ended, and a `conclude` is queued. -/
  | ended (e : Ending)
deriving Repr

structure Flight where
  /-- The number of the request that started it. -/
  number : Nat
  /-- Its number among the runs that began. -/
  token : Nat
  script : Prepared
  inputs : List Datum := []
  log : List Event := []
  stage : Stage := .scheduled
  /-- The session was asked to cancel it. -/
  cancelled : Bool := false
  /-- The script is to be stopped when it goes on next, or at its end. -/
  interrupted : Bool := false
  /-- Whoever waits for its outcome was told to stop waiting. -/
  withdrawn : Bool := false
deriving Repr

/-- A read that waits for a value. -/
structure Registration where
  /-- The token of the run that reads. -/
  token : Nat
  label : Text
deriving DecidableEq, Repr

inductive Job where
  | begin (number : Nat) (script : Except Unready Prepared) (withdrawn : Bool)
  | advance
  | conclude
deriving Repr

/-- What a request to run came to. -/
inductive Finish where
  | outcome (o : Outcome)
  /-- Another run was in flight. -/
  | busy
  /-- The definitions of the script failed. -/
  | unready (fault : Fault)
  /-- Nobody waits for the outcome any more. -/
  | abandoned
deriving Repr

/-- The message for a request that comes while a run is in flight. -/
def busyMessage : Text := "Ya hay una ejecucion en curso."

inductive Notice where
  | write (d : Datum)
  | trace (e : TraceEvent)
  /-- The host asked to cancel, and was told whether a run was in flight. -/
  | cancel (done : Bool)
deriving Repr

structure Session where
  /-- The values that reads take at once. -/
  provider : Option (List Datum) := none
  flight : Option Flight := none
  pending : Option Registration := none
  begun : Nat := 0
  requested : Nat := 0
  queue : List Job := []
  /-- The host asks to cancel when this many more writes are shown. -/
  cancelAt : Option Nat := none
  notices : List Notice := []
  /-- What the requests to run came to, by their numbers. -/
  finished : List (Nat × Finish) := []
deriving Repr

namespace Session

def running (s : Session) : Bool :=
  s.flight.isSome

def waitingFor (s : Session) : Option Text :=
  s.pending.map Registration.label

def notify (s : Session) (n : Notice) : Session :=
  { s with notices := s.notices ++ [n] }

def finish (s : Session) (number : Nat) (f : Finish) : Session :=
  { s with finished := s.finished ++ [(number, f)] }

def enqueue (s : Session) (job : Job) : Session :=
  { s with queue := s.queue ++ [job] }

end Session

end Pseudocode
