import Pseudocode.Session.Basic

/-!
# What can be asked of a session

Requests never run anything; they change the state and queue jobs.
-/

namespace Pseudocode

open Run Script

def Job.withdraw (number : Nat) : Job → Job
  | .begin n script withdrawn => .begin n script (withdrawn || n == number)
  | job => job

def Job.begins (number : Nat) : Job → Bool
  | .begin n _ _ => n == number
  | _ => false

namespace Session

/-- Asks to run a script. The host will ask to cancel at its `cancelAt`-th
write from here on, if that is given. -/
def start (s : Session) (script : Except Unready Prepared) (cancelAt : Option Nat := none) :
    Session :=
  { s with requested := s.requested + 1, cancelAt }.enqueue (.begin s.requested script false)

/-- Gives up the read of the script in flight, if it waits for a value. -/
def dropRead (s : Session) (f : Flight) : Session :=
  match f.stage with
  | .reading => { s with flight := some { f with stage := .dropped } }.enqueue .advance
  | _ => { s with flight := some f }

/-- Supplies a value to the read that waits for one. A read that has its
value already is no longer registered after this. -/
def provide (s : Session) (d : Datum) : Bool × Session :=
  match s.pending, s.flight with
  | some r, some f =>
    match f.stage with
    | .reading =>
      if r.token = s.begun then
        (true, { s with flight := some { f with stage := .answered d } }.enqueue .advance)
      else (false, { s with pending := none })
    | _ => (false, { s with pending := none })
  | _, _ => (false, { s with pending := none })

/-- Cancels the run in flight. A script that has ended stays as it is. -/
def cancel (s : Session) : Bool × Session :=
  match s.flight with
  | none => (false, s)
  | some f =>
    let interrupted := match f.stage with
      | .ended _ => f.interrupted
      | _ => true
    (true, { s with pending := none }.dropRead { f with cancelled := true, interrupted })

/-- Tells whoever waits for the last run asked for to stop waiting. This
stops the script, as far as it has not ended. -/
def withdraw (s : Session) : Bool × Session :=
  let last := s.requested - 1
  if s.queue.any (Job.begins last) then
    (true, { s with queue := s.queue.map (Job.withdraw last) })
  else match s.flight with
    | none => (false, s)
    | some f =>
      if f.number = last then
        match f.stage with
        | .ended _ => (true, { s with flight := some { f with withdrawn := true } })
        | .reading => (true, s.dropRead f)
        | _ => (true, { s with flight := some { f with interrupted := true } })
      else (false, s)

def setProvider (s : Session) (provider : Option (List Datum)) : Session :=
  { s with provider }

end Session

end Pseudocode
