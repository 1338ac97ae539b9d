import Pseudocode.Run.Items
import Pseudocode.Script.Load

/-!
# The state of a run

A run changes four things: its objects, the variables of its routines,
the log of what it showed to its host, and the inputs that it has not
read yet. They stay when a run stops early, so the log of a failed run is
complete up to its fault.

The variables of a routine that is running are in a frame. A routine
sees its own frame, those of the routines around its definition and that
of the whole script, which is the first one.

What is shown to the host is logged twice: as the values that were shown,
and written out as they were at that moment. A host that keeps the values
sees later what has become of them.
-/

namespace Pseudocode.Run

open Text Script

/-- What a snapshot tells of a variable. -/
structure Entry where
  state : Datum
  value : Datum
deriving Repr

/-- A step that a run reports: its pseudocode line, an entry for each
slot of the routine's scope, and what the step wrote. -/
structure TraceEvent where
  line : Datum
  snapshot : List (Option Entry)
  output : Datum
deriving Repr

inductive Event where
  | write (d : Datum)
  | trace (e : TraceEvent)
  /-- The run asks for a value; it is logged whether or not there is one. -/
  | read (label : Text)
  /-- A line past the host, on standard output. -/
  | print (t : Text)
deriving Repr

inductive Showing where
  | write (v : Value)
  | trace (line : Value) (snapshot : List Value) (output : Value)
  | read (label : Text)
  | print (t : Text)
deriving Repr

def Entry.ofDatum? : Datum → Option Entry
  | .dict entries =>
    let field (name : Text) : Datum := (entries.findSome? fun
      | (.str key, d) => if key = name then some d else none
      | _ => none).getD .nothing
    some ⟨field "state", field "value"⟩
  | _ => none

/-- What was shown, with its values written out. -/
def Heap.event (h : Heap) : Showing → Event
  | .write v => .write (h.datum v)
  | .trace line snapshot output =>
    .trace ⟨h.datum line, snapshot.map fun v => Entry.ofDatum? (h.datum v), h.datum output⟩
  | .read label => .read label
  | .print t => .print t

structure Frame where
  vars : List (Text × Value) := []
  /-- The names that the routine binds. -/
  locals : List Text := []
  /-- The frames of the routines around it, innermost first. -/
  scopes : List Nat := []
  /-- A routine was defined in it, which may need it later. -/
  kept : Bool := false
deriving Repr

structure Machine where
  heap : Heap := {}
  frames : Array Frame := #[{}]
  log : Array (Showing × Event) := #[]
  inputs : List Datum := []
deriving Repr

/-- Where a routine is: a line of the script, and its origin. -/
structure Place where
  line : Nat := 0
  origin : Option Nat := none
deriving DecidableEq, Repr

/-- The places of all routines that are running, innermost first. -/
abbrev Traceback := List Place

/-- The pseudocode line of a fault: that of the innermost place that has
one. -/
def Traceback.line (places : Traceback) : Option Nat :=
  places.findSome? Place.origin

/-- Why a run stops before its end. -/
inductive Stop where
  | failed (fault : Fault) (places : Traceback)
  /-- There is no input for a read. -/
  | starved (label : Text) (places : Traceback)
  /-- The steps allowed are used up. -/
  | outOfFuel
deriving Repr

/-- A computation that may stop early and keeps its state then. -/
abbrev Exec := ExceptT Stop (StateM Machine)

/-- Where a run is: its frame, its place, the places of its callers and
the number of routines that are running. -/
structure Site where
  frame : Nat := 0
  place : Place := {}
  callers : Traceback := []
  depth : Nat := 0
deriving Repr

def Site.traceback (s : Site) : Traceback :=
  s.place :: s.callers

def Site.at (s : Site) (x : Executable) (line : Nat) : Site :=
  { s with place := ⟨line, x.origin line⟩ }

def Site.callee (s : Site) (frame : Nat) : Site :=
  { frame, callers := s.traceback, depth := s.depth + 1 }

inductive Flow where
  | next
  | leftLoop
  /-- The innermost loop goes on with its next round. -/
  | nextRound
  | leftScope (v : Value)
deriving Repr

def evaluate {α : Type} (s : Site) (e : Eval α) : Exec α :=
  fun ⟨heap, frames, log, inputs⟩ =>
    let (result, heap) := e heap
    (result.mapError (.failed · s.traceback), ⟨heap, frames, log, inputs⟩)

def fail {α : Type} (s : Site) (fault : Fault) : Exec α :=
  throw (.failed fault s.traceback)

def orFail {α : Type} (s : Site) (e : Except Fault α) : Exec α :=
  match e with
  | .ok a => return a
  | .error fault => fail s fault

/-- Runs a computation and tells how it ended. -/
def attempt {α : Type} (e : Exec α) : Exec (Except Stop α) :=
  fun m =>
    let (result, m) := e m
    (.ok result, m)

def isTrue (v : Value) : Exec Bool :=
  return (← get).heap.truth v

def reveal (shown : Showing) : Exec Unit :=
  modify fun m => { m with log := m.log.push (shown, m.heap.event shown) }

def nextInput (s : Site) (label : Text) : Exec Datum := do
  reveal (.read label)
  match (← get).inputs with
  | [] => throw (.starved label s.traceback)
  | d :: rest =>
    modify fun m => { m with inputs := rest }
    return d

/-- The frame that binds a name, of those that a routine sees. -/
def Machine.binder? (m : Machine) (frame : Nat) (name : Text) : Option Nat :=
  (frame :: ((m.frames[frame]?).map Frame.scopes).getD []).find? fun n =>
    (m.frames[n]?).any fun f => f.locals.contains name

def Machine.var? (m : Machine) (frame : Nat) (name : Text) : Option Value := do
  (← m.frames[frame]?).vars.lookup name

def Machine.lookup (m : Machine) (frame : Nat) (name : Text) : Except Fault Value :=
  match m.binder? frame name with
  | some n =>
    match m.var? n name with
    | some v => .ok v
    | none => .error (if n = frame then .unassigned name else .unassignedOutside name)
  | none =>
    match m.var? 0 name <|> builtinValue? name with
    | some v => .ok v
    | none => .error (.unknownName name)

def Machine.changeVars (m : Machine) (frame : Nat)
    (f : List (Text × Value) → List (Text × Value)) : Machine :=
  { m with frames := m.frames.modify frame fun fr => { fr with vars := f fr.vars } }

def storeName (s : Site) (name : Text) (v : Value) : Exec Unit := do
  let frame := ((← get).binder? s.frame name).getD 0
  modify fun m => m.changeVars frame (assign (· == name) name v)

def deleteName (s : Site) (name : Text) : Exec Unit := do
  let m ← get
  match m.binder? s.frame name, (m.var? ((m.binder? s.frame name).getD 0) name).isSome with
  | frame, true =>
    modify fun m => m.changeVars (frame.getD 0) (List.filter fun p => p.1 != name)
  | some _, false => fail s (.unassigned name)
  | none, false => fail s (.unknownName name)

def enterFrame (f : Frame) : Exec Nat :=
  modifyGet fun m => (m.frames.size, { m with frames := m.frames.push f })

/-- Leaves the last frame, unless a routine may need it later. -/
def leaveFrame (n : Nat) : Exec Unit :=
  modify fun m =>
    if n + 1 = m.frames.size && !(m.frames[n]?).any Frame.kept then
      { m with frames := m.frames.pop }
    else m

/-- The frames that a routine defined in a frame sees. -/
def Machine.scopesIn (m : Machine) (frame : Nat) : List Nat :=
  if frame = 0 then [] else frame :: ((m.frames[frame]?).map Frame.scopes).getD []

def newRoutine (s : Site) (code : Routine) (initials : List (Text × Value)) : Exec Value := do
  let scopes := (← get).scopesIn s.frame
  modify fun m => { m with frames := m.frames.modify s.frame fun f => { f with kept := true } }
  evaluate s do
    return .routine (← Eval.alloc (.closure { code, initials, scopes }))

end Pseudocode.Run
