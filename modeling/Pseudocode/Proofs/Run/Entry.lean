import Pseudocode.Proofs.Run.Ready
import Pseudocode.Proofs.Run.Simulation
import Pseudocode.Proofs.Script.Written

/-!
# A run up to its main routine

Before the main routine of a script runs, the script's own routine is
defined and called, and it defines all the others. Nothing of this shows
anything to the host, and the state in which the main routine begins is known
exactly.

* `mainStart`: the state in which the statements of the main routine begin.
* `Leads`: a computation has a result as described, or stops with nothing
  shown. `Ran`: it has run the main routine from a given state, or stopped
  before.
* `coreOf`: the core of a run. `steady_mainStart` says that the main routine
  begins in a steady state of it.
* `exists_ran`: a script that has the form of one can be prepared, and its
  run runs the main routine.
-/

namespace Pseudocode.Run

open Text Script Realm List RoutineOf Machine

variable {r : Routine} {name : Text} {k : Core} {w : k.World}

theorem Exec.get_bind {α : Type} (f : Machine → Exec α) (m : Machine) :
    (get >>= f) m = f m m :=
  rfl

theorem Exec.enterFrame_bind {α : Type} (f : Frame) (g : Nat → Exec α) (m : Machine) :
    (enterFrame f >>= g) m = g m.frames.size { m with frames := m.frames.push f } :=
  rfl

theorem leaveFrame_keeps (n : Nat) (m : Machine) :
    ∃ m', leaveFrame n m = (.ok (), m') ∧ m'.log = m.log ∧ m'.heap = m.heap := by
  refine ⟨_, rfl, ?_⟩
  dsimp only
  split
  · exact ⟨rfl, rfl⟩
  · exact ⟨rfl, rfl⟩

/-! ### Definitions -/

def constants (es : List (Text × Expr)) : List (Text × Value) :=
  es.map fun p => (p.1, constantOf p.2)

/-- A routine with the frames that it sees. -/
def closureIn (scopes : List Nat) (r : Routine) : Closure :=
  { code := r, initials := constants (initialExprs r.params), scopes }

def Machine.store (m : Machine) (frame : Nat) (name : Text) (v : Value) : Machine :=
  m.changeVars ((m.binder? frame name).getD 0) (assign (· == name) name v)

def Machine.define (m : Machine) (frame : Nat) (r : Routine) : Machine :=
  { m with
    heap := { m.heap with
      objects := m.heap.objects.push (.closure (closureIn (m.scopesIn frame) r)) }
    frames := m.frames.modify frame fun f => { f with kept := true } }.store
      frame r.name (.routine m.heap.objects.size)

theorem constant_initialExprs (h : r.isDirect = true) :
    ∀ p ∈ initialExprs r.params, p.2.isConstant = true := by
  simp only [isDirect, Bool.and_eq_true, all_eq_true] at h
  intro p hp
  obtain ⟨q, hq, hqp⟩ := mem_filterMap.mp hp
  obtain ⟨e, he, rfl⟩ := Option.map_eq_some_iff.mp hqp
  have hparam : q ∈ r.params := by
    rcases mem_append.mp hq with hq | hq
    · exact (mem_filter.mp hq).1
    · exact (mem_filter.mp hq).1
  have hinitial := (h.2 q hparam).2
  rw [he] at hinitial
  exact hinitial

theorem notes_eq_nil (h : r.isDirect = true) :
    r.params.filterMap Param.note ++ r.note.toList = [] := by
  simp only [isDirect, Bool.and_eq_true, all_eq_true, Option.isNone_iff_eq_none] at h
  rw [h.1, filterMap_eq_nil_iff.mpr fun p hp => (h.2 p hp).1]
  rfl

/-! ### States before the main routine runs -/

def Machine.noted (m : Machine) (c : Call) : Machine :=
  { m with heap := { m.heap with objects := m.heap.objects.push (.call c) } }

/-- The state after a call that was noted is taken up. -/
def Machine.taken (m : Machine) (address : Nat) (c : Call) : Machine :=
  { m with heap := { m.heap with
      objects := m.heap.objects.setIfInBounds address (.call { c with done := true }) } }

/-- The state in which a new call begins to run, with a frame of its own. -/
def Machine.enter (m : Machine) (c : Call) : Machine :=
  { (m.noted c).taken m.heap.objects.size c with
    frames := m.frames.push
      { vars := c.bound, locals := c.target.code.locals, scopes := c.target.scopes } }

/-- The state after the value of variables without a value was made. -/
def Machine.makeUnset (m : Machine) (frame : Nat) : Machine :=
  { m with heap := { m.heap with marks := m.heap.marks + 1 } }.store
    frame "__UNSET" (.plain m.heap.marks)

def entryCall (entry : Routine) : Call :=
  { target := closureIn [] entry, bound := [("io", .host)] }

def mainCall (main : Routine) : Call :=
  { target := closureIn [1] main, bound := [] }

/-- The state in which the statements of the script's own routine begin. -/
def entryStart (entry : Routine) (inputs : List Datum) : Machine :=
  { Machine.initial.define 0 entry with inputs }.enter (entryCall entry)

def mainStart (entry : Routine) (rs : List Routine) (main : Routine) (inputs : List Datum) :
    Machine :=
  (rs.foldl (·.define 1) ((entryStart entry inputs).makeUnset 1)).enter (mainCall main)

def Leads {α : Type} (r : Except Stop α × Machine) (Q : α → Machine → Prop) : Prop :=
  match r with
  | (.ok a, m) => Q a m
  | (.error _, m) => m.log = #[]

/-- A computation has run the main routine from a state, in the frame made
last, and what is left is what the main routine left; or it stopped with
nothing shown. -/
inductive Ran (x : Executable) (main : Routine) (start : Machine) {α : Type} :
    Except Stop α × Machine → Prop
  | early {stop : Stop} {m : Machine} : m.log = #[] → Ran x main start (.error stop, m)
  | block {fuel : Nat} {s : Site} {m : Machine} {r : Except Stop α} :
      s.frame + 1 = start.frames.size →
        (∀ a, r = .ok a → ∃ flow, (execBlock x fuel s main.body start).1 = .ok flow) →
          m.log = (execBlock x fuel s main.body start).2.log →
            m.heap = (execBlock x fuel s main.body start).2.heap → Ran x main start (r, m)

section Bind

variable {α β : Type} {e : Exec α} {f : α → Exec β} {m : Machine} {Q : α → Machine → Prop}
  {R : β → Machine → Prop}

theorem Leads.then {P : Except Stop β × Machine → Prop}
    (hstop : ∀ stop m', m'.log = #[] → P (.error stop, m')) (h : Leads (e m) Q)
    (hf : ∀ a m', Q a m' → P (f a m')) : P ((e >>= f) m) := by
  rw [bind_apply]
  rcases hem : e m with ⟨r, m'⟩
  rw [hem] at h
  cases r with
  | error stop => exact hstop stop m' h
  | ok a => exact hf a m' h

theorem Leads.bind (h : Leads (e m) Q) (hf : ∀ a m', Q a m' → Leads (f a m') R) :
    Leads ((e >>= f) m) R :=
  h.then (P := (Leads · R)) (fun _ _ hlog => hlog) hf

variable {x : Executable} {main : Routine} {start : Machine}

theorem Leads.ran (h : Leads (e m) Q) (hf : ∀ a m', Q a m' → Ran x main start (f a m')) :
    Ran x main start ((e >>= f) m) :=
  h.then (fun _ _ => .early) hf

theorem Ran.bind (h : Ran x main start (e m))
    (hf : ∀ a m', ∃ b, (f a m').1 = .ok b ∧ (f a m').2.log = m'.log ∧
      (f a m').2.heap = m'.heap) : Ran x main start ((e >>= f) m) := by
  rw [bind_apply]
  rcases hem : e m with ⟨r, m'⟩
  rw [hem] at h
  cases r with
  | error =>
    cases h with
    | early hlog => exact .early hlog
    | block hframe hok hlog hheap => exact .block hframe (fun _ ha => nomatch ha) hlog hheap
  | ok a =>
    obtain ⟨b, hb, hlog', hheap'⟩ := hf a m'
    cases h with
    | block hframe hok hlog hheap =>
      exact .block hframe (fun _ _ => hok a rfl) (hlog'.trans hlog) (hheap'.trans hheap)

end Bind

/-! ### Definitions, one after another -/

section Runs

variable {x : Executable} {s : Site} {m start : Machine} {main : Routine}
variable {address : Nat}

theorem leads_constant {e : Expr} (h : e.isConstant = true) (hlog : m.log = #[]) (fuel : Nat) :
    Leads (eval x fuel s e m) fun v m' => v = constantOf e ∧ m' = m := by
  cases fuel with
  | zero => exact hlog
  | succ =>
    cases e with
    | nothing | bool | int | float | str => exact ⟨rfl, rfl⟩
    | _ => cases h

theorem leads_initials {es : List (Text × Expr)} (h : ∀ p ∈ es, p.2.isConstant = true)
    (hlog : m.log = #[]) (fuel : Nat) :
    Leads (evalInitials x fuel s es m) fun vs m' => vs = constants es ∧ m' = m := by
  induction es generalizing fuel with
  | nil =>
    cases fuel with
    | zero => exact hlog
    | succ => exact ⟨rfl, rfl⟩
  | cons p rest ih =>
    obtain ⟨he, hrest⟩ := forall_mem_cons.mp h
    cases fuel with
    | zero => exact hlog
    | succ fuel =>
      refine (leads_constant he hlog fuel).bind ?_
      rintro _ _ ⟨rfl, rfl⟩
      refine (ih hrest fuel).bind ?_
      rintro _ _ ⟨rfl, rfl⟩
      exact ⟨rfl, rfl⟩

theorem leads_define {l : Nat} (hr : r.isDirect = true) (hlog : m.log = #[]) (fuel : Nat) :
    Leads (execNode x fuel s (.define l r) m) fun flow m' =>
      flow = .next ∧ m' = m.define s.frame r := by
  cases fuel with
  | zero => exact hlog
  | succ fuel =>
    refine (leads_initials (constant_initialExprs hr) hlog fuel).bind ?_
    rintro _ _ ⟨rfl, rfl⟩
    rw [notes_eq_nil hr]
    cases fuel with
    | zero => exact hlog
    | succ => exact ⟨rfl, rfl⟩

theorem ran_definitions {nodes : List Node} {rs : List Routine}
    (hdefs : definitions? nodes = some rs) (hs : s.frame = 1) (hlog : m.log = #[])
    (hdirect : ∀ r ∈ rs, r.isDirect = true)
    (hmain : ∀ fuel l e, e.awaitsMain = true → Ran x main start
      (execBlock x fuel s [.action l (.evaluate e)] (rs.foldl (·.define 1) m))) (fuel : Nat) :
    Ran x main start (execBlock x fuel s nodes m) := by
  induction nodes using definitions?.induct generalizing rs m fuel with
  | case1 l r rest ih =>
    obtain ⟨rs, hrest, rfl⟩ := Option.map_eq_some_iff.mp hdefs
    obtain ⟨hr, hdirect⟩ := forall_mem_cons.mp hdirect
    cases fuel with
    | zero => exact .early hlog
    | succ fuel =>
      refine (leads_define hr hlog fuel).ran ?_
      rintro _ _ ⟨rfl, rfl⟩
      rw [hs]
      exact ih (m := m.define 1 r) hrest hlog hdirect hmain fuel
  | case2 l e he =>
    rw [definitions?, if_pos he] at hdefs
    cases hdefs
    exact hmain fuel l e he
  | case3 l e he =>
    rw [definitions?, if_neg he] at hdefs
    cases hdefs
  | case4 nodes hne hne' =>
    rw [definitions?] at hdefs
    · cases hdefs
    · exact hne
    · exact hne'

/-! ### Calls without arguments -/

theorem leads_name {t : Text} {Q : Value → Prop} (hlog : m.log = #[])
    (hQ : ∀ v, m.lookup s.frame t = .ok v → Q v) (fuel : Nat) :
    Leads (eval x fuel s (.name t) m) fun v m' => Q v ∧ m' = m := by
  cases fuel with
  | zero => exact hlog
  | succ =>
    show Leads (orFail s (m.lookup s.frame t) m) _
    cases hv : m.lookup s.frame t with
    | error => exact hlog
    | ok v => exact ⟨hQ v hv, rfl⟩

theorem leads_noArguments {f : Value} (hlog : m.log = #[]) (fuel : Nat) :
    Leads (evalArguments x fuel s f [] [] m) fun a m' => a = ⟨[], []⟩ ∧ m' = m := by
  match fuel with
  | 0 | 1 => exact hlog
  | fuel + 2 => exact ⟨rfl, rfl⟩

theorem leads_callName {t : Text} {Q : Value → Prop} {R : Value → Machine → Prop}
    (hlog : m.log = #[]) (hQ : ∀ v, m.lookup s.frame t = .ok v → Q v)
    (hcall : ∀ v fuel, Q v → Leads (call x fuel s v ⟨[], []⟩ m) R) (fuel : Nat) :
    Leads (eval x fuel s (.call (.name t) [] []) m) R := by
  cases fuel with
  | zero => exact hlog
  | succ fuel =>
    refine (leads_name hlog hQ fuel).bind ?_
    rintro v _ ⟨hv, rfl⟩
    refine (leads_noArguments hlog fuel).bind ?_
    rintro _ _ ⟨rfl, rfl⟩
    exact hcall v fuel hv

theorem call_async {c : Closure} {a : Arguments} {bound : List (Text × Value)}
    (hc : m.heap.closure? address = some c)
    (hbound : bindArguments c.code.path c.code.params c.initials a = pure bound)
    (hasync : c.code.isAsync = true) (hyields : c.code.yields = false) (fuel : Nat) :
    call x (fuel + 1) s (.routine address) a m =
      (.ok (.pending m.heap.objects.size), m.noted { target := c, bound }) := by
  unfold call
  rw [Exec.get_bind, hc]
  dsimp only
  rw [hbound, hasync, hyields]
  rfl

theorem ran_awaitValue {c : Call} (hdone : c.done = false) (hdepth : s.depth < depthLimit)
    (hlog : m.log = #[])
    (hbody : ∀ fuel, Ran x main start (execBlock x fuel (s.callee m.frames.size)
      c.target.code.body (m.enter c))) (fuel : Nat) :
    Ran x main start (awaitValue x fuel s (.pending m.heap.objects.size) (m.noted c)) := by
  cases fuel with
  | zero => exact .early hlog
  | succ fuel =>
    have hcall : (m.noted c).heap.objects[m.heap.objects.size]? = some (.call c) := by
      simp [noted]
    have hbegin : beginCall s m.heap.objects.size (m.noted c) =
        (.ok (some c), (m.noted c).taken m.heap.objects.size c) := by
      unfold beginCall
      rw [Exec.get_bind, hcall]
      dsimp only
      rw [hdone]
      rfl
    unfold awaitValue
    rw [bind_apply, hbegin]
    dsimp only
    cases fuel with
    | zero => exact .early hlog
    | succ fuel =>
      unfold runRoutine
      rw [if_neg (Nat.not_le.mpr hdepth)]
      dsimp only
      rw [Exec.enterFrame_bind]
      refine Ran.bind (hbody fuel) fun flow m' => ?_
      obtain ⟨last, hlast, hkept⟩ :=
        leaveFrame_keeps ((m.noted c).taken m.heap.objects.size c).frames.size m'
      rw [bind_apply, hlast]
      cases flow with
      | leftScope v => exact ⟨v, rfl, hkept⟩
      | _ => exact ⟨.nothing, rfl, hkept⟩

/-! ### The main routine -/

theorem leads_callMain (hisMain : main.isMain = true) (hlog : m.log = #[])
    (hname : ∀ v, m.lookup s.frame "__main" = .ok v → v = .routine address)
    (hmain : m.heap.closure? address = some (closureIn [1] main)) (fuel : Nat) :
    Leads (eval x fuel s (.call (.name "__main") [] []) m) fun v m' =>
      v = .pending m.heap.objects.size ∧ m' = m.noted (mainCall main) := by
  simp only [isMain, Bool.and_eq_true, Bool.not_eq_true', List.isEmpty_iff] at hisMain
  obtain ⟨⟨⟨⟨-, hasync⟩, hyields⟩, hparams⟩, -⟩ := hisMain
  refine leads_callName hlog hname (fun v fuel hv => ?_) fuel
  subst hv
  cases fuel with
  | zero => exact hlog
  | succ =>
    have hbound : bindArguments main.path main.params (constants (initialExprs main.params))
        ⟨[], []⟩ = pure [] := by
      rw [hparams]
      rfl
    rw [call_async hmain hbound hasync hyields]
    exact ⟨rfl, rfl⟩

theorem ran_main {e : Expr} (he : e.awaitsMain = true) (hisMain : main.isMain = true)
    (hlog : m.log = #[])
    (hname : ∀ v, m.lookup s.frame "__main" = .ok v → v = .routine address)
    (hmain : m.heap.closure? address = some (closureIn [1] main)) (hdepth : s.depth < depthLimit)
    (l fuel : Nat) :
    Ran x main (m.enter (mainCall main)) (execBlock x fuel s [.action l (.evaluate e)] m) := by
  have hvalue (fuel : Nat) :
      Ran x main (m.enter (mainCall main)) (eval x fuel (s.at x l) e m) := by
    unfold Expr.awaitsMain at he
    split at he
    · next t =>
      obtain rfl := eq_of_beq he
      cases fuel with
      | zero => exact .early hlog
      | succ fuel =>
        refine (leads_callMain (s := s.at x l) hisMain hlog hname hmain fuel).ran ?_
        rintro _ _ ⟨rfl, rfl⟩
        refine ran_awaitValue (s := s.at x l) rfl hdepth hlog (fun fuel => ?_) fuel
        exact .block (Array.size_push _).symm (fun flow hflow => ⟨flow, hflow⟩) rfl rfl
    · cases he
  match fuel with
  | 0 | 1 | 2 => exact .early hlog
  | fuel + 3 =>
    refine Ran.bind ?_ fun flow m' => ?_
    · exact (hvalue fuel).bind fun _ _ => ⟨.next, rfl, rfl, rfl⟩
    · cases flow with
      | next => exact ⟨.next, rfl, rfl, rfl⟩
      | _ => exact ⟨_, rfl, rfl, rfl⟩

/-! ### The first statement -/

def Unused (name : Text) (m : Machine) : Prop :=
  m.AllVars fun p => p.1 ≠ name

theorem leads_callObject (hlog : m.log = #[]) (hobject : Unused "object" m) (fuel : Nat) :
    Leads (eval x fuel s (.call (.name "object") [] []) m) fun v m' =>
      v = .plain m.heap.marks ∧
        m' = { m with heap := { m.heap with marks := m.heap.marks + 1 } } := by
  refine leads_callName (Q := (· = .builtin .object)) hlog (fun v hv => ?_)
    (fun v fuel hv => ?_) fuel
  · rcases AllVars.lookup hobject hv with hname | hbuiltin
    · exact absurd rfl hname
    · exact (Option.some.inj hbuiltin).symm
  · subst hv
    cases fuel with
    | zero => exact hlog
    | succ => exact ⟨rfl, rfl⟩

theorem leads_storeName {v : Value} (hlog : m.log = #[]) (fuel : Nat) :
    Leads (storeAll x fuel s [(.name name, v)] m) fun _ m' => m' = m.store s.frame name v := by
  match fuel with
  | 0 | 1 => exact hlog
  | fuel + 2 => exact rfl

theorem leads_makesUnset {first : Node} (hfirst : first.makesUnset = true) (hlog : m.log = #[])
    (hobject : Unused "object" m) (fuel : Nat) :
    Leads (execNode x fuel s first m) fun flow m' =>
      flow = .next ∧ m' = m.makeUnset s.frame := by
  unfold Node.makesUnset at hfirst
  split at hfirst
  · next l unset object =>
    simp only [Bool.and_eq_true, beq_iff_eq] at hfirst
    obtain ⟨rfl, rfl⟩ := hfirst
    match fuel with
    | 0 | 1 => exact hlog
    | fuel + 2 =>
      refine (leads_callObject hlog hobject fuel).bind ?_
      rintro _ _ ⟨rfl, rfl⟩
      refine (leads_storeName
        (m := { m with heap := { m.heap with marks := m.heap.marks + 1 } }) hlog fuel).bind ?_
      rintro _ _ rfl
      exact ⟨rfl, rfl⟩
  · cases hfirst

end Runs

/-! ### What the states have in common -/

theorem scopesIn_modify (m : Machine) (n : Nat) (f : Frame → Frame)
    (hf : ∀ fr, (f fr).scopes = fr.scopes) (i : Nat) :
    { m with frames := m.frames.modify n f }.scopesIn i = m.scopesIn i := by
  have hscopes : ((m.frames.modify n f)[i]?).map Frame.scopes =
      (m.frames[i]?).map Frame.scopes := by
    rw [Array.getElem?_modify]
    split
    · rw [Option.map_map]
      exact congrArg (Option.map · _) (funext hf)
    · rfl
  unfold scopesIn
  rw [hscopes]

/-- The variables of a script with some routines before its main routine
runs. -/
inductive Initial (x : Executable) (rs : List Routine) : Text × Value → Prop
  | entry : Initial x rs (x.entryPoint, .routine 0)
  | module : x.entryPoint ≠ "__name__" →
      Initial x rs ("__name__", .str "pseudoflow_program")
  | host : Initial x rs ("io", .host)
  | unset {n : Nat} : Initial x rs ("__UNSET", .plain n)
  | routine {i : Nat} {r : Routine} : rs[i]? = some r → Initial x rs (r.name, .routine (2 + i))

/-- The objects and the variables are known, and nothing was shown. The
frame of the script's own routine is there. -/
structure Ready (x : Executable) (rs : List Routine) (objects : List Object) (m : Machine) :
    Prop where
  objects : m.heap.objects = objects.toArray
  scopes : m.scopesIn 1 = [1]
  vars : m.AllVars (Initial x rs)
  log : m.log = #[]

namespace Ready

variable {x : Executable} {rs : List Routine} {objects : List Object} {m : Machine}

variable (h : Ready x rs objects m)
include h

theorem store (frame : Nat) {v : Value}
    (hv : Initial x rs (name, v)) : Ready x rs objects (m.store frame name v) where
  objects := h.objects
  scopes := (scopesIn_modify m _ (fun fr => { fr with vars := assign (· == name) name v fr.vars })
    (fun _ => rfl) 1).trans h.scopes
  vars := h.vars.changeVars _ hv
  log := h.log

theorem makeUnset (frame : Nat) : Ready x rs objects (m.makeUnset frame) :=
  store (m := { m with heap := { m.heap with marks := m.heap.marks + 1 } })
    { h with } frame .unset

theorem define (hr : Initial x rs (r.name, .routine objects.length)) :
    Ready x rs (objects ++ [.closure (closureIn [1] r)]) (m.define 1 r) := by
  have hsize : m.heap.objects.size = objects.length := by rw [h.objects, size_toArray]
  unfold Machine.define
  rw [hsize, h.scopes]
  refine store (m := { m with
    heap := { m.heap with objects := m.heap.objects.push (.closure (closureIn [1] r)) }
    frames := m.frames.modify 1 fun f => { f with kept := true } }) ⟨?_, ?_, ?_, h.log⟩ 1 hr
  · rw [h.objects]
    simp
  · exact (scopesIn_modify m 1 (fun f => { f with kept := true }) (fun _ => rfl) 1).trans h.scopes
  · exact h.vars.modify 1 fun _ hfr => hfr

theorem defineAll {defined : List Routine}
    (hrs : ∀ i r, defined[i]? = some r → Initial x rs (r.name, .routine (objects.length + i))) :
    Ready x rs (objects ++ defined.map fun r => .closure (closureIn [1] r))
      (defined.foldl (·.define 1) m) := by
  induction defined generalizing objects m with
  | nil => rwa [map_nil, append_nil]
  | cons r defined ih =>
    rw [map_cons, append_cons]
    refine ih (h.define (hrs 0 r rfl)) fun i r' hr' => ?_
    have hnext := hrs (i + 1) r' hr'
    rwa [length_append, length_singleton, Nat.add_assoc, Nat.add_comm 1 i]

theorem objects_enter (c : Call) :
    (m.enter c).heap.objects = (objects ++ [Object.call { c with done := true }]).toArray := by
  unfold enter taken noted
  rw [h.objects]
  simp

end Ready

/-! ### The core of a run -/

/-- The core is that of the run of a script that defines some number of
routines: the script's own routine and its call, the routine that reports a
step, and the main routine with its call. -/
structure Core.IsOf (k : Core) (x : Executable) (tracer : Routine) (count : Nat) : Prop where
  addresses : k.addresses = [0, 1, 3, count + 1, count + 2]
  entryPoint : k.entryPoint = x.entryPoint
  mainAt : k.mainAt = count + 1
  tracer : k.tracer = closureIn [1] tracer
  tracerAt : k.tracerAt = 3
  bound : ∀ name ∈ coreNames x.entryPoint, name ∉ k.unbound

/-- The objects that are there when the main routine runs. -/
def scriptObjects (entry : Routine) (rs : List Routine) : List Object :=
  [.closure (closureIn [] entry), .call { entryCall entry with done := true }] ++
    rs.map fun r => .closure (closureIn [1] r)

theorem tame_constantOf (e : Expr) : Tame w (constantOf e) := by
  cases e <;> trivial

theorem tame_closureIn {scopes : List Nat}
    (h : r.obeys k.rules = true) : TameClosure w false (closureIn scopes r) := by
  refine ⟨h, fun p hp => ?_, nofun⟩
  obtain ⟨q, hq, rfl⟩ := mem_map.mp hp
  simp only [obeys, Bool.and_eq_true] at h
  obtain ⟨param, hparam, hname, -⟩ := exists_param_of_mem hq
  exact ⟨hname ▸ (obeysParams_iff.mp h.1 param hparam).1, tame_constantOf q.2⟩

section Form

variable {x : Executable} {slot tracer main : Routine} {others : List Routine} {k : Core}
  {w : k.World}

theorem initials_tracer (h : HasRoutines x slot tracer others main) :
    (closureIn [1] tracer).initials = [("output".toList, .str [])] := by
  have htracer := h.isTracer
  simp only [isTracer, Bool.and_eq_true] at htracer
  show constants (initialExprs tracer.params) = _
  rw [eq_tracerParams htracer.1.2]
  rfl

theorem tame_tracerInitials (h : HasRoutines x slot tracer others main)
    (hname : k.rules.mayBind "output" = true) :
    TameEntries w (closureIn [1] tracer).initials := by
  rw [initials_tracer h]
  exact forall_mem_singleton.mpr ⟨hname, trivial⟩

theorem isDirect_of_mem (h : HasRoutines x slot tracer others main)
    (hr : r ∈ slot :: tracer :: (others ++ [main])) : r.isDirect = true := by
  have hmain := h.isMain
  simp only [isMain, Bool.and_eq_true, List.isEmpty_iff] at hmain
  revert r
  simp only [forall_mem_cons]
  exact ⟨(h.beside slot (by simp)).2, h.tracer_direct, forall_mem_concat (fun r hr =>
    (h.beside r (mem_cons_of_mem _ hr)).2) (by simp [isDirect, hmain.1.2, hmain.2])⟩

variable (hk : k.IsOf x tracer (others.length + 3))
include hk

theorem sound_of_objects (entry : Routine) {heap : Heap} (hheap : heap.objects =
      (scriptObjects entry (slot :: tracer :: (others ++ [main])) ++
        [Object.call { mainCall main with done := true }]).toArray)
    (hslot : w.Open 2 → TameObject w (.closure (closureIn [1] slot)))
    (hothers : ∀ i r, others[i]? = some r → w.Open (i + 4) →
      TameObject w (.closure (closureIn [1] r)))
    (hsize : ∀ n, w.size = some n → heap.objects.size = n)
    (hshown : ∀ p ∈ w.shown, heap.objects[p.1]? = some p.2) : w.Sound heap := by
  refine ⟨fun a o ho ha => ?_, fun a ha => ?_, ?_, ?_, hsize, hshown⟩
  · rw [hheap] at ho
    have hapart := ha.apart
    simp only [hk.addresses, mem_cons, not_or] at hapart
    obtain ⟨h0, h1, h3, hmain, hcall⟩ := hapart
    match a with
    | 0 => exact absurd rfl h0
    | 1 => exact absurd rfl h1
    | 2 =>
      cases ho
      exact hslot ha
    | 3 => exact absurd rfl h3
    | i + 4 =>
      have hi : (others.map (fun r => Object.closure (closureIn [1] r)) ++
          [.closure (closureIn [1] main), .call { mainCall main with done := true }])[i]? =
            some o := by
        rw [← ho]
        simp [scriptObjects]
      have hsize := (List.getElem?_eq_some_iff.mp hi).1
      simp only [length_append, length_map, length_cons, length_nil] at hsize
      rw [getElem?_append_left (by rw [length_map]; omega), getElem?_map] at hi
      obtain ⟨r, hr, rfl⟩ := Option.map_eq_some_iff.mp hi
      exact hothers i r hr ha
  · rw [hheap]
    simp only [hk.addresses, mem_cons, not_mem_nil, or_false] at ha
    simp only [scriptObjects, size_toArray, length_append, length_map, length_cons]
    omega
  · rw [hheap, hk.tracerAt, hk.tracer]
    rfl
  · rw [hk.tracerAt, hk.addresses]
    simp

theorem fits_entryPoint (h : x.entryPoint ∉ reservedNames) : w.Fits (x.entryPoint, .routine 0) := by
  refine ⟨hk.bound _ (by simp [coreNames]), ?_⟩
  simp only [reservedNames, mem_cons, not_or] at h
  obtain ⟨hio, htrace, hmain, hhook, hgetattr, -⟩ := h
  have hlookup : k.bindings.lookup x.entryPoint = some [.routine 0] := by
    simp only [Core.bindings, hk.entryPoint, lookup_cons, beq_false_of_ne hio,
      beq_false_of_ne htrace, beq_false_of_ne hmain, beq_false_of_ne hhook,
      beq_false_of_ne hgetattr, beq_self_eq_true]
  rw [hlookup]
  exact mem_singleton_self _

theorem fits_routines (h : HasRoutines x slot tracer others main)
    (hslot : w.Fits (slot.name, .routine 2))
    (hothers : ∀ i r, others[i]? = some r → w.Fits (r.name, .routine (i + 4))) {i : Nat}
    (hr : (slot :: tracer :: (others ++ [main]))[i]? = some r) :
    w.Fits (r.name, .routine (2 + i)) := by
  match i with
  | 0 =>
    cases hr
    exact hslot
  | 1 =>
    cases hr
    rw [h.tracer_name]
    refine ⟨hk.bound _ (by simp [coreNames]), ?_⟩
    show Value.routine _ ∈ [Value.routine _]
    rw [mem_singleton, hk.tracerAt]
  | i + 2 =>
    rcases Nat.lt_trichotomy i others.length with hlt | rfl | hlt
    · have hi : others[i]? = some r := by
        rw [← hr]
        exact (getElem?_append_left hlt).symm
      have haddress : 2 + (i + 2) = i + 4 := by omega
      exact haddress ▸ hothers i r hi
    · obtain rfl : main = r := by simpa using hr
      have hmain := h.isMain
      simp only [isMain, Bool.and_eq_true, beq_iff_eq] at hmain
      rw [hmain.1.1.1.1]
      refine ⟨hk.bound _ (by simp [coreNames]), ?_⟩
      show Value.routine _ ∈ [Value.routine _]
      rw [mem_singleton, hk.mainAt]
      exact congrArg Value.routine (Nat.add_comm 2 _)
    · have hsize := (List.getElem?_eq_some_iff.mp hr).1
      simp only [length_cons, length_append, length_nil] at hsize
      omega

theorem fits_initial (h : x.entryPoint ∉ reservedNames) {rs : List Routine}
    (hmodule : x.entryPoint ≠ "__name__" → k.rules.mayBind "__name__" = true)
    (hunset : k.rules.mayBind "__UNSET" = true)
    (hroutines : ∀ {i r}, rs[i]? = some r → w.Fits (r.name, .routine (2 + i)))
    {p : Text × Value} (hp : Initial x rs p) : w.Fits p := by
  cases hp with
  | entry => exact fits_entryPoint hk h
  | module hname => exact Core.World.fits_of_tame ⟨hmodule hname, trivial⟩
  | host => exact ⟨hk.bound _ (by simp [coreNames]), mem_singleton_self _⟩
  | unset => exact Core.World.fits_of_tame ⟨hunset, trivial⟩
  | routine hr => exact hroutines hr

end Form

/-! ### The core for counted lines -/

/-- The core of a run in which the steps of some lines are counted. -/
def coreOf (x : Executable) (lines : List Nat) (tracer : Routine) (count : Nat) : Core where
  addresses := [0, 1, 3, count + 1, count + 2]
  entryPoint := x.entryPoint
  mainAt := count + 1
  lines := lines
  tracer := closureIn [1] tracer
  tracerAt := 3
  extra := []
  loose := []
  unbound := []
  reports := (Rules.quiet (coreNames x.entryPoint) lines).reports

section Counted

variable {x : Executable} {lines : List Nat} {b : Body} {slot tracer main : Routine}
  {others : List Routine}

theorem isOf_coreOf (x : Executable) (lines : List Nat) (tracer : Routine) (count : Nat) :
    (coreOf x lines tracer count).IsOf x tracer count :=
  ⟨rfl, rfl, rfl, rfl, rfl, fun _ _ => not_mem_nil⟩

theorem mayBind_coreOf {count : Nat} (h : name ∉ coreNames x.entryPoint) :
    (coreOf x lines tracer count).rules.mayBind name = true :=
  Rules.mayBind_iff.mpr ⟨h, not_mem_nil⟩

theorem tracing_coreOf {count : Nat} (h : HasRoutines x slot tracer others main) :
    (coreOf x lines tracer count).Tracing := by
  have hnames : ∀ p ∈ tracerParams, p.name ∉ coreNames x.entryPoint := by
    simp only [tracerParams, forall_mem_cons]
    exact ⟨h.not_mem_coreNames (by decide) (by decide), h.not_mem_coreNames (by decide) (by decide),
      h.not_mem_coreNames (by decide) (by decide), forall_mem_nil _⟩
  refine ⟨rfl, h.isTracer, hnames, tame_tracerInitials h (mayBind_coreOf ?_)⟩
  exact h.not_mem_coreNames (by decide) (by decide)

theorem fits_coreOf (h : HasRoutines x slot tracer others main) {p : Text × Value}
    (hp : Initial x (slot :: tracer :: (others ++ [main])) p) :
    (coreOf x lines tracer (others.length + 3)).free.Fits p := by
  have hopen : ∀ a, a ∉ [0, 1, 3, others.length + 4, others.length + 5] →
      (coreOf x lines tracer (others.length + 3)).free.Open a := fun a ha => ⟨ha, nofun, nofun⟩
  refine fits_initial (isOf_coreOf ..) h.entryPoint (fun hname => mayBind_coreOf ?_)
    (mayBind_coreOf (h.not_mem_coreNames (by decide) (by decide)))
    (fun hr => fits_routines (isOf_coreOf ..) h ?_ (fun i r hi => ?_) hr) hp
  · exact not_mem_coreNames (by decide) hname.symm
  · refine Core.World.fits_of_tame ⟨mayBind_coreOf (h.beside slot (by simp)).1, hopen 2 ?_⟩
    simp
  · have hlt := (List.getElem?_eq_some_iff.mp hi).1
    have hr := mem_of_getElem? hi
    refine Core.World.fits_of_tame
      ⟨mayBind_coreOf (h.beside r (mem_cons_of_mem _ hr)).1, hopen _ ?_⟩
    simp only [mem_cons, not_mem_nil, or_false]
    omega

theorem sound_coreOf (h : HasForm x lines b slot tracer others main) (entry : Routine)
    {heap : Heap} (hheap : heap.objects =
      (scriptObjects entry (slot :: tracer :: (others ++ [main])) ++
        [Object.call { mainCall main with done := true }]).toArray) :
    (coreOf x lines tracer (others.length + 3)).free.Sound heap := by
  have htame : ∀ r ∈ slot :: others,
      TameObject (coreOf x lines tracer (others.length + 3)).free (.closure (closureIn [1] r)) := by
    intro r hr
    have happart := h.apart r hr
    simp only [isApart, Bool.and_eq_true] at happart
    exact tame_closureIn (obeys_of_quiet
      (Bool.and_eq_true_iff.mpr ⟨happart.2, h.quiet r hr⟩))
  exact sound_of_objects (isOf_coreOf ..) entry hheap (fun _ => htame slot (by simp))
    (fun _ r hr _ => htame r (mem_cons_of_mem _ (mem_of_getElem? hr)))
    (by simp [Core.free]) (by simp [Core.free])

end Counted

/-! ### The script's own routine -/

section Entry

variable {x : Executable} {entry : Routine}

theorem params_of_isEntry (h : entry.isEntry = true) :
    entry.params = [⟨.plain, "io", none, none⟩] := by
  simp only [isEntry, Bool.and_eq_true] at h
  have hparams := h.2
  split at hparams
  · next name hname => rw [hname, eq_of_beq hparams]
  · cases hparams

theorem lookup_assign (name : Text) (v : Value) (vars : List (Text × Value)) :
    (assign (· == name) name v vars).lookup name = some v := by
  induction vars with
  | nil => simp [assign]
  | cons p rest ih =>
    obtain ⟨key, w⟩ := p
    unfold assign
    by_cases hkey : key = name
    · simp [hkey]
    · simp [hkey, lookup_cons, beq_false_of_ne (Ne.symm hkey), ih]

theorem frames_define_initial (entry : Routine) :
    (initial.define 0 entry).frames =
      #[{ vars := assign (· == entry.name) entry.name (.routine 0)
            [("__name__", .str "pseudoflow_program")]
          kept := true }] := by
  rfl

theorem ofExecutable_eq {l : Nat} (hbody : x.body = [.define l entry])
    (hentry : entry.isEntry = true) (hname : entry.name = x.entryPoint) :
    Prepared.ofExecutable x = .ok ⟨x, initial.define 0 entry, .routine 0⟩ := by
  have hdefined : execBlock x ampleFuel {} x.body initial =
      (.ok .next, initial.define 0 entry) := by
    have hparams := params_of_isEntry hentry
    simp only [isEntry, Bool.and_eq_true, Option.isNone_iff_eq_none] at hentry
    obtain ⟨fuel, hfuel⟩ : ∃ n, ampleFuel = n + 3 := ⟨ampleFuel - 3, rfl⟩
    rw [hbody, hfuel]
    obtain ⟨name, path, isAsync, yields, params, note, locals, body⟩ := entry
    cases hparams
    cases hentry.1.2
    rfl
  have hvar : (initial.define 0 entry).var? 0 x.entryPoint = some (.routine 0) := by
    unfold var?
    rw [← hname]
    exact lookup_assign ..
  have hlog : (initial.define 0 entry).beforeRun = initial.define 0 entry := rfl
  unfold Prepared.ofExecutable
  rw [hdefined]
  dsimp only
  rw [hvar, hlog]

end Entry

section Script

variable {x : Executable} {lines : List Nat} {b : Body} {slot tracer main : Routine}
  {others : List Routine} {entry : Routine}

theorem ready_entryStart (h : x.entryPoint ∉ reservedNames) (hname : entry.name = x.entryPoint)
    (rs : List Routine) (inputs : List Datum) :
    Ready x rs (scriptObjects entry []) (entryStart entry inputs) ∧
      Unused "object" (entryStart entry inputs) := by
  have hframes : (entryStart entry inputs).frames =
      (initial.define 0 entry).frames.push
        { vars := [("io", .host)], locals := entry.locals } := rfl
  have hvars : (entryStart entry inputs).AllVars fun p =>
      Initial x rs p ∧ p.1 ≠ "object" := by
    intro n f hf p hp
    have hobject : x.entryPoint ≠ "object" := fun he => h (he ▸ by decide)
    rw [hframes, frames_define_initial, hname] at hf
    have hmem := Array.mem_of_getElem? hf
    simp only [push_toArray, mem_toArray, cons_append, nil_append,
      mem_cons, not_mem_nil, or_false] at hmem
    rcases hmem with rfl | rfl
    · simp only [assign] at hp
      split at hp
      · next hsame =>
        obtain rfl := mem_singleton.mp hp
        rw [eq_of_beq hsame]
        exact ⟨.entry, hobject⟩
      · next hother =>
        rcases mem_pair.mp hp with rfl | rfl
        · exact ⟨.module fun he => hother (beq_iff_eq.mpr he.symm), by decide⟩
        · exact ⟨.entry, hobject⟩
    · obtain rfl := mem_singleton.mp hp
      exact ⟨.host, by decide⟩
  refine ⟨⟨rfl, ?_, hvars.mono fun _ hp => hp.1, rfl⟩, hvars.mono fun _ hp => hp.2⟩
  unfold scopesIn
  rfl

theorem ready_defined (h : x.entryPoint ∉ reservedNames) (hname : entry.name = x.entryPoint)
    (rs : List Routine) (inputs : List Datum) :
    Ready x rs (scriptObjects entry rs)
      (rs.foldl (·.define 1) ((entryStart entry inputs).makeUnset 1)) :=
  ((ready_entryStart h hname rs inputs).1.makeUnset 1).defineAll fun _ _ hr => .routine hr

/-- What there is when the main routine begins: the objects, variables that
are as they have to be, and nothing shown. -/
theorem of_mainStart (h : x.entryPoint ∉ reservedNames) (hname : entry.name = x.entryPoint)
    {rs : List Routine} (main : Routine) (inputs : List Datum) {P : Text × Value → Prop}
    (hP : ∀ p, Initial x rs p → P p) :
    (mainStart entry rs main inputs).heap.objects =
        (scriptObjects entry rs ++ [Object.call { mainCall main with done := true }]).toArray ∧
      (mainStart entry rs main inputs).AllVars P ∧ (mainStart entry rs main inputs).log = #[] :=
  have hready := ready_defined h hname rs inputs
  ⟨hready.objects_enter _, (hready.vars.mono hP).push (forall_mem_nil _), hready.log⟩

theorem steady_mainStart (h : HasForm x lines b slot tracer others main)
    (hname : entry.name = x.entryPoint) (inputs : List Datum) :
    (coreOf x lines tracer (others.length + 3)).free.Steady
        (mainStart entry (slot :: tracer :: (others ++ [main])) main inputs) ∧
      (mainStart entry (slot :: tracer :: (others ++ [main])) main inputs).log = #[] := by
  obtain ⟨hobjects, hvars, hlog⟩ := of_mainStart h.entryPoint hname main inputs
    fun _ => fits_coreOf h.toHasRoutines
  exact ⟨⟨sound_coreOf h entry hobjects, hvars⟩, hlog⟩

theorem ran_entry (h : HasRoutines x slot tracer others main)
    (hname : entry.name = x.entryPoint) (inputs : List Datum) {first : Node} {rest : List Node}
    {s : Site} (hstatements : entry.body = first :: rest) (hfirst : first.makesUnset = true)
    (hdefs : definitions? rest = some (slot :: tracer :: (others ++ [main]))) (hs : s.frame = 1)
    (hdepth : s.depth < depthLimit) (fuel : Nat) :
    Ran x main (mainStart entry (slot :: tracer :: (others ++ [main])) main inputs)
      (execBlock x fuel s entry.body (entryStart entry inputs)) := by
  have hobject := (ready_entryStart h.entryPoint hname [] inputs).2
  have hready := ready_defined h.entryPoint hname (slot :: tracer :: (others ++ [main])) inputs
  have hfits : (coreOf x [] tracer (others.length + 3)).free.Fitting _ :=
    hready.vars.mono fun _ => fits_coreOf h
  rw [hstatements]
  cases fuel with
  | zero => exact .early rfl
  | succ fuel =>
    refine (leads_makesUnset hfirst rfl hobject fuel).ran ?_
    rintro _ _ ⟨rfl, rfl⟩
    rw [hs]
    refine ran_definitions hdefs hs rfl (fun r hr => ?_) (fun fuel l e he => ?_) fuel
    · exact isDirect_of_mem h hr
    · refine ran_main he h.isMain hready.log (fun v hv => hfits.lookup_main hv) ?_ hdepth
        l fuel
      unfold Heap.closure?
      rw [hready.objects]
      simp [scriptObjects, coreOf]

/-- The script's own routine is called and waited for. -/
def Prepared.run (p : Prepared) (fuel : Nat) : Exec Value := do
  let v ← call p.script fuel {} p.entry ⟨[.host], []⟩
  awaitValue p.script fuel {} v

theorem exists_ran (h : HasRoutines x slot tracer others main) (inputs : List Datum) (fuel : Nat) :
    ∃ p l entry, Prepared.ofExecutable x = .ok p ∧ p.script = x ∧ x.body = [.define l entry] ∧
      entry.name = x.entryPoint ∧
        Ran x main (mainStart entry (slot :: tracer :: (others ++ [main])) main inputs)
          (p.run fuel { p.start with inputs }) := by
  obtain ⟨l, entry, first, rest, hbody, hstatements, hentry, hname, hfirst, hdefs⟩ :=
    exists_of_routines? h.routines
  refine ⟨_, l, entry, ofExecutable_eq hbody hentry hname, rfl, hbody, hname, ?_⟩
  unfold Prepared.run
  have hparams := params_of_isEntry hentry
  simp only [isEntry, Bool.and_eq_true, Bool.not_eq_true'] at hentry
  cases fuel with
  | zero => exact .early rfl
  | succ fuel =>
    have hbound : bindArguments entry.path entry.params (constants (initialExprs entry.params))
        ⟨[Value.host], []⟩ = pure [("io".toList, Value.host)] := by
      rw [hparams]
      rfl
    rw [bind_apply, call_async rfl hbound hentry.1.1.1 hentry.1.1.2]
    have hdepth : 0 + 1 < depthLimit := by decide
    exact ran_awaitValue (s := {}) rfl (by decide) rfl
      (ran_entry h hname inputs hstatements hfirst hdefs rfl hdepth) (fuel + 1)

end Script

/-! ### What a run leaves -/

/-- What was shown, with its values as they are now. -/
def Machine.kept (m : Machine) : List Event :=
  m.log.toList.map fun p => m.heap.event p.1

/-- What a run leaves, by the result and the last state of its script. -/
def Ended.ofResult (result : Except Stop Value × Machine) : Ended where
  stop := match result.1 with
    | .ok _ => none
    | .error stop => some stop
  log := result.2.log.toList.map Prod.snd
  kept := result.2.kept
  inputs := result.2.inputs

theorem exec_eq_ofResult (fuel : Nat) (p : Prepared) (inputs : List Datum) :
    exec fuel p inputs = .ofResult (p.run fuel { p.start with inputs }) :=
  rfl

theorem Ended.trace_outcome (e : Ended) : e.outcome.trace = traced e.kept := by
  unfold Ended.outcome
  split <;> rfl

theorem Ended.output_outcome (e : Ended) : e.outcome.output = written e.kept := by
  unfold Ended.outcome
  split <;> rfl

/-- If the main routine begins with an invariant and keeps it, then all that a
run shows is in the log of a state with the invariant, as it was shown or as
it is at the end. -/
theorem exec_shown {x : Executable} {slot tracer main : Routine} {others : List Routine}
    (h : HasRoutines x slot tracer others main) {I : k.Invariant} {Q : k.World → Flow → Prop}
    (hstart : ∀ (entry : Routine) inputs, entry.name = x.entryPoint →
      I.At w (mainStart entry (slot :: tracer :: (others ++ [main])) main inputs))
    (hblock : ∀ fuel s, I.Upholds w (execBlock x fuel s main.body) Q) :
    ∃ p, Prepared.ofExecutable x = .ok p ∧ ∀ fuel inputs e,
      e ∈ (exec fuel p inputs).log ∨ e ∈ (exec fuel p inputs).kept →
        ∃ w' m, I.At w' m ∧ ∃ shown ∈ m.log, shown.2 = e ∨ m.heap.event shown.1 = e := by
  obtain ⟨p, -, -, hp, -⟩ := exists_ran h [] 0
  refine ⟨p, hp, fun fuel inputs e he => ?_⟩
  obtain ⟨p', -, entry, hp', rfl, -, hname, hran⟩ := exists_ran h inputs fuel
  obtain rfl : p = p' := Except.ok.inj (hp.symm.trans hp')
  rw [exec_eq_ofResult] at he
  rcases hrun : p.run fuel { p.start with inputs } with ⟨r, m⟩
  rw [hrun] at he hran
  -- The event is at some place in the log of the last state.
  obtain ⟨shown, hshown, hevent⟩ : ∃ shown ∈ m.log, shown.2 = e ∨ m.heap.event shown.1 = e := by
    rcases he with he | he
    · obtain ⟨shown, hshown, hevent⟩ := mem_map.mp he
      exact ⟨shown, Array.mem_toList_iff.mp hshown, .inl hevent⟩
    · obtain ⟨shown, hshown, hevent⟩ := mem_map.mp he
      exact ⟨shown, Array.mem_toList_iff.mp hshown, .inr hevent⟩
  cases hran with
  | early hlog =>
    rw [hlog] at hshown
    exact absurd hshown (Array.not_mem_empty _)
  | @block fuel' s _ _ hframe hended hlog hheap =>
    -- The last state has the log and the heap that the main routine left.
    obtain ⟨w', -, hat⟩ := (hblock fuel' s _ (hstart entry inputs hname)).last
    rw [hlog] at hshown
    rw [hheap] at hevent
    exact ⟨w', _, hat, shown, hshown, hevent⟩

end Pseudocode.Run
