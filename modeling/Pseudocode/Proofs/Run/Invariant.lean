import Pseudocode.Proofs.Run.Execution
import Pseudocode.Proofs.Run.Tame

/-!
# What a computation keeps

Around the operations on values a run has frames with variables and a log
of what it showed to its host. Here a computation is described by an
invariant of its states, which only a report of a step may touch.

* `Core.World.Steady`: the heap is sound, and every variable of every
  frame has a value that its name may have. Which frame binds a name does
  not matter.
* `Core.Invariant`: a property of states that includes this and that the
  other changes of a state keep.
* `Core.Invariant.Stays`, `Core.Invariant.Upholds`: a computation keeps
  the invariant, in the same world or in a later one, and its result has a
  property.

A rule for each way to put computations together, and a lemma for each
access to the state of a run, follow.
-/

namespace Pseudocode.Run

open Text Script Realm List

variable {fault : Fault} {name : Text} {s : Site}
variable {v : Value}

/-- The state after something was shown to the host. -/
def Machine.shows (m : Machine) (shown : Showing) : Machine :=
  { m with log := m.log.push (shown, m.heap.event shown) }

/-! ### Variables -/

def Machine.AllVars (m : Machine) (P : Text × Value → Prop) : Prop :=
  ∀ (n : Nat) (f : Frame), m.frames[n]? = some f → ∀ p ∈ f.vars, P p

namespace Machine.AllVars

variable {P : Text × Value → Prop} {m : Machine}

theorem mono {P' : Text × Value → Prop} (h : m.AllVars P) (hP : ∀ p, P p → P' p) : m.AllVars P' :=
  fun n f hf p hp => hP p (h n f hf p hp)

theorem modify (h : m.AllVars P) (n : Nat) {f : Frame → Frame}
    (hf : ∀ fr : Frame, (∀ p ∈ fr.vars, P p) → ∀ p ∈ (f fr).vars, P p) :
    { m with frames := m.frames.modify n f }.AllVars P := by
  intro n' fr hfr
  rw [Array.getElem?_modify] at hfr
  split at hfr
  · obtain ⟨fr', hfr', rfl⟩ := Option.map_eq_some_iff.mp hfr
    exact hf fr' (h _ fr' hfr')
  · exact h n' fr hfr

theorem push (h : m.AllVars P) {f : Frame} (hf : ∀ p ∈ f.vars, P p) :
    { m with frames := m.frames.push f }.AllVars P := by
  intro n fr hfr
  rw [Array.getElem?_push] at hfr
  split at hfr
  · cases hfr
    exact hf
  · exact h n fr hfr

theorem changeVars (h : m.AllVars P) (n : Nat) (hv : P (name, v)) :
    (m.changeVars n (assign (· == name) name v)).AllVars P := by
  refine h.modify n fun fr hfr p hp => ?_
  obtain hp | ⟨h2, h1 | ⟨hsame, -⟩⟩ := mem_assign hp
  · exact hfr p hp
  · rw [← Prod.eta p, h1, h2]
    exact hv
  · rw [← Prod.eta p, eq_of_beq hsame, h2]
    exact hv

theorem lookup (h : m.AllVars P) {n : Nat}
    (hv : m.lookup n name = .ok v) : P (name, v) ∨ builtinValue? name = some v := by
  have hvar {n' : Nat} {u : Value} (hu : m.var? n' name = some u) : P (name, u) := by
    obtain ⟨f, hf, hv⟩ := Option.bind_eq_some_iff.mp hu
    exact h n' f hf _ (mem_of_lookup hv)
  -- A routine around the name binds it, or else the whole script or no one does.
  unfold Machine.lookup at hv
  split at hv
  · split at hv
    · next u hu =>
      cases hv
      exact .inl (hvar hu)
    · cases hv
  · split at hv
    · next u hu =>
      obtain rfl := Except.ok.inj hv
      rcases hfound : m.var? 0 name with _ | v
      · rw [hfound] at hu
        exact .inr hu
      · rw [hfound] at hu
        obtain rfl : v = u := Option.some.inj hu
        exact .inl (hvar hfound)
    · cases hv

end Machine.AllVars

namespace Core

/-- Code outside the core may show this to the host: no step, and nothing
that it may not ask the host for. -/
def reveals (k : Core) : Showing → Bool
  | .trace .. => false
  | .write _ => k.asks HostAct.write.word
  | _ => true

namespace World

variable {p : Text × Value}

section

variable {k : Core} (w : k.World)

/-- The value is one that its name may have. -/
def Fits (p : Text × Value) : Prop :=
  p.1 ∉ k.unbound ∧
    match k.bindings.lookup p.1 with
    | some vs => p.2 ∈ vs
    | none => if p.1 ∈ k.loose then k.admits p.2 else Tame w p.2

abbrev Fitting (m : Machine) : Prop :=
  m.AllVars w.Fits

structure Steady (m : Machine) : Prop where
  sound : w.Sound m.heap
  fits : w.Fitting m

end

variable {k : Core} {w w' : k.World}

theorem lookup_bindings_eq_none (h : name ∉ k.hidden) : k.bindings.lookup name = none := by
  rw [lookup_eq_none_iff]
  intro p hp
  simp only [bne_iff_ne]
  rintro rfl
  exact h (mem_append_left _ (mem_map_of_mem hp))

theorem fits_of_tame (h : TameEntry w p) : w.Fits p := by
  obtain ⟨hhidden, hunbound⟩ := Rules.mayBind_iff.mp h.1
  have hloose : p.1 ∉ k.loose := fun hp => hhidden (mem_append_right _ hp)
  refine ⟨hunbound, ?_⟩
  rw [lookup_bindings_eq_none hhidden]
  exact (if_neg hloose).mpr h.2

theorem Fits.tame (h : w.Fits p) (hp : p.1 ∉ k.hidden) : Tame w p.2 := by
  have hvalue := h.2
  have hloose : p.1 ∉ k.loose := fun hloose => hp (mem_append_right _ hloose)
  rwa [lookup_bindings_eq_none hp, if_neg hloose] at hvalue

theorem Fits.mono (h : w.Fits p) (hle : w ≤ w') : w'.Fits p := by
  refine ⟨h.1, ?_⟩
  have hvalue := h.2
  split at hvalue
  · exact hvalue
  · split at hvalue
    · next hloose => exact (if_pos hloose).mpr hvalue
    · next hloose => exact (if_neg hloose).mpr (Tame.mono hvalue hle)

section Bindings

variable {m : Machine} {n : Nat} {v : Value}

theorem builtinValue?_core :
    ∀ name ∈ ["io".toList, "__trace", "__main", "hook"], builtinValue? name = none := by
  decide +kernel

variable (hm : w.Fitting m)
include hm

theorem Fitting.lookup_hidden {vs : List Value}
    (h : m.lookup n name = .ok v) (hvs : k.bindings.lookup name = some vs)
    (hname : builtinValue? name = none) : v ∈ vs := by
  rcases hm.lookup h with h | h
  · have hvalue := h.2
    rwa [hvs] at hvalue
  · rw [hname] at h
    cases h

theorem Fitting.lookup_host (h : m.lookup n "io" = .ok v) : v = .host :=
  mem_singleton.mp (hm.lookup_hidden h rfl (builtinValue?_core _ (by simp)))

theorem Fitting.lookup_trace (h : m.lookup n "__trace" = .ok v) : v = .routine k.tracerAt :=
  mem_singleton.mp (hm.lookup_hidden h rfl (builtinValue?_core _ (by simp)))

theorem Fitting.lookup_main (h : m.lookup n "__main" = .ok v) : v = .routine k.mainAt :=
  mem_singleton.mp (hm.lookup_hidden h rfl (builtinValue?_core _ (by simp)))

theorem Fitting.lookup_hook (h : m.lookup n "hook" = .ok v) : v = .hostAct .trace :=
  mem_singleton.mp (hm.lookup_hidden h rfl (builtinValue?_core _ (by simp)))

theorem Fitting.lookup_getattr (h : m.lookup n "getattr" = .ok v) :
    v = .builtin .getattr := by
  rcases hm.lookup h with h | h
  · exact nomatch h.2
  · exact (Option.some.inj h).symm

end Bindings

theorem tame_builtinValue? {v : Value} (h : builtinValue? name = some v) : Tame w v := by
  unfold builtinValue? at h
  repeat' split at h
  all_goals cases h
  all_goals trivial

end World

/-! ### Invariants -/

/-- A property of the states of a run, in which code outside the core
runs. Everything keeps it but what that code must not show. -/
structure Invariant (k : Core) where
  /-- The property, in a world. -/
  At : k.World → Machine → Prop
  steady : ∀ {w : k.World} {m : Machine}, At w m → w.Steady m
  heap : ∀ {w w' : k.World} {m : Machine} {h : Heap}, At w m → w ≤ w' → w'.Sound h →
    At w' { m with heap := h }
  frames : ∀ {w : k.World} {m : Machine} {fs : Array Frame}, At w m →
    w.Fitting { m with frames := fs } → At w { m with frames := fs }
  inputs : ∀ {w : k.World} {m : Machine} {ds : List Datum}, At w m → At w { m with inputs := ds }
  reveal : ∀ {w : k.World} {m : Machine} {shown : Showing}, At w m → k.reveals shown = true →
    At w (m.shows shown)

namespace Invariant

section

variable {k : Core} (I : k.Invariant) {α : Type}

/-- The invariant holds at the end of a computation, in a later world than
at its beginning, and a result has a property. -/
def Ends (w : k.World) (Q : k.World → Machine → α → Prop) : Except Stop α × Machine → Prop
  | (.ok a, m) => ∃ w', w ≤ w' ∧ I.At w' m ∧ Q w' m a
  | (.error _, m) => ∃ w', w ≤ w' ∧ I.At w' m

def Stays (w : k.World) (e : Exec α) (Q : α → Prop) : Prop :=
  ∀ m, I.At w m → I.At w (e m).2 ∧ ∀ a, (e m).1 = .ok a → Q a

def Upholds (w : k.World) (e : Exec α) (Q : k.World → α → Prop) : Prop :=
  ∀ m, I.At w m → I.Ends w (fun w' _ => Q w') (e m)

end

variable {k : Core} {I : k.Invariant} {w : k.World} {α β : Type}

theorem Ends.mono {Q Q' : k.World → Machine → α → Prop} {w' : k.World}
    {r : Except Stop α × Machine} (h : I.Ends w' Q r) (hle : w ≤ w')
    (hQ : ∀ w'' m a, w' ≤ w'' → Q w'' m a → Q' w'' m a) : I.Ends w Q' r := by
  obtain ⟨r, m⟩ := r
  cases r with
  | error =>
    obtain ⟨w'', hle', hm⟩ := h
    exact ⟨w'', World.le_trans hle hle', hm⟩
  | ok a =>
    obtain ⟨w'', hle', hm, ha⟩ := h
    exact ⟨w'', World.le_trans hle hle', hm, hQ w'' m a hle' ha⟩

theorem Ends.last {Q : k.World → Machine → α → Prop} {r : Except Stop α × Machine}
    (h : I.Ends w Q r) : ∃ w', w ≤ w' ∧ I.At w' r.2 := by
  obtain ⟨r, m⟩ := r
  cases r with
  | error => exact h
  | ok =>
    obtain ⟨w', hle, hm, -⟩ := h
    exact ⟨w', hle, hm⟩

theorem Ends.bind {Q : k.World → Machine → α → Prop} {R : k.World → Machine → β → Prop}
    {e : Exec α} {f : α → Exec β} {m : Machine} (he : I.Ends w Q (e m))
    (hf : ∀ w', w ≤ w' → ∀ m' a, I.At w' m' → Q w' m' a → I.Ends w' R (f a m')) :
    I.Ends w R ((e >>= f) m) := by
  rw [bind_apply]
  rcases hem : e m with ⟨r, m'⟩
  rw [hem] at he
  cases r with
  | error => exact he
  | ok a =>
    obtain ⟨w', hle, hm', ha⟩ := he
    exact (hf w' hle m' a hm' ha).mono hle fun _ _ _ _ h => h

theorem Ends.evaluate {Q : k.World → α → Prop} {e : Eval α} {m : Machine}
    (hm : I.At w m) (h : Makes w e Q) :
    I.Ends w (fun w' m' a => m'.frames = m.frames ∧ Q w' a) (evaluate s e m) := by
  obtain ⟨heap, frames, log, inputs⟩ := m
  obtain ⟨w', hle, hsound, hQ⟩ := h heap (I.steady hm).sound
  -- An operation that fails may have changed the heap before.
  have hm' : I.At w' ⟨(e heap).2, frames, log, inputs⟩ := I.heap hm hle hsound
  have hrun : Run.evaluate s e ⟨heap, frames, log, inputs⟩ =
      ((e heap).1.mapError (.failed · s.traceback), ⟨(e heap).2, frames, log, inputs⟩) := rfl
  rw [hrun]
  rcases he : (e heap).1 with fault | a
  · exact ⟨w', hle, hm'⟩
  · exact ⟨w', hle, hm', rfl, hQ a he⟩

/-! ### Computations in one world -/

namespace Stays

variable {Q : α → Prop} {R : β → Prop}

theorem pure {a : α} (h : Q a) : I.Stays w (Pure.pure a) Q := by
  intro m hm
  refine ⟨hm, fun b hb => ?_⟩
  cases hb
  exact h

theorem stop {stop : Stop} : I.Stays w (throw stop) Q :=
  fun _ hm => ⟨hm, fun _ h => nomatch h⟩

theorem bind {e : Exec α} {f : α → Exec β} (he : I.Stays w e Q)
    (hf : ∀ a, Q a → I.Stays w (f a) R) : I.Stays w (e >>= f) R := by
  intro m hm
  obtain ⟨hm', hQ⟩ := he m hm
  rw [bind_apply]
  rcases hem : e m with ⟨r, m'⟩
  rw [hem] at hm' hQ
  cases r with
  | error => exact ⟨hm', fun _ h => nomatch h⟩
  | ok a => exact hf a (hQ a rfl) m' hm'

theorem get_bind {f : Machine → Exec β} (hf : ∀ m, I.At w m → I.Stays w (f m) R) :
    I.Stays w (get >>= f) R :=
  fun m hm => hf m hm m hm

theorem ite {c : Prop} [Decidable c] {e e' : Exec α} (he : I.Stays w e Q)
    (he' : I.Stays w e' Q) : I.Stays w (if c then e else e') Q := by
  split
  · exact he
  · exact he'

theorem fail : I.Stays w (fail s fault) Q :=
  stop

theorem fail_bind {f : α → Exec β} : I.Stays w (Run.fail s fault >>= f) R :=
  bind (Q := fun _ => False) fail fun _ h => h.elim

theorem orFail {e : Except Fault α} (h : ∀ a, e = .ok a → Q a) : I.Stays w (orFail s e) Q := by
  unfold Run.orFail
  split
  · exact pure (h _ rfl)
  · exact fail

theorem isTrue : I.Stays w (isTrue v) fun _ => True :=
  get_bind fun _ _ => pure trivial

theorem evaluate {e : Eval α} (h : Safe w e Q) : I.Stays w (evaluate s e) Q := by
  intro m hm
  obtain ⟨hsound, hQ⟩ := h m.heap (I.steady hm).sound
  exact ⟨I.heap hm w.le_refl hsound, fun a ha => hQ a (eq_ok_of_mapError ha)⟩

end Stays

/-! ### Computations that may lead to later worlds -/

namespace Upholds

variable {Q : k.World → α → Prop} {R : k.World → β → Prop}

theorem mono {e : Exec α} {Q' : k.World → α → Prop} (h : I.Upholds w e Q)
    (hQ : ∀ w' a, w ≤ w' → Q w' a → Q' w' a) : I.Upholds w e Q' :=
  fun m hm => (h m hm).mono w.le_refl fun w' _ a hle ha => hQ w' a hle ha

theorem ofStays {e : Exec α} (h : I.Stays w e (Q w)) : I.Upholds w e Q := by
  intro m hm
  obtain ⟨hm', hQ⟩ := h m hm
  rcases hem : e m with ⟨r, m'⟩
  rw [hem] at hm' hQ
  cases r with
  | error => exact ⟨w, w.le_refl, hm'⟩
  | ok a => exact ⟨w, w.le_refl, hm', hQ a rfl⟩

theorem pure {a : α} (h : Q w a) : I.Upholds w (Pure.pure a) Q :=
  ofStays (.pure h)

theorem stop {stop : Stop} : I.Upholds w (throw stop) Q :=
  ofStays .stop

theorem bind {e : Exec α} {f : α → Exec β} (he : I.Upholds w e Q)
    (hf : ∀ w', w ≤ w' → ∀ a, Q w' a → I.Upholds w' (f a) R) : I.Upholds w (e >>= f) R :=
  fun m hm => (he m hm).bind fun w' hle m' a hm' ha => hf w' hle a ha m' hm'

theorem get_bind {f : Machine → Exec β} (hf : ∀ m, I.At w m → I.Upholds w (f m) R) :
    I.Upholds w (get >>= f) R :=
  fun m hm => hf m hm m hm

theorem ite {c : Prop} [Decidable c] {e e' : Exec α} (he : I.Upholds w e Q)
    (he' : I.Upholds w e' Q) : I.Upholds w (if c then e else e') Q := by
  split
  · exact he
  · exact he'

theorem fail : I.Upholds w (fail s fault) Q :=
  stop

theorem fail_bind {f : α → Exec β} : I.Upholds w (Run.fail s fault >>= f) R :=
  ofStays .fail_bind

theorem evaluate {e : Eval α} (h : Makes w e Q) : I.Upholds w (evaluate s e) Q :=
  fun _ hm => (Ends.evaluate hm h).mono w.le_refl fun _ _ _ _ ha => ha.2

theorem attempt_bind {e : Exec α} {f : Except Stop α → Exec β} (he : I.Upholds w e Q)
    (hok : ∀ w', w ≤ w' → ∀ a, Q w' a → I.Upholds w' (f (.ok a)) R)
    (hstop : ∀ w', w ≤ w' → ∀ stop, I.Upholds w' (f (.error stop)) R) :
    I.Upholds w (attempt e >>= f) R := by
  intro m hm
  have hend := he m hm
  -- The state at an early stop is not given up, so the invariant has to hold there too.
  have hrun : (attempt e >>= f) m = f (e m).1 (e m).2 := rfl
  rw [hrun]
  rcases hem : e m with ⟨r, m'⟩
  rw [hem] at hend
  cases r with
  | ok a =>
    obtain ⟨w', hle, hm', ha⟩ := hend
    exact (hok w' hle a ha m' hm').mono hle fun _ _ _ _ h => h
  | error stop =>
    obtain ⟨w', hle, hm'⟩ := hend
    exact (hstop w' hle stop m' hm').mono hle fun _ _ _ _ h => h

end Upholds

theorem Stays.then {Q : α → Prop} {R : k.World → β → Prop} {e : Exec α} {f : α → Exec β}
    (he : I.Stays w e Q) (hf : ∀ a, Q a → I.Upholds w (f a) R) : I.Upholds w (e >>= f) R := by
  have hsame : I.Upholds w e fun w' a => w' = w ∧ Q a :=
    .ofStays fun m hm => ⟨(he m hm).1, fun a ha => ⟨rfl, (he m hm).2 a ha⟩⟩
  refine hsame.bind ?_
  rintro _ _ a ⟨rfl, ha⟩
  exact hf a ha

/-! ### Variables and frames -/

theorem lookup_stays (hname : name ∉ k.hidden) :
    I.Stays w (do orFail s ((← get).lookup s.frame name)) (Tame w) :=
  .get_bind fun _ hm => .orFail fun _ hv =>
    ((I.steady hm).fits.lookup hv).elim (fun h => h.tame hname) World.tame_builtinValue?

theorem change_stays {f : Machine → Array Frame} (h : ∀ m, I.At w m → w.Fitting
    { m with frames := f m }) :
    I.Stays w (modify fun m => { m with frames := f m }) fun _ => True :=
  fun m hm => ⟨I.frames hm (h m hm), fun _ _ => trivial⟩

theorem storeName_stays (h : w.Fits (name, v)) : I.Stays w (storeName s name v) fun _ => True :=
  .get_bind fun _ _ => change_stays fun _ hm => (I.steady hm).fits.changeVars _ h

theorem deleteName_stays : I.Stays w (deleteName s name) fun _ => True := by
  refine .get_bind fun m _ => ?_
  split
  · refine change_stays fun m hm => (I.steady hm).fits.modify _ fun fr hfr p hp => ?_
    exact hfr p (mem_filter.mp hp).1
  · exact .fail
  · exact .fail

theorem enterFrame_stays {f : Frame} (hf : ∀ p ∈ f.vars, w.Fits p) :
    I.Stays w (enterFrame f) fun _ => True :=
  fun _ hm => ⟨I.frames hm ((I.steady hm).fits.push hf), fun _ _ => trivial⟩

theorem leaveFrame_stays {n : Nat} : I.Stays w (leaveFrame n) fun _ => True := by
  intro m hm
  refine ⟨?_, fun _ _ => trivial⟩
  show I.At w (if n + 1 = m.frames.size && !(m.frames[n]?).any Frame.kept then
    { m with frames := m.frames.pop } else m)
  -- A frame that a routine still sees is kept.
  split
  · refine I.frames hm fun n fr hfr => ?_
    have hpop : m.frames.pop[n]? = some fr := hfr
    rw [Array.getElem?_pop] at hpop
    split at hpop
    · exact (I.steady hm).fits n fr hpop
    · cases hpop
  · exact hm

theorem newRoutine_upholds {code : Routine} {initials : List (Text × Value)}
    (hcode : code.obeys k.rules = true) (hinitials : TameEntries w initials) :
    I.Upholds w (newRoutine s code initials) Tame := by
  refine .get_bind fun _ _ => (change_stays fun m hm => ?_).then fun _ _ => .evaluate ?_
  · exact (I.steady hm).fits.modify _ fun _ hfr => hfr
  · refine (alloc_makes ?_).bind fun _ _ _ ha => .pure ha
    exact ⟨hcode, hinitials, nofun⟩

theorem beginCall_stays {a : Nat} (ha : w.Open a) :
    I.Stays w (beginCall s a) fun c? =>
      ∀ c, c? = some c → TameObject w (.call c) := by
  refine .get_bind fun m hm => ?_
  split
  · next c hc =>
    have htame : TameObject w (.call c) := (I.steady hm).sound.tame a _ hc ha
    -- The mark that the call was taken up is no part of what makes it tame.
    have hdone : TameObject w (.call { c with done := true }) := htame
    refine .ite .fail_bind ((Stays.evaluate (change_safe ha hdone)).bind fun _ _ => .pure ?_)
    rintro _ ⟨⟩
    exact htame
  · exact .pure nofun

/-! ### What is shown to the host -/

theorem reveal_stays {shown : Showing} (h : k.reveals shown = true) :
    I.Stays w (Run.reveal shown) fun _ => True :=
  fun _ hm => ⟨I.reveal hm h, fun _ _ => trivial⟩

theorem nextInput_stays {label : Text} : I.Stays w (nextInput s label) fun _ => True := by
  refine (reveal_stays rfl).bind fun _ _ => .get_bind fun m _ => ?_
  split
  · exact .stop
  · exact .bind (fun m hm => ⟨I.inputs hm, fun _ _ => trivial⟩)
      fun _ _ => .pure trivial

end Invariant

/-! ### The evaluators -/

theorem asksHost {k : Core} {e : Expr}
    (h : (e.isHost && name != "trace" && k.rules.asks name) = true) :
    AsksHost k.World e name := by
  simp only [Bool.and_eq_true, bne_iff_ne] at h
  refine ⟨h.1.1, id, fun act hact => ?_⟩
  obtain rfl := HostAct.word_of_ofName? hact
  exact ⟨fun htrace => h.1.2 (htrace ▸ rfl), h.2⟩

theorem reveals_of_shows {k : Core} {shown : Showing} (h : Shows k.World shown) :
    k.reveals shown = true := by
  cases shown with
  | write => exact h.2
  | trace => exact absurd rfl h.1
  | read | print => rfl

/-- The conditions of the rules. A report, or a statement that is allowed
whatever it mentions, is looked at by itself. -/
def grammar (k : Core) : Grammar k.World where
  expr _ e := e.obeys k.rules = true
  target _ e := e.obeysAsTarget k.rules = true
  node _ node := node.obeys k.rules = true
  handler h := obeysHandler k.rules h = true
  Special a := k.also (Expr.obeys k.rules) a = true ∨
    ∃ e line args, a = .evaluate e ∧ e.report? = some (line, args) ∧ k.reports line args = true
  Waits _ := True
  part := Expr.obeys_part
  owner h := by
    simp only [Expr.obeys, Bool.or_eq_true] at h
    exact h.imp_left asksHost
  store h := by
    simp only [Expr.obeys, Bool.and_eq_true] at h
    exact h.1
  await _ := trivial
  lambda h := by
    simp only [Expr.obeys, Bool.and_eq_true] at h
    have hparams := obeysParams_iff.mp h.1
    refine ⟨fun p hp => ⟨(hparams p hp).1, obeysOption_iff.mp (hparams p hp).2.1⟩, ?_⟩
    -- A lambda is a routine of one statement, which leaves it with the value.
    refine Bool.and_eq_true_iff.mpr ⟨h.1, obeysBlock_iff.mpr fun n hn => ?_⟩
    obtain rfl := mem_singleton.mp hn
    simp only [Node.obeys, Action.obeys, obeysOption, h.2, Bool.or_true]
  clause h hc := by
    simp only [Expr.obeys, Bool.and_eq_true] at h
    exact (obeysClauses_iff.mp h.2 _ hc).1
  name h := h
  targetPart := Expr.obeysAsTarget_part
  targetOwner h := by
    simp only [Expr.obeysAsTarget, Bool.or_eq_true] at h
    exact h.imp_left asksHost
  targetItem h := by
    simp only [Expr.obeysAsTarget, Bool.and_eq_true] at h
    exact h
  action h := by
    simp only [Node.obeys, Bool.or_eq_true] at h
    exact h.elim (.inl ∘ .inl) fun h => (Action.obeys_part h).imp_left .inr
  choice h := by
    simp only [Node.obeys, Bool.and_eq_true, obeysBlock_iff, and_assoc] at h
    exact h
  whileLoop h := by
    simp only [Node.obeys, Bool.and_eq_true, obeysBlock_iff, and_assoc] at h
    exact h
  forLoop h := by
    simp only [Node.obeys, Bool.and_eq_true, obeysBlock_iff, and_assoc] at h
    exact h
  guarded h := by
    simp only [Node.obeys, Bool.and_eq_true, obeysBlock_iff, obeysHandlers_iff, and_assoc] at h
    exact h
  handled {h} hh := by
    obtain ⟨line, kind, name, body⟩ := h
    simp only [obeysHandler, Bool.and_eq_true, obeysBlock_iff, obeysOption_iff, and_assoc,
      Option.all_eq_true] at hh
    exact hh
  define h := by simp [Node.obeys] at h
  params h p hp := by
    simp only [Admits, RoutineOf.obeys, Bool.and_eq_true] at h
    exact (obeysParams_iff.mp h.1 p hp).1
  call h _ := h
  later h := by
    simp only [Admits, RoutineOf.obeys, Bool.and_eq_true] at h
    exact obeysBlock_iff.mp h.2
  now h _ := by
    simp only [Admits, RoutineOf.obeys, Bool.and_eq_true] at h
    exact obeysBlock_iff.mp h.2

namespace Invariant

variable {k : Core}

/-- To keep an invariant is a property that the evaluators have. -/
def logic (I : k.Invariant) (x : Executable) : Logic k.World x where
  code := k.grammar
  Holds _ _ w _ e Q := I.Upholds w e Q
  Stops _ _ := True
  failed _ _ := trivial
  outOfFuel := trivial
  pure := .pure
  stop _ := .stop
  bind := .bind
  mono := .mono
  look _ hf := .get_bind fun m hm => hf m (I.steady hm).sound
  evaluate := .evaluate
  lookup h := .ofStays (lookup_stays (by simpa [grammar, Expr.obeys, rules] using h))
  host _ := .ofStays <| .get_bind fun _ hm => .orFail fun _ => (I.steady hm).fits.lookup_host
  storeName h := .ofStays (storeName_stays (World.fits_of_tame h))
  deleteName := .ofStays deleteName_stays
  enterFrame h := .ofStays (enterFrame_stays fun p hp => World.fits_of_tame (h p hp))
  leaveFrame := .ofStays leaveFrame_stays
  newRoutine := newRoutine_upholds
  beginCall h := .ofStays (beginCall_stays h)
  reveal h := .ofStays (reveal_stays (reveals_of_shows h))
  read := .ofStays nextInput_stays
  attempt he hok hstop := he.attempt_bind hok fun w' hle stop => hstop w' hle stop trivial
  ofStill h := h
  ofWaiting _ h := h
  ofWithin h := h
  enter h := h
  goTo _ h := h

/-- The evaluators keep an invariant, and so do reports of steps. -/
structure Evaluates (I : k.Invariant) (x : Executable) (fuel : Nat) : Prop
    extends (I.logic x).Evaluates fuel where
  report : ∀ (w : k.World) s e line args, e.report? = some (line, args) →
    k.reports line args = true → I.Upholds w (Run.eval x fuel s e) fun _ _ => True

namespace Evaluates

variable {I : k.Invariant} {x : Executable} {fuel : Nat}

theorem zero : I.Evaluates x 0 :=
  ⟨Logic.Evaluates.zero, fun _ _ _ _ _ _ _ => .stop⟩

variable (ih : I.Evaluates x fuel)
include ih

theorem succ (hreport : ∀ (w : k.World) s e line args, e.report? = some (line, args) →
      k.reports line args = true →
        I.Upholds w (eval x (fuel + 1) s e) fun _ _ => True)
    (halso : ∀ (w : k.World) s a, k.also (Expr.obeys k.rules) a = true →
      I.Upholds w (execAction x (fuel + 1) s a) TameFlow) : I.Evaluates x (fuel + 1) := by
  refine ⟨ih.toEvaluates.succ fun _ w s a ha => ?_, hreport⟩
  rcases ha with ha | ⟨e, line, args, rfl, he, hargs⟩
  · exact halso w s a ha
  · exact (ih.report w s e line args he hargs).bind fun _ _ _ _ => .pure trivial

theorem value {w : k.World} {e : Expr}
    (h : e.obeys k.rules = true) : I.Upholds w (eval x fuel s e) Tame :=
  Upholds.mono (ih.eval false w s e h) fun _ _ _ hv => hv.1

theorem obeying {w : k.World} {a : Action}
    (h : a.obeys k.rules = true) : I.Upholds w (execAction x fuel s a) TameFlow :=
  (Action.obeys_part h).elim (fun h => ih.special false w s a (.inr h)) fun h =>
    ih.action false w s a h.1 h.2

theorem body {w : k.World} {nodes : List Node}
    (h : obeysBlock k.rules nodes = true) : I.Upholds w (execBlock x fuel s nodes) TameFlow :=
  ih.block false w s nodes (obeysBlock_iff.mp h)

end Evaluates

end Invariant

end Core

end Pseudocode.Run
