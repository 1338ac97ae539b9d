import Pseudocode.Proofs.Run.Execution
import Pseudocode.Proofs.Script.Waiting

/-!
# The code in a heap

The heap holds routines: those that were defined and those of calls that
wait to be run. Only a definition brings a new routine into the heap and
only a call makes a call of it. So a condition on routines that all
definitions meet is met by all that a run can call.

* `Heap.HasCode`: the routines of a heap.
* `Holding`: the realm in which everything may be known and the routines
  meet a condition.
* `Holding.Keeps`: a computation keeps this, and its result has a property.
* `anyCode`, `placedCode`: no condition, and the one that code waits only
  where it may.
-/

namespace Pseudocode.Run

open Text Script Realm
open Regime (Sound)

def Object.code? : Object → Option (Bool × Routine)
  | .closure c => some (false, c.code)
  | .call c => some (true, c.target.code)
  | .cells _ | .entries _ => none

def Heap.HasCode (h : Heap) (p : Bool × Routine) : Prop :=
  ∃ (a : Nat) (o : Object), h.objects[a]? = some o ∧ o.code? = some p

theorem Heap.not_hasCode_empty {p : Bool × Routine} : ¬ Heap.HasCode {} p := by
  rintro ⟨a, o, ho, -⟩
  simp at ho

structure Holding (P : Bool → Routine → Prop) where

namespace Holding

variable {P : Bool → Routine → Prop} {w w' : Holding P}

instance : Realm (Holding P) where
  le _ _ := True
  le_refl _ := trivial
  le_trans _ _ := trivial
  Open _ _ := True
  open_mono _ _ := trivial
  Binds _ := True
  Admits := P
  Host := True
  Act _ := True
  act_of_host _ _ := trivial

theorem tame (w : Holding P) (v : Value) : Tame w v := by
  induction v with
  | method owner name ih => exact ih
  | reading label ih => exact ih
  | _ => trivial

theorem tameEntries (w : Holding P) (ps : List (Text × Value)) : TameEntries w ps :=
  fun p _ => ⟨trivial, w.tame p.2⟩

theorem tameObject_iff {o : Object} :
    TameObject w o ↔ ∀ isCall r, o.code? = some (isCall, r) → P isCall r := by
  have hclosure : ∀ {isCall c}, P isCall c.code → TameClosure w isCall c := fun h =>
    ⟨h, w.tameEntries _, fun p _ => w.tame p.2⟩
  cases o with
  | cells => exact ⟨fun _ _ _ => nofun, fun _ v _ => w.tame v⟩
  | entries => exact ⟨fun _ _ _ => nofun, fun _ p _ => ⟨w.tame p.1, w.tame p.2⟩⟩
  | closure c =>
    refine ⟨?_, fun h => hclosure (h false c.code rfl)⟩
    rintro h _ _ ⟨⟩
    exact h.admitted
  | call c =>
    refine ⟨?_, fun h => ⟨hclosure (h true c.target.code rfl), w.tameEntries _⟩⟩
    rintro h _ _ ⟨⟩
    exact h.1.admitted

instance : Regime (Holding P) where
  Sound _ h := ∀ isCall r, h.HasCode (isCall, r) → P isCall r
  tame {_ _ a o} hs ho _ := tameObject_iff.mpr fun isCall r hr => hs isCall r ⟨a, o, ho, hr⟩
  push {w h o} hs ho := by
    refine ⟨w, trivial, fun isCall r ⟨a, o', ho', hr⟩ => ?_, trivial⟩
    rw [Array.getElem?_push] at ho'
    split at ho'
    · cases ho'
      exact tameObject_iff.mp ho isCall r hr
    · exact hs isCall r ⟨a, o', ho', hr⟩
  replace {w h a objects} hs _ _ hother ho isCall r := by
    rintro ⟨a', o, ho', hr⟩
    by_cases heq : a' = a
    · subst heq
      exact tameObject_iff.mp (ho o ho') isCall r hr
    · exact hs isCall r ⟨a', o, (hother a' heq).symm.trans ho', hr⟩
  mark _ hs := hs

def Keeps (w : Holding P) {α : Type} (e : Exec α) (Q : α → Prop) : Prop :=
  ∀ m, Sound w m.heap → Sound w (e m).2.heap ∧ ∀ a, (e m).1 = .ok a → Q a

namespace Keeps

variable {α β : Type} {Q : α → Prop} {R : β → Prop}
variable {e : Exec α} {s : Site}

theorem pure {a : α} (h : Q a) : w.Keeps (Pure.pure a) Q := by
  refine fun m hm => ⟨hm, fun b hb => ?_⟩
  cases hb
  exact h

theorem stop {stop : Stop} : w.Keeps (throw stop) Q :=
  fun _ hm => ⟨hm, nofun⟩

theorem mono {Q' : α → Prop} (h : w.Keeps e Q) (hQ : ∀ a, Q a → Q' a) : w.Keeps e Q' :=
  fun m hm => ⟨(h m hm).1, fun a ha => hQ a ((h m hm).2 a ha)⟩

theorem bind {f : α → Exec β} (he : w.Keeps e Q) (hf : ∀ a, Q a → w.Keeps (f a) R) :
    w.Keeps (e >>= f) R := by
  intro m hm
  obtain ⟨hm', hQ⟩ := he m hm
  rw [bind_apply]
  rcases hem : e m with ⟨r, m'⟩
  rw [hem] at hm' hQ
  cases r with
  | error => exact ⟨hm', nofun⟩
  | ok a => exact hf a (hQ a rfl) m' hm'

theorem look {f : Machine → Exec β} (hf : ∀ m, Sound w m.heap → w.Keeps (f m) R) :
    w.Keeps (get >>= f) R :=
  fun m hm => hf m hm m hm

theorem evaluate {e : Eval α} {Q : Holding P → α → Prop} (h : Makes w e Q) :
    w.Keeps (Run.evaluate s e) (Q w) := by
  intro m hm
  obtain ⟨w', -, hm', hQ⟩ := h m.heap hm
  exact ⟨hm', fun a ha => hQ a (eq_ok_of_mapError ha)⟩

theorem ofHeap (h : ∀ m, (e m).2.heap = m.heap) : w.Keeps e fun _ => True :=
  fun m hm => ⟨h m ▸ hm, fun _ _ => trivial⟩

theorem attempt {f : Except Stop α → Exec β} (he : w.Keeps e Q)
    (hok : ∀ a, Q a → w.Keeps (f (.ok a)) R) (hstop : ∀ stop, w.Keeps (f (.error stop)) R) :
    w.Keeps (Run.attempt e >>= f) R := by
  intro m hm
  obtain ⟨hm', hQ⟩ := he m hm
  have hrun : (Run.attempt e >>= f) m = f (e m).1 (e m).2 := rfl
  rw [hrun]
  rcases hem : (e m).1 with stop | a
  · exact hstop stop _ hm'
  · exact hok a (hQ a hem) _ hm'

theorem newRoutine {code : Routine} {initials : List (Text × Value)}
    (h : P false code) : w.Keeps (newRoutine s code initials) (Tame w) := by
  refine .look fun m _ => (ofHeap fun _ => rfl).bind fun _ _ => evaluate ?_
  refine (alloc_makes (tameObject_iff.mpr ?_)).bind fun _ _ _ ha => .pure ha
  rintro isCall r ⟨⟩
  exact h

theorem beginCall {a : Nat} :
    w.Keeps (beginCall s a) fun c? => ∀ c, c? = some c → TameObject w (.call c) := by
  refine .look fun m hm => ?_
  split
  · next c hc =>
    have htame : TameObject w (.call c) := Regime.tame hm hc trivial
    -- The mark that the call was taken up says nothing about its routine.
    have hdone : TameObject w (.call { c with done := true }) := htame
    split
    · exact .bind (Q := fun _ => False) .stop fun _ h => h.elim
    · refine (evaluate (Q := fun _ _ => True) (.ofSafe (change_safe trivial hdone))).bind
        fun _ _ => .pure ?_
      rintro _ ⟨⟩
      exact htame
  · exact .pure nofun

end Keeps

end Holding

/-! ### Conditions on code -/

def anyCode : Grammar (Holding fun _ _ => True) where
  expr _ _ := True
  target _ _ := True
  node _ _ := True
  handler _ := True
  Special _ := False
  Waits _ := True
  part _ _ := trivial
  owner _ := .inr trivial
  store _ := trivial
  await _ := trivial
  lambda _ := ⟨fun _ _ => ⟨trivial, fun _ _ => trivial⟩, trivial⟩
  clause _ _ := trivial
  name _ := trivial
  targetPart _ _ := trivial
  targetOwner _ := .inr trivial
  targetItem _ := ⟨trivial, trivial⟩
  action _ := .inr ⟨fun _ _ => trivial, fun _ _ => trivial⟩
  choice _ := ⟨trivial, fun _ _ => trivial, fun _ _ => trivial⟩
  whileLoop _ := ⟨trivial, fun _ _ => trivial, fun _ _ => trivial⟩
  forLoop _ := ⟨trivial, trivial, fun _ _ => trivial, fun _ _ => trivial⟩
  guarded _ := ⟨fun _ _ => trivial, fun _ _ => trivial, fun _ _ => trivial, fun _ _ => trivial⟩
  handled _ := ⟨fun _ _ => trivial, fun _ _ => trivial, fun _ _ => trivial⟩
  define _ := ⟨fun _ _ => ⟨trivial, fun _ _ => trivial⟩, fun _ _ => trivial, trivial, trivial⟩
  params _ _ _ := trivial
  call _ _ := trivial
  later _ _ _ := trivial
  now _ _ _ _ := trivial

/-- A routine waits only where it may; what is made to be waited for may
wait anywhere in its statements. -/
def Placed (isCall : Bool) (r : Routine) : Prop :=
  placedBlock false (isCall || r.isAsync) r.body = true

def placedCode : Grammar (Holding Placed) where
  expr may e := e.placed false may = true
  target may e := e.placed false may = true
  node may node := node.placed false may = true
  handler h := placedHandler false false h = true
  Special _ := False
  Waits may := may = true
  part := Expr.placed_part
  owner h := .inr (by simpa only [Expr.placed] using h)
  store _ := trivial
  await h := by
    simp only [Expr.placed, Bool.and_eq_true] at h
    exact h.1
  lambda h := by
    simp only [Expr.placed, Bool.and_eq_true] at h
    refine ⟨fun p hp => ⟨trivial, placedOption_iff.mp (placedParams_iff.mp h.1 p hp).1⟩, ?_⟩
    refine placedBlock_iff.mpr fun n hn => ?_
    obtain rfl := List.mem_singleton.mp hn
    exact h.2
  clause h hc := by
    simp only [Expr.placed, Bool.and_eq_true] at h
    exact (placedClauses_iff.mp h.2 _ hc).1
  name _ := trivial
  targetPart {_ e p} h hp := by
    refine Expr.placed_part h ?_
    cases e with
    | located | spread | tuple | list => exact hp
    | _ => cases hp
  targetOwner h := .inr (by simpa only [Expr.placed] using h)
  targetItem h := by
    simp only [Expr.placed, Bool.and_eq_true] at h
    exact h
  action h := by
    exact .inr (Action.placed_part h)
  choice h := by
    simp only [Node.placed, Bool.and_eq_true, placedBlock_iff, and_assoc] at h
    exact h
  whileLoop h := by
    simp only [Node.placed, Bool.and_eq_true, placedBlock_iff, and_assoc] at h
    exact h
  forLoop h := by
    simp only [Node.placed, Bool.and_eq_true, placedBlock_iff, and_assoc] at h
    exact h
  guarded h := by
    simp only [Node.placed, Bool.and_eq_true, placedBlock_iff, placedHandlers_iff, and_assoc] at h
    exact h
  handled {h} hh := by
    obtain ⟨line, kind, name, body⟩ := h
    simp only [placedHandler, Bool.and_eq_true, placedBlock_iff, placedOption_iff] at hh
    exact ⟨hh.1, fun _ _ => trivial, hh.2⟩
  define {_ _ r} h := by
    simp only [Node.placed, RoutineOf.placedAt_iff, placedParams_iff, placedOption_iff] at h
    refine ⟨fun p hp => ⟨trivial, (h.1 p hp).1⟩, fun e he => ?_, h.2.2, trivial⟩
    rcases List.mem_append.mp he with he | he
    · obtain ⟨p, hp, hnote⟩ := List.mem_filterMap.mp he
      exact (h.1 p hp).2 e hnote
    · exact h.2.1 e (Option.mem_toList.mp he)
  params _ _ _ := trivial
  call {r} h hasync := by
    have hbody : placedBlock false r.isAsync r.body = true := h
    rwa [hasync] at hbody
  later h := placedBlock_iff.mp h
  now {r} h hasync := by
    have hbody : placedBlock false r.isAsync r.body = true := h
    rw [hasync] at hbody
    exact placedBlock_iff.mp hbody

end Pseudocode.Run
