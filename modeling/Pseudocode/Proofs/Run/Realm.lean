import Pseudocode.Proofs.Results
import Pseudocode.Run.Eval

/-!
# Values that code may know

Code does to a run what it can reach: the objects that its values lead to,
the variables that it may bind and the routines that it can call. A realm
says which those are. What may be known depends on how far the run has
come, and this is what a world of the realm says. A value that may be known
in one world may be known in every later one.

* `Realm`: worlds, and what code may know in each.
* `Realm.Tame`: nothing else can be reached from a value by itself.
* `Regime`: heaps in which the known objects hold only tame values, and what
  changes of a heap keep this.
* `Realm.Safe`: an operation makes no object and keeps the heap sound, and
  its result has a property. `Realm.Makes` is the same for an operation that
  may make objects: it leads to a later world. Both have one rule for each
  way to put operations together.
-/

namespace Pseudocode.Run

open Text Script Eval

variable {a : Nat} {c : Prop} {fault : Fault}
variable {o : Object}

theorem Eval.tryCatch_apply {α : Type} (e : Eval α) (f : Fault → Eval α) (h : Heap) :
    (tryCatch e f) h = match e h with
      | (.ok a, h') => (.ok a, h')
      | (.error fault, h') => f fault h' := by
  simp only [tryCatch, tryCatchThe, MonadExceptOf.tryCatch, ExceptT.tryCatch,
    ExceptT.mk, bind, StateT.bind]
  rcases e h with ⟨r, h'⟩
  cases r <;> rfl

class Realm (W : Type) extends LE W where
  le_refl : ∀ w : W, w ≤ w
  le_trans : ∀ {w w' w'' : W}, w ≤ w' → w' ≤ w'' → w ≤ w''
  /-- The object at an address may be known. -/
  Open : W → Nat → Prop
  open_mono : ∀ {w w' : W} {a : Nat}, Open w a → w ≤ w' → Open w' a
  /-- A variable may have the name. -/
  Binds : Text → Prop
  /-- A routine may be defined, or a call of it made. -/
  Admits : Bool → Routine → Prop
  Host : Prop
  /-- An act of the host may be known. -/
  Act : HostAct → Prop
  act_of_host : Host → ∀ act, Act act

namespace Realm

section

variable {W : Type} [Realm W]

def Tame (w : W) : Value → Prop
  | .list a | .tuple a | .set a | .dict a | .slice a | .stream _ a | .routine a | .pending a
  | .fault _ a => Open w a
  | .method owner _ => Tame w owner
  | .reading label => Tame w label
  | .host => Host W
  | .hostAct act => Act W act
  | _ => True

abbrev AllTame (w : W) (vs : List Value) : Prop :=
  ∀ v ∈ vs, Tame w v

/-- The keys and the values of some entries are tame. -/
abbrev TamePairs (w : W) (ps : List (Value × Value)) : Prop :=
  ∀ p ∈ ps, Tame w p.1 ∧ Tame w p.2

/-- A tame value under a name that a variable may have. -/
def TameEntry (w : W) (p : Text × Value) : Prop :=
  Binds W p.1 ∧ Tame w p.2

abbrev TameEntries (w : W) (ps : List (Text × Value)) : Prop :=
  ∀ p ∈ ps, TameEntry w p

/-- A routine that can be called without harm. -/
structure TameClosure (w : W) (isCall : Bool) (c : Closure) : Prop where
  admitted : Admits W isCall c.code
  initials : TameEntries w c.initials
  attributes : ∀ p ∈ c.attributes, Tame w p.2

def TameObject (w : W) : Object → Prop
  | .cells items => ∀ v ∈ items, Tame w v
  | .entries pairs => TamePairs w pairs
  | .closure c => TameClosure w false c
  | .call c => TameClosure w true c.target ∧ TameEntries w c.bound

variable {w w' : W}

theorem Tame.mono {v : Value} (hv : Tame w v) (h : w ≤ w') : Tame w' v := by
  induction v with
  | method owner name ih => exact ih hv
  | reading label ih => exact ih hv
  | list | tuple | set | dict | slice | stream | routine | pending | fault => exact open_mono hv h
  | _ => exact hv

theorem AllTame.mono {vs : List Value} (h : AllTame w vs) (hle : w ≤ w') : AllTame w' vs :=
  fun v hv => (h v hv).mono hle

theorem TamePairs.mono {ps : List (Value × Value)} (h : TamePairs w ps) (hle : w ≤ w') :
    TamePairs w' ps :=
  fun p hp => ⟨(h p hp).1.mono hle, (h p hp).2.mono hle⟩

theorem TameEntry.mono {p : Text × Value} (hp : TameEntry w p) (h : w ≤ w') : TameEntry w' p :=
  ⟨hp.1, hp.2.mono h⟩

theorem TameClosure.mono {isCall : Bool} {c : Closure} (hc : TameClosure w isCall c)
    (h : w ≤ w') : TameClosure w' isCall c :=
  ⟨hc.admitted, fun p hp => (hc.initials p hp).mono h, fun p hp => (hc.attributes p hp).mono h⟩

theorem TameObject.mono (ho : TameObject w o) (h : w ≤ w') : TameObject w' o := by
  cases o with
  | cells => exact fun v hv => (ho v hv).mono h
  | entries => exact TamePairs.mono ho h
  | closure => exact TameClosure.mono ho h
  | call => exact ⟨ho.1.mono h, fun p hp => (ho.2 p hp).mono h⟩

end

end Realm

open Realm

class Regime (W : Type) extends Realm W where
  Sound : W → Heap → Prop
  tame : ∀ {w : W} {h : Heap} {a : Nat} {o : Object}, Sound w h → h.objects[a]? = some o →
    Open w a → TameObject w o
  /-- A tame object can be made. -/
  push : ∀ {w : W} {h : Heap} {o : Object}, Sound w h → TameObject w o →
    ∃ w', w ≤ w' ∧ Sound w' { h with objects := h.objects.push o } ∧ Open w' h.objects.size
  /-- A known object can be replaced by a tame one. -/
  replace : ∀ {w : W} {h : Heap} {a : Nat} {objects : Array Object}, Sound w h → Open w a →
    objects.size = h.objects.size → (∀ a', a' ≠ a → objects[a']? = h.objects[a']?) →
      (∀ o, objects[a]? = some o → TameObject w o) → Sound w { h with objects }
  mark : ∀ {w : W} {h : Heap} (marks : Nat), Sound w h → Sound w { h with marks }

namespace Realm

open Regime (Sound)

variable {W : Type} [Regime W] {w : W} {α β : Type}
variable {e : Eval α} {f : α → Eval β} {xs : List α}

def Safe (w : W) (e : Eval α) (Q : α → Prop) : Prop :=
  ∀ h, Sound w h → Sound w (e h).2 ∧ ∀ a, (e h).1 = .ok a → Q a

/-- An operation leads from sound heaps to sound heaps of later worlds,
and its result has a property. -/
def Makes (w : W) (e : Eval α) (Q : W → α → Prop) : Prop :=
  ∀ h, Sound w h → ∃ w', w ≤ w' ∧ Sound w' (e h).2 ∧ ∀ a, (e h).1 = .ok a → Q w' a

/-! ### Operations that make no object -/

namespace Safe

variable {Q : α → Prop} {R : β → Prop}

theorem mono {Q' : α → Prop} (h : Safe w e Q) (hQ : ∀ a, Q a → Q' a) : Safe w e Q' :=
  fun m hm => ⟨(h m hm).1, fun a ha => hQ a ((h m hm).2 a ha)⟩

theorem and {Q' : α → Prop} (h : Safe w e Q) (h' : Safe w e Q') : Safe w e fun a => Q a ∧ Q' a :=
  fun m hm => ⟨(h m hm).1, fun a ha => ⟨(h m hm).2 a ha, (h' m hm).2 a ha⟩⟩

theorem pure {a : α} (h : Q a) : Safe w (Pure.pure a) Q := by
  intro m hm
  refine ⟨hm, fun b hb => ?_⟩
  cases hb
  exact h

theorem fail : Safe w (throw fault) Q :=
  fun _ hm => ⟨hm, fun _ h => nomatch h⟩

theorem bind (he : Safe w e Q) (hf : ∀ a, Q a → Safe w (f a) R) : Safe w (e >>= f) R := by
  intro m hm
  obtain ⟨hm', hQ⟩ := he m hm
  rw [bind_apply]
  rcases hem : e m with ⟨r, m'⟩
  rw [hem] at hm' hQ
  cases r with
  | error => exact ⟨hm', fun _ h => nomatch h⟩
  | ok a => exact hf a (hQ a rfl) m' hm'

theorem get_bind {f : Heap → Eval β} (hf : ∀ h, Sound w h → Safe w (f h) R) :
    Safe w (get >>= f) R :=
  fun m hm => hf m hm m hm

theorem ofExcept {e : Except Fault α} (h : ∀ a, e = .ok a → Q a) : Safe w (Eval.ofExcept e) Q :=
  fun _ hm => ⟨hm, h⟩

theorem lift {e : Except Fault α} (h : ∀ a, e = .ok a → Q a) : Safe w (liftM e) Q :=
  fun _ hm => ⟨hm, h⟩

theorem tryCatch {f : Fault → Eval α} (he : Safe w e Q)
    (hf : ∀ fault, Safe w (f fault) Q) : Safe w (tryCatch e f) Q := by
  intro m hm
  obtain ⟨hm', hQ⟩ := he m hm
  rw [tryCatch_apply]
  rcases hem : e m with ⟨r, m'⟩
  rw [hem] at hm' hQ
  cases r with
  | error fault => exact hf fault m' hm'
  | ok => exact ⟨hm', hQ⟩

theorem ite [Decidable c] {e' : Eval α} (he : Safe w e Q) (he' : Safe w e' Q) :
    Safe w (if c then e else e') Q := by
  split
  · exact he
  · exact he'

theorem fail_bind {f : β → Eval α} : Safe w (throw fault >>= f) Q :=
  bind (Q := fun _ => False) fail fun _ h => h.elim

theorem guard [Decidable c] {f : PUnit → Eval α}
    (hf : Safe w (f ()) Q) : Safe w (if c then throw fault >>= f else f ()) Q :=
  .ite fail_bind hf

theorem any {e : Except Fault α} : Safe w (Eval.ofExcept e) fun _ => True :=
  ofExcept fun _ _ => trivial

theorem mapM (hf : ∀ a ∈ xs, Safe w (f a) R) : Safe w (xs.mapM f) fun ys => ∀ b ∈ ys, R b := by
  induction xs with
  | nil => exact pure (by simp)
  | cons x rest ih =>
    rw [List.mapM_cons]
    refine bind (hf x (by simp)) fun b hb => ?_
    refine bind (ih fun a ha => hf a (by simp [ha])) fun bs hbs => ?_
    exact pure (List.forall_mem_cons.mpr ⟨hb, hbs⟩)

theorem forIn {f : α → PUnit → Eval (ForInStep PUnit)}
    (hf : ∀ a ∈ xs, Safe w (f a ()) fun _ => True) :
    Safe w (ForIn.forIn xs () f) fun _ => True := by
  induction xs with
  | nil => exact pure trivial
  | cons x rest ih =>
    rw [List.forIn_cons]
    refine bind (hf x (by simp)) fun step _ => ?_
    cases step with
    | done => exact pure trivial
    | yield => exact ih fun a ha => hf a (by simp [ha])

end Safe

/-! ### Operations that may make objects -/

namespace Makes

variable {Q : W → α → Prop} {R : W → β → Prop}

theorem mono {Q' : W → α → Prop} (h : Makes w e Q)
    (hQ : ∀ w' a, w ≤ w' → Q w' a → Q' w' a) : Makes w e Q' := by
  intro m hm
  obtain ⟨w', hle, hm', hok⟩ := h m hm
  exact ⟨w', hle, hm', fun a ha => hQ w' a hle (hok a ha)⟩

theorem ofSafe (h : Safe w e (Q w)) : Makes w e Q :=
  fun m hm => ⟨w, le_refl w, (h m hm).1, (h m hm).2⟩

theorem pure {a : α} (h : Q w a) : Makes w (Pure.pure a) Q :=
  ofSafe (.pure h)

theorem fail : Makes w (throw fault) Q :=
  ofSafe .fail

theorem bind (he : Makes w e Q)
    (hf : ∀ w', w ≤ w' → ∀ a, Q w' a → Makes w' (f a) R) : Makes w (e >>= f) R := by
  intro m hm
  obtain ⟨w', hle, hm', hQ⟩ := he m hm
  rw [bind_apply]
  rcases hem : e m with ⟨r, m'⟩
  rw [hem] at hm' hQ
  cases r with
  | error => exact ⟨w', hle, hm', nofun⟩
  | ok a =>
    obtain ⟨w'', hle', hm'', hok⟩ := hf w' hle a (hQ a rfl) m' hm'
    exact ⟨w'', le_trans hle hle', hm'', hok⟩

theorem get_bind {f : Heap → Eval β} (hf : ∀ h, Sound w h → Makes w (f h) R) :
    Makes w (get >>= f) R :=
  fun m hm => hf m hm m hm

theorem ite [Decidable c] {e' : Eval α} (he : Makes w e Q) (he' : Makes w e' Q) :
    Makes w (if c then e else e') Q := by
  split
  · exact he
  · exact he'

theorem fail_bind {f : β → Eval α} : Makes w (throw fault >>= f) Q :=
  ofSafe .fail_bind

theorem guard [Decidable c] {f : PUnit → Eval α}
    (hf : Makes w (f ()) Q) : Makes w (if c then throw fault >>= f else f ()) Q :=
  .ite fail_bind hf

theorem mapM (hf : ∀ w', w ≤ w' → ∀ a ∈ xs, Makes w' (f a) R)
    (hmono : ∀ w' w'' b, w' ≤ w'' → R w' b → R w'' b) :
    Makes w (xs.mapM f) fun w' ys => ∀ b ∈ ys, R w' b := by
  induction xs generalizing w with
  | nil => exact pure (by simp)
  | cons x rest ih =>
    rw [List.mapM_cons]
    refine bind (hf w (le_refl w) x (by simp)) fun w₁ h₁ b hb => ?_
    refine bind (ih fun w' hw' a ha => hf w' (le_trans h₁ hw') a (by simp [ha])) ?_
    intro w₂ h₂ bs hbs
    exact pure (List.forall_mem_cons.mpr ⟨hmono _ _ b h₂ hb, hbs⟩)

theorem foldlM {f : β → α → Eval β} {b : β} (hb : R w b)
    (hf : ∀ w', w ≤ w' → ∀ b, R w' b → ∀ a ∈ xs, Makes w' (f b a) R) :
    Makes w (xs.foldlM f b) R := by
  induction xs generalizing w b with
  | nil => exact pure hb
  | cons x rest ih =>
    refine bind (hf w (le_refl w) b hb x (by simp)) fun w₁ h₁ c hc => ih hc ?_
    exact fun w' hw' b hb a ha => hf w' (le_trans h₁ hw') b hb a (by simp [ha])

end Makes

theorem Safe.then {Q : α → Prop} {R : W → β → Prop} (he : Safe w e Q)
    (hf : ∀ a, Q a → Makes w (f a) R) : Makes w (e >>= f) R := by
  have hsame : Makes w e fun w' a => w' = w ∧ Q a := .ofSafe (he.mono fun _ ha => ⟨rfl, ha⟩)
  refine hsame.bind ?_
  rintro _ _ a ⟨rfl, ha⟩
  exact hf a ha

/-! ### The heap -/

section Heap

variable {h : Heap}

theorem sound_cells (hs : Sound w h) (ha : Open w a) : ∀ v ∈ h.cells a, Tame w v := by
  unfold Heap.cells
  split
  · next items hitems => exact Regime.tame hs hitems ha
  · simp

theorem sound_entries (hs : Sound w h) (ha : Open w a) : TamePairs w (h.entries a) := by
  unfold Heap.entries
  split
  · next pairs hpairs => exact Regime.tame hs hpairs ha
  · simp

theorem sound_closure? (hs : Sound w h) (ha : Open w a) {c : Closure}
    (hc : h.closure? a = some c) : TameClosure w false c := by
  unfold Heap.closure? at hc
  split at hc
  · next c' hc' =>
    cases hc
    exact Regime.tame hs hc' ha
  · exact absurd hc (by simp)

end Heap

theorem alloc_makes (ho : TameObject w o) : Makes w (alloc o) Open := by
  intro h hs
  obtain ⟨w', hle, hs', hopen⟩ := Regime.push hs ho
  refine ⟨w', hle, hs', fun a ha => ?_⟩
  obtain rfl : h.objects.size = a := Except.ok.inj ha
  exact hopen

theorem change_safe (ha : Open w a) (ho : TameObject w o) :
    Safe w (change a o) fun _ => True := by
  intro h hs
  refine ⟨?_, fun _ _ => trivial⟩
  refine Regime.replace hs ha (by simp) (fun a' hne => ?_) fun o' ho' => ?_
  · rw [Array.getElem?_setIfInBounds, if_neg hne.symm]
  · rw [Array.getElem?_setIfInBounds, if_pos rfl] at ho'
    split at ho'
    · cases ho'
      exact ho
    · cases ho'

theorem modify_safe {f : Object → Object} (ha : Open w a)
    (hf : ∀ o, TameObject w o → TameObject w (f o)) :
    Safe w (modify fun h => { h with objects := h.objects.modify a f }) fun _ => True := by
  intro h hs
  refine ⟨?_, fun _ _ => trivial⟩
  refine Regime.replace hs ha (by simp) (fun a' hne => ?_) fun o' ho' => ?_
  · rw [Array.getElem?_modify, if_neg hne.symm]
  · rw [Array.getElem?_modify, if_pos rfl] at ho'
    obtain ⟨o, ho, rfl⟩ := Option.map_eq_some_iff.mp ho'
    exact hf o (Regime.tame hs ho ha)

theorem newMark_safe : Safe w newMark fun _ => True :=
  fun _ hs => ⟨Regime.mark _ hs, fun _ _ => trivial⟩

theorem newList_makes {items : Array Value} (h : ∀ v ∈ items, Tame w v) :
    Makes w (newList items) Tame :=
  (alloc_makes (o := .cells items) h).bind fun _ _ _ ha => .pure ha

theorem newTuple_makes {items : List Value} (h : ∀ v ∈ items, Tame w v) :
    Makes w (newTuple items) Tame :=
  (alloc_makes (by simpa [TameObject] using h)).bind
    fun _ _ _ ha => .pure ha

theorem newDict_makes {entries : List (Value × Value)}
    (h : ∀ p ∈ entries, Tame w p.1 ∧ Tame w p.2) : Makes w (newDict entries) Tame :=
  (alloc_makes (o := .entries entries) h).bind fun _ _ _ ha => .pure ha

theorem newStream_makes {type : Text} {items : List Value} (h : ∀ v ∈ items, Tame w v) :
    Makes w (newStream type items) Tame :=
  (alloc_makes (by simpa [TameObject] using h)).bind
    fun _ _ _ ha => .pure ha

theorem ofFloat_safe {x : Float} : Safe w (ofFloat x) (Tame w) := by
  exact .ite (newMark_safe.bind fun _ _ => .pure trivial) (.pure trivial)

theorem cells_safe (ha : Open w a) : Safe w (cells a) fun items => ∀ v ∈ items, Tame w v :=
  .get_bind fun _ hs => .pure (sound_cells hs ha)

end Realm

end Pseudocode.Run
