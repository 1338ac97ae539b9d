import Pseudocode.Proofs.Run.Calls
import Pseudocode.Proofs.Script.Rules

/-!
# Values that give no access to the core

The core of a running script is a few objects: the routine that reports a
step, the main routine and the calls that have begun. Code outside the core
may know all objects but these, and must keep to some rules.

A run may also have objects that only its log knows: the snapshots that
it has shown. They join the core as they are made, so what is tame depends
on how far the run has come. This is what a world says. A value that was
tame in one world is tame in every later one, as the objects that join the
core are new ones.

* `Core`: the addresses of the core, the names that stand for it, and the
  rules for the code around it.
* `Core.World`: the number of objects, if they are counted, and those
  that only the log knows.
* `Core.World.Sound`: the objects outside the core are tame. Worlds are a
  regime with these heaps.
-/

namespace Pseudocode.Run

open Text Script Realm

/-- The core of a running script. Its first object is the script's own
routine. -/
structure Core where
  /-- The addresses of its objects. -/
  addresses : List Nat
  /-- The name of the script's own routine. -/
  entryPoint : Text
  /-- The address of the main routine. -/
  mainAt : Nat
  lines : List Nat
  /-- The routine that reports a step, and its address. -/
  tracer : Closure
  tracerAt : Nat
  /-- Further names that stand for the core, with their values. -/
  extra : List (Text × List Value)
  /-- Names of variables of the core whose values may be many. -/
  loose : List Text
  /-- The values that these variables may have. -/
  admits : Value → Prop := fun _ => True
  /-- Names that no variable has. -/
  unbound : List Text
  /-- The reports that code outside the core may make. -/
  reports : Nat → List Expr → Bool
  asks : Text → Bool := fun _ => true
  /-- The further statements that may stand in it. -/
  also : (Expr → Bool) → Action → Bool := fun _ _ => false

/-- The name by which a script asks for an act of the host. -/
def HostAct.word : HostAct → Text
  | .write => "write"
  | .trace => "trace"
  | .read => "read"

theorem HostAct.word_of_ofName? {name : Text} {act : HostAct}
    (h : HostAct.ofName? name = some act) : act.word = name := by
  unfold HostAct.ofName? at h
  repeat' split at h
  all_goals cases h
  all_goals exact Eq.symm ‹_›

namespace Core

section

variable (k : Core)

/-- The names that stand for the core, with the values that each may
have. -/
def bindings : List (Text × List Value) :=
  ("io", [.host]) :: ("__trace", [.routine k.tracerAt]) :: ("__main", [.routine k.mainAt]) ::
    ("hook", [.hostAct .trace]) :: ("getattr", []) :: (k.entryPoint, [.routine 0]) :: k.extra

def hidden : List Text :=
  k.bindings.map Prod.fst ++ k.loose

/-- What the code outside the core keeps to. -/
def rules : Rules :=
  ⟨k.hidden, k.unbound, k.reports, k.asks, k.also⟩

end

/-- How far a run with some core has come. -/
structure World (k : Core) where
  /-- The number of objects, if they are counted. -/
  size : Option Nat
  /-- The objects that only the log knows, with their addresses. -/
  shown : List (Nat × Object)

/-- The world in which objects are not counted. -/
def free (k : Core) : k.World :=
  ⟨none, []⟩

namespace World

section

variable {k : Core} (w : k.World)

/-- The address is outside the core, and of an object if these are
counted. -/
structure Open (a : Nat) : Prop where
  apart : a ∉ k.addresses
  inside : ∀ n, w.size = some n → a < n
  unseen : ∀ o, (a, o) ∉ w.shown

/-- A world is followed by another one: the objects that have joined the
core are new. Objects that are not counted never join it. -/
structure Le (w w' : k.World) : Prop where
  free : w.size = none → w' = w
  size : ∀ n, w.size = some n → ∃ n', w'.size = some n' ∧ n ≤ n'
  shown : ∀ p ∈ w.shown, p ∈ w'.shown
  new : ∀ p ∈ w'.shown, p ∈ w.shown ∨ ∀ n, w.size = some n → n ≤ p.1

instance : LE k.World := ⟨Le⟩

end

variable {k : Core} {w w' : k.World}

/-! ### Later worlds -/

protected theorem le_refl (w : k.World) : w ≤ w :=
  ⟨fun _ => rfl, fun n hn => ⟨n, hn, Nat.le_refl n⟩, fun _ h => h, fun _ h => .inl h⟩

protected theorem le_trans {w'' : k.World} (h : w ≤ w') (h' : w' ≤ w'') : w ≤ w'' := by
  refine ⟨fun hfree => ?_, fun n hn => ?_, fun p hp => h'.shown p (h.shown p hp), fun p hp => ?_⟩
  · obtain rfl := h.free hfree
    exact h'.free hfree
  · obtain ⟨n', hn', hle⟩ := h.size n hn
    obtain ⟨n'', hn'', hle'⟩ := h'.size n' hn'
    exact ⟨n'', hn'', Nat.le_trans hle hle'⟩
  · rcases h'.new p hp with hp | hp
    · exact h.new p hp
    · refine .inr fun n hn => ?_
      obtain ⟨n', hn', hle⟩ := h.size n hn
      exact Nat.le_trans hle (hp n' hn')

theorem Open.mono {a : Nat} (ha : w.Open a) (h : w ≤ w') : w'.Open a := by
  rcases hn : w.size with _ | n
  · obtain rfl := h.free hn
    exact ha
  · obtain ⟨n', hn', hle⟩ := h.size n hn
    have hlt := ha.inside n hn
    refine ⟨ha.apart, fun m hm => ?_, fun o ho => ?_⟩
    · rw [hn'] at hm
      cases hm
      omega
    · rcases h.new _ ho with ho | ho
      · exact ha.unseen o ho
      · exact absurd (ho n hn) (by simpa using hlt)

instance : Realm k.World where
  le_refl := World.le_refl
  le_trans := World.le_trans
  Open := Open
  open_mono := Open.mono
  Binds name := k.rules.mayBind name = true
  Admits _ code := code.obeys k.rules = true
  Host := False
  Act act := act ≠ .trace ∧ k.asks act.word = true
  act_of_host := False.elim

structure Sound (w : k.World) (h : Heap) : Prop where
  tame : ∀ a o, h.objects[a]? = some o → w.Open a → TameObject w o
  present : ∀ a ∈ k.addresses, a < h.objects.size
  tracer : h.objects[k.tracerAt]? = some (.closure k.tracer)
  kept : k.tracerAt ∈ k.addresses
  counted : ∀ n, w.size = some n → h.objects.size = n
  shown : ∀ p ∈ w.shown, h.objects[p.1]? = some p.2

variable {h : Heap}

theorem Sound.closure?_shown (hs : w.Sound h) {a : Nat} {c : Closure}
    (hc : (a, .closure c) ∈ w.shown) : h.closure? a = some c := by
  rw [Heap.closure?, hs.shown _ hc]

theorem Sound.push (hs : w.Sound h) {w' : k.World} (hle : w ≤ w') {o : Object}
    (hsize : ∀ n, w.size = some n → w'.size = some (n + 1))
    (ho : w'.Open h.objects.size → TameObject w' o)
    (hnew : ∀ p ∈ w'.shown, p ∈ w.shown ∨ p = (h.objects.size, o)) :
    w'.Sound { h with objects := h.objects.push o } := by
  have hold : ∀ a < h.objects.size, w'.Open a → w.Open a := fun a ha hopen =>
    ⟨hopen.apart, fun n hn => hs.counted n hn ▸ ha, fun o' ho' => hopen.unseen o' (hle.shown _ ho')⟩
  refine ⟨fun a o' ho' ha => ?_, fun a ha => ?_, ?_, hs.kept, fun n hn => ?_, fun p hp => ?_⟩
  · rw [Array.getElem?_push] at ho'
    split at ho'
    · next hsize =>
      cases ho'
      exact ho (hsize ▸ ha)
    · have hlt := (Array.getElem?_eq_some_iff.mp ho').1
      exact (hs.tame a o' ho' (hold a hlt ha)).mono hle
  · have := hs.present a ha
    simp only [Array.size_push]
    omega
  · have hlt := hs.present _ hs.kept
    rw [Array.getElem?_push, if_neg (by omega)]
    exact hs.tracer
  · rw [Array.size_push]
    rcases hn' : w.size with _ | n'
    · obtain rfl := hle.free hn'
      rw [hn'] at hn
      cases hn
    · rw [hsize n' hn'] at hn
      rw [hs.counted n' hn']
      exact Option.some.inj hn
  · rcases hnew p hp with hp | rfl
    · have hlt := (Array.getElem?_eq_some_iff.mp (hs.shown p hp)).1
      rw [Array.getElem?_push, if_neg (by omega)]
      exact hs.shown p hp
    · exact Array.getElem?_push_size

theorem Sound.size_unseen (hs : w.Sound h) (o : Object) : (h.objects.size, o) ∉ w.shown := by
  intro hp
  have := (Array.getElem?_eq_some_iff.mp (hs.shown _ hp)).1
  exact absurd this (Nat.lt_irrefl _)

theorem Sound.change (hs : w.Sound h) {a : Nat} (ha : w.Open a) {objects : Array Object}
    (hsize : objects.size = h.objects.size) (hother : ∀ a', a' ≠ a → objects[a']? = h.objects[a']?)
    (ho : ∀ o, objects[a]? = some o → TameObject w o) : w.Sound { h with objects } := by
  refine ⟨fun a' o ho' ha' => ?_, fun a' ha' => hsize ▸ hs.present a' ha', ?_, hs.kept,
    fun n hn => hsize.trans (hs.counted n hn), fun p hp => ?_⟩
  · by_cases heq : a' = a
    · subst heq
      exact ho o ho'
    · exact hs.tame a' o ((hother a' heq).symm.trans ho') ha'
  · have hne : k.tracerAt ≠ a := fun h => ha.apart (h ▸ hs.kept)
    exact (hother _ hne).trans hs.tracer
  · have hne : p.1 ≠ a := fun h => ha.unseen p.2 (h ▸ hp)
    exact (hother _ hne).trans (hs.shown p hp)

instance : Regime k.World where
  Sound := Sound
  tame hs ho ha := hs.tame _ _ ho ha
  push {w} {h} {o} hs ho := by
    have hle : w ≤ { w with size := w.size.map (· + 1) } := by
      refine ⟨fun hfree => ?_, fun n hn => ⟨n + 1, by simp [hn], Nat.le_succ n⟩,
        fun _ hp => hp, fun _ hp => .inl hp⟩
      obtain ⟨size, shown⟩ := w
      cases hfree
      rfl
    refine ⟨_, hle, hs.push hle (fun n hn => by simp [hn]) (fun _ => ho.mono hle)
      fun _ hp => .inl hp, ?_⟩
    refine ⟨fun hmem => absurd (hs.present _ hmem) (Nat.lt_irrefl _), fun n hn => ?_,
      hs.size_unseen⟩
    obtain ⟨n', hn', rfl⟩ := Option.map_eq_some_iff.mp hn
    rw [hs.counted n' hn']
    exact Nat.lt_succ_self n'
  replace hs ha := hs.change ha
  mark _ hs := { hs with }

theorem safe_of_makes {α : Type} {e : Eval α} {Q : k.World → α → Prop} (h : Makes w e Q)
    (hfree : w.size = none) : Safe w e (Q w) := by
  intro m hm
  obtain ⟨w', hle, hm', hok⟩ := h m hm
  obtain rfl := Le.free hle hfree
  exact ⟨hm', hok⟩

/-- Where objects are counted, a new one can be one that only the log
knows, whatever is in it. -/
theorem alloc_seals {n : Nat} (hn : w.size = some n) {o : Object} :
    Makes w (Eval.alloc o) fun w' a => (a, o) ∈ w'.shown := by
  intro h hs
  have hsize := hs.counted n hn
  have hle : w ≤ ⟨some (n + 1), (n, o) :: w.shown⟩ := by
    refine ⟨fun hfree => ?_, fun m hm => ⟨n + 1, rfl, ?_⟩, fun p hp => List.mem_cons_of_mem _ hp,
      fun p hp => ?_⟩
    · rw [hn] at hfree
      cases hfree
    · rw [hn] at hm
      cases hm
      exact Nat.le_succ n
    · rcases List.mem_cons.mp hp with rfl | hp
      · refine .inr fun m hm => ?_
        rw [hn] at hm
        exact Nat.le_of_eq (Option.some.inj hm).symm
      · exact .inl hp
  refine ⟨_, hle, hs.push hle (fun m hm => ?_) (fun hopen => ?_) (fun p hp => ?_), fun a ha => ?_⟩
  · rw [hn] at hm
    cases hm
    rfl
  · exact absurd (hsize ▸ List.mem_cons_self ..) (hopen.unseen o)
  · rw [hsize]
    exact (List.mem_cons.mp hp).symm
  · obtain rfl : h.objects.size = a := Except.ok.inj ha
    exact hsize ▸ List.mem_cons_self ..

end World

end Core

end Pseudocode.Run
