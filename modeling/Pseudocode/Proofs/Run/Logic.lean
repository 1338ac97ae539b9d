import Pseudocode.Proofs.Run.Calls
import Pseudocode.Proofs.Script.Parts
import Pseudocode.Proofs.Script.Quiet

/-!
# Properties that all evaluators have

The evaluators put computations together in a few ways: one after the
other, with a look at the state, with an operation on values, as an
attempt whose end is looked at, and so on. A property of computations that
is closed under these ways holds of every evaluator, on code that is such
that it can.

A property may be about computations that wait for values as well as about
those that do not: its first argument says whether the computation may.
Code is told apart in the same way, by whether its place is for waiting.
What is attempted, and what runs at once, is at a place that is not.

* `Grammar`: conditions on code that pass from code to its parts.
* `Logic`: a property of computations, with the rules.
-/

namespace Pseudocode.Run

open Text Script Realm
open Regime (Sound)

def AsksHost (W : Type) [Realm W] (e : Expr) (name : Text) : Prop :=
  e.isHost = true ∧ ¬ Host W ∧ ∀ act, HostAct.ofName? name = some act → Act W act

/-- Conditions on code. The first argument says whether the place of the
code is for waiting. -/
structure Grammar (W : Type) [Realm W] where
  expr : Bool → Expr → Prop
  target : Bool → Expr → Prop
  node : Bool → Node → Prop
  handler : HandlerOf Node → Prop
  /-- Statements that are looked at by themselves. -/
  Special : Action → Prop
  /-- Code at a place may wait. -/
  Waits : Bool → Prop
  part : ∀ {may : Bool} {e p : Expr}, expr may e → p ∈ e.parts → expr may p
  owner : ∀ {may : Bool} {e : Expr} {name : Text}, expr may (.attribute e name) →
    AsksHost W e name ∨ expr may e
  store : ∀ {may : Bool} {name : Text} {e : Expr}, expr may (.store name e) → Binds W name
  await : ∀ {may : Bool} {e : Expr}, expr may (.await e) → Waits may
  lambda : ∀ {may : Bool} {path : Text} {params : List (Param Expr)} {locals : List Text}
    {body : Expr}, expr may (.lambda path params locals body) →
      (∀ p ∈ params, Binds W p.name ∧ ∀ e ∈ p.initial, expr may e) ∧
        Admits W false (lambdaRoutine path params locals body)
  clause : ∀ {may : Bool} {kind : Collection} {key : Option Expr} {value : Expr}
    {clauses : List (Clause Expr)} {locals : List Text} {c : Clause Expr},
      expr may (.collect kind key value clauses locals) → c ∈ clauses → target may c.target
  name : ∀ {may : Bool} {t : Text}, target may (.name t) → Binds W t
  targetPart : ∀ {may : Bool} {e p : Expr}, target may e → p ∈ e.targets → target may p
  targetOwner : ∀ {may : Bool} {e : Expr} {name : Text}, target may (.attribute e name) →
    AsksHost W e name ∨ expr may e
  targetItem : ∀ {may : Bool} {e index : Expr}, target may (.item e index) →
    expr may e ∧ expr may index
  action : ∀ {may : Bool} {line : Nat} {a : Action}, node may (.action line a) →
    Special a ∨ (∀ e ∈ a.exprs, expr may e) ∧ ∀ e ∈ a.targets, target may e
  choice : ∀ {may : Bool} {line : Nat} {test : Expr} {body otherwise : List Node},
    node may (.choice line test body otherwise) →
      expr may test ∧ (∀ n ∈ body, node may n) ∧ ∀ n ∈ otherwise, node may n
  whileLoop : ∀ {may : Bool} {line : Nat} {test : Expr} {body otherwise : List Node},
    node may (.whileLoop line test body otherwise) →
      expr may test ∧ (∀ n ∈ body, node may n) ∧ ∀ n ∈ otherwise, node may n
  forLoop : ∀ {may : Bool} {line : Nat} {e source : Expr} {body otherwise : List Node},
    node may (.forLoop line e source body otherwise) → target may e ∧ expr may source ∧
      (∀ n ∈ body, node may n) ∧ ∀ n ∈ otherwise, node may n
  guarded : ∀ {may : Bool} {line : Nat} {body otherwise final : List Node}
    {handlers : List (HandlerOf Node)}, node may (.guarded line body handlers otherwise final) →
      (∀ n ∈ body, node false n) ∧ (∀ h ∈ handlers, handler h) ∧
        (∀ n ∈ otherwise, node false n) ∧ ∀ n ∈ final, node may n
  handled : ∀ {h : HandlerOf Node}, handler h → (∀ e ∈ h.kind, expr false e) ∧
    (∀ name ∈ h.name, Binds W name) ∧ ∀ n ∈ h.body, node false n
  define : ∀ {may : Bool} {line : Nat} {r : Routine}, node may (.define line r) →
    (∀ p ∈ r.params, Binds W p.name ∧ ∀ e ∈ p.initial, expr may e) ∧
      (∀ e ∈ r.params.filterMap Param.note ++ r.note.toList, expr may e) ∧
        Admits W false r ∧ Binds W r.name
  params : ∀ {isCall : Bool} {r : Routine}, Admits W isCall r → ∀ p ∈ r.params, Binds W p.name
  /-- A routine that is made for waiting is run when it is waited for. -/
  call : ∀ {r : Routine}, Admits W false r → r.isAsync = true → Admits W true r
  later : ∀ {r : Routine}, Admits W true r → ∀ n ∈ r.body, node true n
  now : ∀ {r : Routine}, Admits W false r → r.isAsync = false → ∀ n ∈ r.body, node false n

theorem Grammar.expr_bare {W : Type} [Realm W] (G : Grammar W) {may : Bool} {e : Expr}
    (h : G.expr may e) : G.expr may e.bare := by
  induction e using Expr.bare.induct with
  | case1 line e ih => exact ih (G.part h (by simp [Expr.parts]))
  | case2 e hbare =>
    rw [Expr.bare]
    · exact h
    · exact hbare

/-- What may be shown to the host: acts that may be known, and texts. -/
def Shows (W : Type) [Realm W] : Showing → Prop
  | .write _ => Act W .write
  | .trace .. => Act W .trace
  | .read _ => False
  | .print _ => True

/-- Where a computation stands: at a place, or between the places of a
routine, and the places of the callers. -/
abbrev Spot := Option Place × Traceback

def Site.here (s : Site) : Spot :=
  (some s.place, s.callers)

/-- What goes to the places of its parts by itself. -/
def Site.within (s : Site) : Spot :=
  (none, s.callers)

/-- The computations that go to a line of the script, from a site. -/
inductive Grammar.Stands {W : Type} [Realm W] (G : Grammar W) (x : Executable) (s : Site) :
    Nat → {α : Type} → Exec α → Prop where
  | eval {may : Bool} {fuel line : Nat} {e : Expr} : G.expr may (.located line e) →
    Stands G x s line (eval x fuel (s.at x line) e)
  | store {may : Bool} {fuel line : Nat} {e : Expr} {v : Value} : G.target may (.located line e) →
    Stands G x s line (Run.store x fuel (s.at x line) e v)
  | delete {may : Bool} {fuel line : Nat} {e : Expr} : G.target may (.located line e) →
    Stands G x s line (delete x fuel (s.at x line) [e])
  | augment {may : Bool} {fuel line : Nat} {op : BinaryOp} {e value : Expr} :
    G.target may (.located line e) →
      Stands G x s line (augment x fuel (s.at x line) op e value)
  | node {may : Bool} {fuel : Nat} {n : Node} : G.node may n →
    Stands G x s n.line (execNode x fuel s n)
  | handle {fuel : Nat} {stop : Stop} {h : HandlerOf Node} {rest : List (HandlerOf Node)} :
    G.handler h → Stands G x s h.line (handle x fuel s stop (h :: rest))

/-- A property of the computations of a script that is closed under the
ways in which evaluators put computations together. -/
structure Logic (W : Type) [Regime W] (x : Executable) where
  /-- What the code must be like. -/
  code : Grammar W
  /-- A computation from a world has the property, and its results have
  another one. -/
  Holds : Bool → Spot → W → {α : Type} → Exec α → (W → α → Prop) → Prop
  /-- How a computation may stop. -/
  Stops : Spot → Stop → Prop
  failed : ∀ (s : Site) (fault : Fault), Stops s.here (.failed fault s.traceback)
  outOfFuel : ∀ {p : Spot}, Stops p .outOfFuel
  pure : ∀ {may : Bool} {p : Spot} {w : W} {α : Type} {Q : W → α → Prop} {a : α}, Q w a →
    Holds may p w (pure a) Q
  stop : ∀ {may : Bool} {p : Spot} {w : W} {α : Type} {Q : W → α → Prop} {stop : Stop},
    Stops p stop → Holds may p w (throw stop) Q
  bind : ∀ {may : Bool} {p : Spot} {w : W} {α β : Type} {Q : W → α → Prop} {R : W → β → Prop}
    {e : Exec α} {f : α → Exec β}, Holds may p w e Q →
      (∀ w', w ≤ w' → ∀ a, Q w' a → Holds may p w' (f a) R) → Holds may p w (e >>= f) R
  mono : ∀ {may : Bool} {p : Spot} {w : W} {α : Type} {Q R : W → α → Prop} {e : Exec α},
    Holds may p w e Q → (∀ w' a, w ≤ w' → Q w' a → R w' a) → Holds may p w e R
  /-- What follows may depend on the state, but not on the inputs. -/
  look : ∀ {may : Bool} {p : Spot} {w : W} {β : Type} {R : W → β → Prop} {f : Machine → Exec β},
    (∀ m inputs, f { m with inputs } = f m) →
      (∀ m, Sound w m.heap → Holds may p w (f m) R) → Holds may p w (get >>= f) R
  evaluate : ∀ {may : Bool} {s : Site} {w : W} {α : Type} {Q : W → α → Prop} {e : Eval α},
    Makes w e Q → Holds may s.here w (evaluate s e) Q
  lookup : ∀ {may : Bool} {s : Site} {w : W} {t : Text}, code.expr may (.name t) →
    Holds may s.here w (do orFail s ((← get).lookup s.frame t)) Tame
  host : ∀ {may : Bool} {s : Site} {w : W}, ¬ Host W →
    Holds may s.here w (do orFail s ((← get).lookup s.frame "io")) fun _ v => v = .host
  storeName : ∀ {may : Bool} {s : Site} {w : W} {p : Text × Value}, TameEntry w p →
    Holds may s.here w (storeName s p.1 p.2) fun _ _ => True
  deleteName : ∀ {may : Bool} {s : Site} {w : W} {name : Text},
    Holds may s.here w (deleteName s name) fun _ _ => True
  enterFrame : ∀ {may : Bool} {p : Spot} {w : W} {f : Frame}, TameEntries w f.vars →
    Holds may p w (enterFrame f) fun _ _ => True
  leaveFrame : ∀ {may : Bool} {p : Spot} {w : W} {n : Nat},
    Holds may p w (leaveFrame n) fun _ _ => True
  newRoutine : ∀ {may : Bool} {s : Site} {w : W} {r : Routine} {initials : List (Text × Value)},
    Admits W false r → TameEntries w initials → Holds may s.here w (newRoutine s r initials) Tame
  beginCall : ∀ {may : Bool} {s : Site} {w : W} {a : Nat}, Open w a →
    Holds may s.here w (beginCall s a) fun w' c? => ∀ c, c? = some c → TameObject w' (.call c)
  reveal : ∀ {may : Bool} {p : Spot} {w : W} {shown : Showing}, Shows W shown →
    Holds may p w (reveal shown) fun _ _ => True
  read : ∀ {s : Site} {w : W} {label : Text},
    Holds true s.here w (nextInput s label) fun _ _ => True
  attempt : ∀ {may : Bool} {p : Spot} {w : W} {α β : Type} {Q : W → α → Prop} {R : W → β → Prop}
    {e : Exec α} {f : Except Stop α → Exec β}, Holds false p w e Q →
      (∀ w', w ≤ w' → ∀ a, Q w' a → Holds may p w' (f (.ok a)) R) →
        (∀ w', w ≤ w' → ∀ stop, Stops p stop → Holds may p w' (f (.error stop)) R) →
          Holds may p w (attempt e >>= f) R
  /-- What need not wait may be at any place. -/
  ofStill : ∀ {may : Bool} {p : Spot} {w : W} {α : Type} {Q : W → α → Prop} {e : Exec α},
    Holds false p w e Q → Holds may p w e Q
  ofWaiting : ∀ {may : Bool} {p : Spot} {w : W} {α : Type} {Q : W → α → Prop} {e : Exec α},
    code.Waits may → Holds true p w e Q → Holds may p w e Q
  /-- What goes to its places by itself may do so from any place. -/
  ofWithin : ∀ {may : Bool} {s : Site} {w : W} {α : Type} {Q : W → α → Prop} {e : Exec α},
    Holds may s.within w e Q → Holds may s.here w e Q
  enter : ∀ {may : Bool} {s : Site} {n : Nat} {w : W} {α : Type} {Q : W → α → Prop} {e : Exec α},
    Holds may (s.callee n).here w e Q → Holds may s.here w e Q
  goTo : ∀ {may : Bool} {s : Site} {line : Nat} {w : W} {α : Type} {Q : W → α → Prop} {e : Exec α},
    code.Stands x s line e → Holds may (s.at x line).here w e Q → Holds may s.within w e Q

namespace Logic

variable {W : Type} [Regime W] {x : Executable} (L : Logic W x) {may : Bool} {p : Spot} {s : Site}
  {w : W} {α β : Type} {Q : W → α → Prop} {R : W → β → Prop}

theorem fail {fault : Fault} : L.Holds may s.here w (fail s fault) Q :=
  L.stop (L.failed s fault)

theorem orFail {e : Except Fault α} (h : ∀ a, e = .ok a → Q w a) :
    L.Holds may s.here w (orFail s e) Q := by
  cases e with
  | ok a => exact L.pure (h a rfl)
  | error => exact L.fail

theorem any {e : Except Fault α} : L.Holds may s.here w (Run.orFail s e) fun _ _ => True :=
  L.orFail fun _ _ => trivial

theorem ite {c : Prop} [Decidable c] {e e' : Exec α} (he : L.Holds may p w e Q)
    (he' : L.Holds may p w e' Q) : L.Holds may p w (if c then e else e') Q := by
  split
  · exact he
  · exact he'

theorem guard {c : Prop} [Decidable c] {fault : Fault} {f : PUnit → Exec α}
    (hf : L.Holds may s.here w (f ()) Q) :
    L.Holds may s.here w (if c then Run.fail s fault >>= f else f ()) Q :=
  L.ite (L.stop (L.failed s fault)) hf

theorem isTrue_bind {v : Value} {f : Bool → Exec β} (hf : ∀ b, L.Holds may p w (f b) R) :
    L.Holds may p w (isTrue v >>= f) R :=
  L.look (fun _ _ => rfl) fun _ _ => hf _

theorem mapM {f : α → Exec β} {xs : List α}
    (hf : ∀ a (w : W), L.Holds may p w (f a) fun _ _ => True) :
    L.Holds may p w (xs.mapM f) fun _ _ => True := by
  induction xs generalizing w with
  | nil => exact L.pure trivial
  | cons x rest ih =>
    rw [List.mapM_cons]
    exact L.bind (hf x w) fun _ _ _ _ => L.bind ih fun _ _ _ _ => L.pure trivial

theorem evaluate_bind {P : α → Prop} {e : Eval α} {f : α → Exec β} (he : Safe w e P)
    (hf : ∀ a, P a → L.Holds may s.here w (f a) R) :
    L.Holds may s.here w (Run.evaluate s e >>= f) R := by
  refine L.bind (Q := fun w' a => w' = w ∧ P a) (L.evaluate (.ofSafe ?_)) ?_
  · exact he.mono fun a ha => ⟨rfl, ha⟩
  · rintro _ - a ⟨rfl, ha⟩
    exact hf a ha

/-! ### Calls that leave the script -/

theorem bindArguments_act {h : HostAct} {a : Arguments} (ha : TameArguments w a) :
    Makes w (bindArguments h.name h.params [("output", .str [])]
      { a with byPosition := .host :: a.byPosition })
      fun w' bound => ∀ name, name ≠ "self".toList →
        Tame w' ((bound.lookup name).getD .nothing) := by
  have hself : ∃ rest, paramNames h.params [.position, .plain] = "self".toList :: rest := by
    cases h <;> exact ⟨_, rfl⟩
  -- The host comes first, and its name is the only one whose value need not be tame.
  refine .mono
    (bindArguments_makes (R := fun w' p => p.1 ≠ "self" → Tame w' p.2)
      ?_ ?_ ?_ ?_ ?_ ?_) ?_
  · exact fun _ _ _ hw hp hname => (hp hname).mono hw
  · exact fun _ _ _ _ _ hv _ => hv
  · obtain ⟨rest, hrest⟩ := hself
    rw [hrest]
    rintro ⟨name, v⟩ hp hname
    rcases List.mem_cons.mp hp with hp | hp
    · exact absurd (Prod.mk.inj hp).1 hname
    · exact ha.1 v (List.of_mem_zip hp).2
  · exact ha.2
  · rintro p hp -
    obtain rfl := List.mem_singleton.mp hp
    exact trivial
  · exact .inl (by cases h <;> rfl)
  · intro w' bound _ hbound name hname
    rcases hv : bound.lookup name with _ | v
    · exact trivial
    · exact hbound _ (mem_of_lookup hv) hname

theorem act {h : HostAct} {a : Arguments} (hact : Act W h) (ha : TameArguments w a) :
    L.Holds may s.here w (act s h a) Tame := by
  refine L.bind (L.evaluate (bindArguments_act ha)) fun w' _ bound hbound => ?_
  cases h with
  | write => exact L.bind (L.reveal hact) fun _ _ _ _ => L.pure trivial
  | trace =>
    refine L.evaluate_bind (valuesOf_safe (hbound _ (by decide))) fun _ _ => ?_
    exact L.bind (L.reveal hact) fun _ _ _ _ => L.pure trivial
  | read => exact L.pure (hbound _ (by decide))

theorem callOther {callee : Value} {a : Arguments} (hcallee : Tame w callee)
    (ha : TameArguments w a) : L.Holds may s.here w (callOther s callee a) Tame := by
  unfold Run.callOther
  split
  · exact L.act hcallee ha
  · refine L.bind (L.mapM fun v w => L.look (fun _ _ => rfl) fun _ _ => L.any) fun _ _ _ _ => ?_
    exact L.bind (L.reveal trivial) fun _ _ _ _ => L.pure trivial
  · refine L.evaluate ((apply_makes ha.1).bind fun w' hw d hd => ?_)
    refine .ofSafe ((Safe.forIn fun p hp => ?_).bind fun _ _ => .pure hd)
    have hname : Tame w' (.str p.1) := trivial
    exact (storeItem_safe hd hname ((ha.2 p hp).mono hw)).bind fun _ _ => .pure trivial
  · exact L.ite (L.evaluate (apply_makes ha.1)) L.fail
  · exact L.ite (L.evaluate (callMethod_makes hcallee ha.1)) L.fail
  · refine L.evaluate ((alloc_makes ?_).bind fun _ _ _ ha => .pure ha)
    exact fun v hv => ha.1 v (List.mem_toArray.mp hv)
  · exact L.fail

end Logic

end Pseudocode.Run
