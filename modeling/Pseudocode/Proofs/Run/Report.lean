import Pseudocode.Proofs.Run.Invariant

/-!
# The routine that reports a step

The routine asks the host for its `trace` and calls it with the line, the
snapshot and the output that it was given. What it shows depends on its own
frame, where these are kept, so its statements are followed one by one.

* `Reads`: a computation leaves the state as it is. This is how names,
  constants and most arguments are evaluated.
* `Holds`: the variables of a frame have their first values, one apart.
* `Core.Invariant.Reveals`: an invariant holds until a step is shown.
* `Core.Invariant.tracer_reveals`: a call of the routine shows a step of
  the line it was given, unless it stops before.
-/

namespace Pseudocode.Run

open Text Script Realm List

variable {e : Expr} {f v : Value} {t : Text}

/-! ### Computations that change nothing -/

def Reads {α : Type} (m : Machine) (e : Exec α) (Q : α → Prop) : Prop :=
  (e m).2 = m ∧ ∀ a, (e m).1 = .ok a → Q a

namespace Reads

variable {α β : Type} {Q : α → Prop} {R : β → Prop} {m : Machine}

theorem mono {e : Exec α} {Q' : α → Prop} (h : Reads m e Q) (hQ : ∀ a, Q a → Q' a) : Reads m e Q' :=
  ⟨h.1, fun a ha => hQ a (h.2 a ha)⟩

theorem pure {a : α} (h : Q a) : Reads m (Pure.pure a) Q := by
  refine ⟨rfl, fun b hb => ?_⟩
  cases hb
  exact h

theorem stop {stop : Stop} : Reads m (throw stop) Q :=
  ⟨rfl, fun _ h => nomatch h⟩

theorem bind {e : Exec α} {f : α → Exec β} (he : Reads m e Q) (hf : ∀ a, Q a → Reads m (f a) R) :
    Reads m (e >>= f) R := by
  obtain ⟨hm, hQ⟩ := he
  unfold Reads
  rw [bind_apply]
  rcases hem : e m with ⟨r, m'⟩
  rw [hem] at hm hQ
  subst hm
  cases r with
  | error => exact ⟨rfl, fun _ h => nomatch h⟩
  | ok a => exact hf a (hQ a rfl)

theorem get_bind {f : Machine → Exec β} (hf : Reads m (f m) R) : Reads m (get >>= f) R :=
  hf

theorem orFail {s : Site} {e : Except Fault α} (h : ∀ a, e = .ok a → Q a) :
    Reads m (orFail s e) Q := by
  unfold Run.orFail
  split
  · exact pure (h _ rfl)
  · exact stop

theorem evaluate {s : Site} {e : Eval α} (hheap : (e m.heap).2 = m.heap)
    (h : ∀ a, (e m.heap).1 = .ok a → Q a) : Reads m (evaluate s e) Q := by
  refine ⟨?_, fun a ha => h a (eq_ok_of_mapError ha)⟩
  show { m with heap := (e m.heap).2 } = m
  rw [hheap]

variable {x : Executable} {s : Site}

theorem name {Q : Value → Prop} (h : ∀ v, m.lookup s.frame t = .ok v → Q v)
    (fuel : Nat) : Reads m (eval x fuel s (.name t)) Q := by
  cases fuel with
  | zero => exact stop
  | succ => exact get_bind (orFail h)

theorem constant (h : ∀ fuel, eval x (fuel + 1) s e = Pure.pure v)
    (fuel : Nat) : Reads m (eval x fuel s e) (· = v) := by
  cases fuel with
  | zero => exact stop
  | succ =>
    rw [h]
    exact pure rfl

theorem str (fuel : Nat) : Reads m (eval x fuel s (.str t)) (· = .str t) :=
  constant (fun _ => by rfl) fuel

theorem nothing (fuel : Nat) : Reads m (eval x fuel s .nothing) (· = .nothing) :=
  constant (fun _ => by rfl) fuel

theorem items_nil (fuel : Nat) : Reads m (evalItems x fuel s []) (· = []) := by
  cases fuel with
  | zero => exact stop
  | succ => exact pure rfl

theorem items_cons {rest : List Expr} {Q : Value → Prop} {R : List Value → Prop}
    (hspread : ∀ e', e.bare ≠ .spread e') (he : ∀ fuel, Reads m (eval x fuel s e) Q)
    (hrest : ∀ fuel, Reads m (evalItems x fuel s rest) R) (fuel : Nat) :
    Reads m (evalItems x fuel s (e :: rest)) fun vs => ∃ v us, vs = v :: us ∧ Q v ∧ R us := by
  cases fuel with
  | zero => exact stop
  | succ fuel =>
    refine (he fuel).bind fun v hv => ?_
    split
    · next h => exact absurd h (hspread _)
    · exact (hrest fuel).bind fun us hus => pure ⟨v, us, rfl, hv, hus⟩

theorem named_nil (fuel : Nat) : Reads m (evalNamed x fuel s f []) (· = []) := by
  cases fuel with
  | zero => exact stop
  | succ => exact pure rfl

theorem arguments {args : List Expr} {R : List Value → Prop}
    (hlone : loneSpread? args = none) (h : ∀ fuel, Reads m (evalItems x fuel s args) R)
    (fuel : Nat) :
    Reads m (evalArguments x fuel s f args []) fun a => a.byName = [] ∧ R a.byPosition := by
  cases fuel with
  | zero => exact stop
  | succ fuel =>
    unfold evalArguments
    rw [hlone]
    refine (h fuel).bind fun vs hvs => (named_nil fuel).bind ?_
    rintro _ rfl
    exact pure ⟨rfl, hvs⟩

end Reads

/-! ### The frame of a routine -/

/-- The frame at a position binds some names, and its variables have the
values that they had at first, except for one. -/
def Holds (n : Nat) (locals : List Text) (vars : List (Text × Value)) (other : Text)
    (frames : Array Frame) : Prop :=
  ∃ f, frames[n]? = some f ∧ f.locals = locals ∧
    ∀ t, t ≠ other → f.vars.lookup t = vars.lookup t

namespace Holds

variable {n : Nat} {locals : List Text} {vars : List (Text × Value)} {other : Text} {m : Machine}

theorem lookup (h : Holds n locals vars other m.frames)
    (ht : locals.contains t = true) (hne : t ≠ other) (hv : vars.lookup t = some v) :
    m.lookup n t = .ok v := by
  obtain ⟨f, hf, rfl, hvars⟩ := h
  -- The frame binds the name itself, so no frame around it is asked.
  have hbinder : m.binder? n t = some n := by
    rw [Machine.binder?, find?_cons_of_pos]
    rw [hf]
    exact ht
  have hvar : m.var? n t = some v := by
    rw [Machine.var?, hf]
    exact (hvars t hne).trans hv
  rw [Machine.lookup, hbinder]
  simp only [hvar]

theorem lookup_assign_ne {name : Text} {vars : List (Text × Value)}
    (h : t ≠ name) : (assign (· == name) name v vars).lookup t = vars.lookup t := by
  induction vars with
  | nil =>
    have hne : (t == name) = false := by simpa using h
    rw [assign, lookup_cons, hne]
  | cons p rest ih =>
    obtain ⟨key, u⟩ := p
    rw [assign]
    split
    · next hkey =>
      have hne : (t == key) = false := by
        rw [eq_of_beq hkey]
        simpa using h
      rw [lookup_cons, lookup_cons, hne]
    · rw [lookup_cons, lookup_cons, ih]

theorem changeVars (h : Holds n locals vars other m.frames) (n' : Nat) (v : Value) :
    Holds n locals vars other (m.changeVars n' (assign (· == other) other v)).frames := by
  obtain ⟨f, hf, hlocals, hvars⟩ := h
  unfold Machine.changeVars
  -- The name may be bound in this frame or in another one.
  by_cases hn : n' = n
  · refine ⟨{ f with vars := assign (· == other) other v f.vars }, ?_, hlocals, fun t ht => ?_⟩
    · rw [Array.getElem?_modify, if_pos hn, hf]
      rfl
    · exact (lookup_assign_ne ht).trans (hvars t ht)
  · refine ⟨f, ?_, hlocals, hvars⟩
    rw [Array.getElem?_modify, if_neg hn]
    exact hf

theorem push (frames : Array Frame) (f : Frame) :
    Holds frames.size f.locals f.vars other (frames.push f) :=
  ⟨f, Array.getElem?_push_size, rfl, fun _ _ => rfl⟩

end Holds

namespace Core.Invariant

variable {k : Core} {I : k.Invariant} {w : k.World} {α β : Type} {m : Machine}

theorem Ends.ofReads {e : Exec α} {Q : α → Prop} (h : Reads m e Q) (hm : I.At w m) :
    I.Ends w (fun w' m' a => w' = w ∧ m' = m ∧ Q a) (e m) := by
  obtain ⟨hsame, hQ⟩ := h
  rcases hem : e m with ⟨r, m'⟩
  rw [hem] at hsame hQ
  subst hsame
  cases r with
  | error => exact ⟨w, w.le_refl, hm⟩
  | ok a => exact ⟨w, w.le_refl, hm, rfl, rfl, hQ a rfl⟩

theorem Ends.read_bind {e : Exec α} {f : α → Exec β} {Q : α → Prop}
    {R : k.World → Machine → β → Prop} (he : Reads m e Q) (hm : I.At w m)
    (hf : ∀ a, Q a → I.Ends w R (f a m)) : I.Ends w R ((e >>= f) m) := by
  refine (Ends.ofReads he hm).bind ?_
  rintro _ _ _ a _ ⟨rfl, rfl, ha⟩
  exact hf a ha

theorem Ends.stop {stop : Stop} {Q : k.World → Machine → α → Prop} (hm : I.At w m) :
    I.Ends w Q ((throw stop : Exec α) m) :=
  ⟨w, w.le_refl, hm⟩

theorem Ends.pure {a : α} {Q : k.World → Machine → α → Prop} (hm : I.At w m) (h : Q w m a) :
    I.Ends w Q ((pure a : Exec α) m) :=
  ⟨w, w.le_refl, hm, h⟩

theorem Ends.storeName {H : Array Frame → Prop} {name : Text} {s : Site}
    (hm : I.At w m) (hfits : w.Fits (name, v))
    (h : H (m.changeVars ((m.binder? s.frame name).getD 0) (assign (· == name) name v)).frames) :
    I.Ends w (fun w' m' _ => w' = w ∧ H m'.frames) (storeName s name v m) :=
  ⟨w, w.le_refl, (storeName_stays hfits m hm).1, rfl, h⟩

/-! ### Arguments that are evaluated in order -/

section Arguments

variable {x : Executable} {s : Site} {F : Machine → Prop} {fuel : Nat}

theorem Ends.items_cons {rest : List Expr} {P : k.World → Value → Prop}
    {R : k.World → List Value → Prop} (hm : I.At w m) (hspread : ∀ e', e.bare ≠ .spread e')
    (he : ∀ n < fuel, I.Ends w (fun w' m' v => F m' ∧ P w' v) (eval x n s e m))
    (hP : ∀ w' w'' v, w' ≤ w'' → P w' v → P w'' v)
    (hrest : ∀ w', w ≤ w' → ∀ m', I.At w' m' → F m' → ∀ n < fuel,
      I.Ends w' (fun w'' m'' vs => F m'' ∧ R w'' vs) (evalItems x n s rest m')) :
    I.Ends w (fun w' m' vs => F m' ∧ ∃ v us, vs = v :: us ∧ P w' v ∧ R w' us)
      (evalItems x fuel s (e :: rest) m) := by
  cases fuel with
  | zero => exact .stop hm
  | succ fuel =>
    refine (he fuel (by omega)).bind ?_
    rintro w₁ h₁ m₁ v hm₁ ⟨hF, hv⟩
    split
    · next hbare => exact absurd hbare (hspread _)
    · refine (hrest w₁ h₁ m₁ hm₁ hF fuel (by omega)).bind ?_
      rintro w₂ h₂ m₂ us hm₂ ⟨hF', hus⟩
      exact .pure hm₂ ⟨hF', v, us, rfl, hP _ _ v h₂ hv, hus⟩

theorem Ends.arguments {args : List Expr} {R : k.World → List Value → Prop}
    (hm : I.At w m) (hlone : loneSpread? args = none)
    (h : ∀ n < fuel, I.Ends w (fun w' m' vs => F m' ∧ R w' vs) (evalItems x n s args m)) :
    I.Ends w (fun w' m' a => F m' ∧ a.byName = [] ∧ R w' a.byPosition)
      (evalArguments x fuel s f args [] m) := by
  cases fuel with
  | zero => exact .stop hm
  | succ fuel =>
    unfold evalArguments
    rw [hlone]
    refine (h fuel (by omega)).bind ?_
    rintro w₁ _ m₁ vs hm₁ ⟨hF, hvs⟩
    refine .read_bind (.named_nil fuel) hm₁ ?_
    rintro _ rfl
    exact .pure hm₁ ⟨hF, rfl, hvs⟩

end Arguments

/-! ### Statements in a known frame -/

section Statements

variable {x : Executable} {s : Site} {l : Nat} {Q : k.World → Machine → Flow → Prop}

theorem Ends.assign {H : Array Frame → Prop} {name : Text}
    {P : k.World → Value → Prop} (hm : I.At w m)
    (he : ∀ fuel, I.Ends w (fun w' m' v => H m'.frames ∧ P w' v) (eval x fuel (s.at x l) e m))
    (hfits : ∀ w' v, P w' v → w'.Fits (name, v)) (hstore : ∀ (m' : Machine) v, H m'.frames →
      H (m'.changeVars ((m'.binder? s.frame name).getD 0) (assign (· == name) name v)).frames)
    (fuel : Nat) :
    I.Ends w (fun w' m' flow => flow = .next ∧ H m'.frames ∧ ∃ v, P w' v)
      (execNode x fuel s (.action l (.assign [.name name] e)) m) := by
  have hnil : ∀ fuel s m, Reads m (storeAll x fuel s []) fun _ => True := by
    intro fuel s m
    cases fuel with
    | zero => exact .stop
    | succ => exact .pure trivial
  match fuel with
  | 0 | 1 => exact .stop hm
  | fuel + 2 =>
    refine (he fuel).bind fun w₁ _ m₁ v hm₁ hv => ?_
    match fuel with
    | 0 | 1 => exact .stop hm₁
    | fuel + 2 =>
      refine Ends.bind (Q := fun w' m' _ => w' = w₁ ∧ H m'.frames) ?_ ?_
      · refine (Ends.storeName hm₁ (hfits w₁ v hv.2) (hstore m₁ v hv.1)).bind ?_
        rintro _ _ m₂ _ hm₂ ⟨rfl, h₂⟩
        refine (Ends.ofReads (hnil _ _ m₂) hm₂).mono (World.le_refl _) ?_
        rintro _ _ _ _ ⟨rfl, rfl, -⟩
        exact ⟨rfl, h₂⟩
      · rintro _ _ m₂ _ hm₂ ⟨rfl, h₂⟩
        exact .pure hm₂ ⟨rfl, h₂, v, hv.2⟩

theorem Ends.choice {test : Expr} {yes no : List Node} {T : Value → Prop} (hm : I.At w m)
    (htest : ∀ fuel, Reads m (eval x fuel (s.at x l) test) T)
    (hyes : ∀ v, T v → m.heap.truth v = true → ∀ fuel, I.Ends w Q (execBlock x fuel s yes m))
    (hno : ∀ v, T v → m.heap.truth v = false → ∀ fuel, I.Ends w Q (execBlock x fuel s no m))
    (fuel : Nat) : I.Ends w Q (execNode x fuel s (.choice l test yes no) m) := by
  cases fuel with
  | zero => exact .stop hm
  | succ fuel =>
    refine .read_bind (htest fuel) hm fun v hv => ?_
    refine .read_bind (Reads.get_bind (.pure rfl)) hm ?_
    rintro b rfl
    split
    · next htruth => exact hyes v hv htruth fuel
    · next htruth => exact hno v hv (by simpa using htruth) fuel

theorem Ends.block_nil (hm : I.At w m) (h : Q w m .next) (fuel : Nat) :
    I.Ends w Q (execBlock x fuel s [] m) := by
  cases fuel with
  | zero => exact .stop hm
  | succ => exact .pure hm h

theorem Ends.block_cons {node : Node} {rest : List Node} {R : k.World → Machine → Flow → Prop}
    (hm : I.At w m) (hnode : ∀ fuel, I.Ends w R (execNode x fuel s node m))
    (hnext : ∀ w', w ≤ w' → ∀ m', I.At w' m' → R w' m' .next →
      ∀ fuel, I.Ends w' Q (execBlock x fuel s rest m'))
    (hleave : ∀ w' m' flow, flow ≠ .next → R w' m' flow → Q w' m' flow) (fuel : Nat) :
    I.Ends w Q (execBlock x fuel s (node :: rest) m) := by
  cases fuel with
  | zero => exact .stop hm
  | succ fuel =>
    refine (hnode fuel).bind fun w' hle m' flow hm' hflow => ?_
    cases flow with
    | next => exact hnext w' hle m' hm' hflow fuel
    | _ => exact .pure hm' (hleave _ _ _ (by nofun) hflow)

end Statements

/-! ### Computations that show a step -/

section

variable (I w)

def Reveals (S : k.World → Showing → Prop) (r : Except Stop α × Machine) : Prop :=
  (∃ stop, r.1 = .error stop) ∧ (∃ w', w ≤ w' ∧ I.At w' r.2) ∨
    ∃ w' m shown, w ≤ w' ∧ I.At w' m ∧ S w' shown ∧ r.2 = m.shows shown

/-- A computation does the same if something was shown before it. -/
def Trails (e : Exec α) : Prop :=
  ∀ w m shown, I.At w m → ∃ m', I.At w m' ∧ (e (m.shows shown)).2 = m'.shows shown

end

namespace Reveals

variable {S : k.World → Showing → Prop}

theorem stop {stop : Stop} (hm : I.At w m) : I.Reveals w S ((throw stop : Exec α) m) :=
  .inl ⟨⟨stop, rfl⟩, w, w.le_refl, hm⟩

theorem bind {Q : k.World → Machine → α → Prop} {e : Exec α} {f : α → Exec β}
    (he : I.Ends w Q (e m))
    (hf : ∀ w', w ≤ w' → ∀ m' a, I.At w' m' → Q w' m' a → I.Reveals w' S (f a m')) :
    I.Reveals w S ((e >>= f) m) := by
  rw [bind_apply]
  rcases hem : e m with ⟨r, m'⟩
  rw [hem] at he
  cases r with
  | error stop => exact .inl ⟨⟨stop, rfl⟩, he⟩
  | ok a =>
    obtain ⟨w', hle, hm', ha⟩ := he
    obtain ⟨hstop, w'', hle', hm''⟩ | ⟨w'', m'', shown, hle', hrest⟩ := hf w' hle m' a hm' ha
    · exact .inl ⟨hstop, w'', World.le_trans hle hle', hm''⟩
    · exact .inr ⟨w'', m'', shown, World.le_trans hle hle', hrest⟩

theorem read_bind {Q : α → Prop} {e : Exec α} {f : α → Exec β} (he : Reads m e Q)
    (hm : I.At w m) (hf : ∀ a, Q a → I.Reveals w S (f a m)) : I.Reveals w S ((e >>= f) m) := by
  refine bind (Ends.ofReads he hm) ?_
  rintro _ _ _ a _ ⟨rfl, rfl, ha⟩
  exact hf a ha

theorem andThen {e : Exec α} {f : α → Exec β} (he : I.Reveals w S (e m))
    (hf : ∀ a, I.Trails (f a)) : I.Reveals w S ((e >>= f) m) := by
  rw [bind_apply]
  rcases hem : e m with ⟨r, m'⟩
  rw [hem] at he
  obtain ⟨⟨stop, rfl⟩, hm'⟩ | ⟨w', m₀, shown, hle, hm₀, hS, rfl⟩ := he
  · exact .inl ⟨⟨stop, rfl⟩, hm'⟩
  -- The step stays the last one that was shown, also if the call of the host fails.
  · cases r with
    | error => exact .inr ⟨w', m₀, shown, hle, hm₀, hS, rfl⟩
    | ok a =>
      obtain ⟨m₁, hm₁, hlast⟩ := hf a w' m₀ shown hm₀
      exact .inr ⟨w', m₁, shown, hle, hm₁, hS, hlast⟩

theorem ends {r : Except Stop α × Machine} (h : I.Reveals w S r)
    (hshows : ∀ w' m shown, I.At w' m → S w' shown → I.At w' (m.shows shown)) :
    I.Ends w (fun _ _ _ => True) r := by
  obtain ⟨r, m⟩ := r
  have hend : ∃ w', w ≤ w' ∧ I.At w' m := by
    obtain ⟨-, hend⟩ | ⟨w', m₀, shown, hle, hm₀, hS, rfl⟩ := h
    · exact hend
    · exact ⟨w', hle, hshows w' m₀ shown hm₀ hS⟩
  cases r with
  | error => exact hend
  | ok =>
    obtain ⟨w', hle, hm⟩ := hend
    exact ⟨w', hle, hm, trivial⟩

end Reveals

namespace Trails

theorem pure {a : α} : I.Trails (Pure.pure a) :=
  fun _ m _ hm => ⟨m, hm, rfl⟩

theorem stop {stop : Stop} : I.Trails (throw stop : Exec α) :=
  fun _ m _ hm => ⟨m, hm, rfl⟩

theorem bind {e : Exec α} {f : α → Exec β} (he : I.Trails e) (hf : ∀ a, I.Trails (f a)) :
    I.Trails (e >>= f) := by
  intro w m shown hm
  obtain ⟨m', hm', hlast⟩ := he w m shown hm
  rw [bind_apply]
  rcases hem : e (m.shows shown) with ⟨r, m₁⟩
  rw [hem] at hlast
  subst hlast
  cases r with
  | error => exact ⟨m', hm', rfl⟩
  | ok a => exact hf a w m' shown hm'

theorem leaveFrame {n : Nat} : I.Trails (leaveFrame n) := by
  intro w m shown hm
  refine ⟨(Run.leaveFrame n m).2, (leaveFrame_stays m hm).1, ?_⟩
  show (if n + 1 = m.frames.size && !(m.frames[n]?).any Frame.kept then
      { m.shows shown with frames := m.frames.pop } else m.shows shown) =
    (if n + 1 = m.frames.size && !(m.frames[n]?).any Frame.kept then
      { m with frames := m.frames.pop } else m).shows shown
  split
  · rfl
  · rfl

theorem block_nil {x : Executable} {s : Site} (fuel : Nat) : I.Trails (execBlock x fuel s []) := by
  cases fuel with
  | zero => exact stop
  | succ => exact pure

end Trails

/-! ### The statements of the routine -/

/-- A step of a line is shown, with a snapshot and an output that have
properties. -/
def ShowsStep (line : Nat) (V : k.World → List Value → Prop) (O : Value → Prop) (w : k.World)
    (shown : Showing) : Prop :=
  ∃ vs output, shown = .trace (.int line) vs output ∧ V w vs ∧ O output

variable {x : Executable} {s : Site} {n line : Nat} {locals : List Text}
  {bound : List (Text × Value)} {V : k.World → List Value → Prop} {O : Value → Prop}

theorem reads_hook (hm : w.Fitting m) (fuel : Nat) :
    Reads m (eval x fuel s (.call (.name "getattr")
      [.name "io", .str "trace", .nothing] [])) (· = .hostAct .trace) := by
  cases fuel with
  | zero => exact .stop
  | succ fuel =>
    refine (Reads.name (fun v hv => hm.lookup_getattr hv) fuel).bind ?_
    rintro _ rfl
    have hitems : ∀ fuel, Reads m
        (evalItems x fuel s [.name "io", .str "trace", .nothing])
        (· = [.host, .str "trace", .nothing]) := by
      intro fuel
      refine (Reads.items_cons (by nofun) (Reads.name fun v hv => hm.lookup_host hv)
        (.items_cons (by nofun) .str (.items_cons (by nofun) .nothing .items_nil)) fuel).mono ?_
      rintro vs ⟨_, _, rfl, rfl, _, _, rfl, rfl, _, _, rfl, rfl, rfl⟩
      rfl
    refine (Reads.arguments rfl hitems fuel).bind ?_
    rintro ⟨byPosition, byName⟩ ⟨rfl, rfl⟩
    cases fuel with
    | zero => exact .stop
    | succ =>
      show Reads m (evaluate s (Builtin.apply .getattr [.host, .str "trace", .nothing])) _
      exact .evaluate rfl fun v hv => (Except.ok.inj hv).symm

theorem reads_test (hm : w.Fitting m) (fuel : Nat) :
    Reads m (eval x fuel s (.compare (.name "hook") [(.notSame, .nothing)]))
      (· = .bool true) := by
  have hchain : ∀ fuel, Reads m (evalChain x fuel s .nothing []) (· = .bool true) := by
    intro fuel
    cases fuel with
    | zero => exact .stop
    | succ => exact .pure rfl
  cases fuel with
  | zero => exact .stop
  | succ fuel =>
    refine (Reads.name (fun v hv => hm.lookup_hook hv) fuel).bind ?_
    rintro _ rfl
    cases fuel with
    | zero => exact .stop
    | succ fuel =>
      refine (Reads.nothing fuel).bind ?_
      rintro _ rfl
      refine .get_bind ((Reads.orFail fun _ h => (Except.ok.inj h).symm).bind ?_)
      rintro _ rfl
      exact hchain fuel

theorem ends_assignHook (hhook : "hook".toList ∉ k.unbound) {l : Nat} (hm : I.At w m)
    (h : Holds n locals bound "hook" m.frames) (fuel : Nat) :
    I.Ends w (fun w' m' flow => flow = .next ∧ Holds n locals bound "hook" m'.frames ∧
        ∃ v, w' = w ∧ v = Value.hostAct .trace)
      (execNode x fuel s (.action l (.assign [.name "hook"]
        (.call (.name "getattr") [.name "io", .str "trace", .nothing] [])))
        m) := by
  refine Ends.assign hm (fun fuel => ?_) ?_
    (fun _ v h => h.changeVars _ v) fuel
  · refine (Ends.ofReads (reads_hook (I.steady hm).fits fuel) hm).mono (World.le_refl _) ?_
    rintro _ _ _ _ ⟨rfl, rfl, rfl⟩
    exact ⟨h, rfl, rfl⟩
  · rintro _ _ ⟨rfl, rfl⟩
    exact ⟨hhook, mem_singleton.mpr rfl⟩

theorem reads_reportArguments {Q : Value → Prop}
    (h : Holds n locals bound "hook" m.frames) (hline : locals.contains "line" = true)
    (hbound : bound.lookup "line".toList = some (.int line)) (hframe : s.frame = n)
    (hsnapshot : ∀ v, m.lookup n "snapshot" = .ok v → Q v)
    (houtput : ∀ v, m.lookup n "output" = .ok v → O v) (fuel : Nat) :
    Reads m (evalArguments x fuel s f
      [.name "line", .name "snapshot", .name "output"] [])
      fun a => a.byName = [] ∧
        ∃ snapshot output, a.byPosition = [.int line, snapshot, output] ∧ Q snapshot ∧
          O output := by
  have hvalue : ∀ v, m.lookup s.frame "line" = .ok v → v = .int line := by
    intro v hv
    rw [hframe, h.lookup hline (by decide) hbound] at hv
    exact (Except.ok.inj hv).symm
  refine (Reads.arguments rfl (.items_cons (by nofun) (.name hvalue) (.items_cons (by nofun)
    (.name (hframe ▸ hsnapshot)) (.items_cons (by nofun) (.name (hframe ▸ houtput))
      .items_nil))) fuel).mono ?_
  rintro ⟨byPosition, byName⟩ ⟨rfl, _, _, rfl, rfl, snapshot, _, rfl, hQ, output, _, rfl, hO, rfl⟩
  exact ⟨rfl, snapshot, output, rfl, hQ, hO⟩

theorem act_trace_reveals {snapshot output : Value} (hm : I.At w m)
    (hsnapshot : Makes w (valuesOf snapshot) V) (houtput : O output) :
    I.Reveals w (ShowsStep line V O) (act s .trace ⟨[.int line, snapshot, output], []⟩ m) := by
  have hbound : Reads m (evaluate s (bindArguments HostAct.trace.name HostAct.trace.params
      [("output", .str [])] ⟨[.host, .int line, snapshot, output], []⟩))
      (· = [("self".toList, .host), ("line", .int line), ("snapshot", snapshot),
        ("output", output)]) :=
    .evaluate rfl fun _ h => (Except.ok.inj h).symm
  refine .read_bind hbound hm ?_
  rintro _ rfl
  refine .bind (Ends.evaluate hm hsnapshot) fun w' _ m' vs hm' hvs => ?_
  exact .inr ⟨w', m', _, World.le_refl _, hm', ⟨vs, output, rfl, hvs.2, houtput⟩, rfl⟩

theorem single_reveals {S : k.World → Showing → Prop} {node : Node} (hm : I.At w m)
    (h : ∀ fuel, I.Reveals w S (execNode x fuel s node m)) (fuel : Nat) :
    I.Reveals w S (execBlock x fuel s [node] m) := by
  cases fuel with
  | zero => exact .stop hm
  | succ fuel =>
    refine (h fuel).andThen fun flow => ?_
    cases flow with
    | next => exact .block_nil fuel
    | _ => exact .pure

section Body

variable (hframe : s.frame = n) (hline : locals.contains "line".toList = true)
  (hbound : bound.lookup "line".toList = some (.int line))
include hframe hline hbound

theorem hookCall_reveals
    (hsnapshot : ∀ v, m.lookup n "snapshot" = .ok v → Makes w (valuesOf v) V)
    (houtput : ∀ v, m.lookup n "output" = .ok v → O v)
    (hm : I.At w m) (h : Holds n locals bound "hook" m.frames) (fuel : Nat) :
    I.Reveals w (ShowsStep line V O) (eval x fuel s (.call (.name "hook")
      [.name "line", .name "snapshot", .name "output"] []) m) := by
  cases fuel with
  | zero => exact .stop hm
  | succ fuel =>
    refine .read_bind (Reads.name (fun v hv => (I.steady hm).fits.lookup_hook hv) fuel) hm ?_
    rintro _ rfl
    refine .read_bind (reads_reportArguments h hline hbound hframe hsnapshot houtput fuel) hm ?_
    rintro ⟨byPosition, byName⟩ ⟨rfl, snapshot, output, rfl, hvalues, hO⟩
    cases fuel with
    | zero => exact .stop hm
    | succ => exact act_trace_reveals hm hvalues hO

theorem hookChoice_reveals {l l' : Nat}
    (hsnapshot : ∀ v, m.lookup n "snapshot" = .ok v → Makes w (valuesOf v) V)
    (houtput : ∀ v, m.lookup n "output" = .ok v → O v)
    (hm : I.At w m) (h : Holds n locals bound "hook" m.frames) (fuel : Nat) :
    I.Reveals w (ShowsStep line V O) (execNode x fuel s
      (.choice l (.compare (.name "hook") [(.notSame, .nothing)])
        [.action l' (.evaluate (.call (.name "hook")
          [.name "line", .name "snapshot", .name "output"] []))] []) m) := by
  cases fuel with
  | zero => exact .stop hm
  | succ fuel =>
    refine .read_bind (reads_test (I.steady hm).fits fuel) hm ?_
    rintro _ rfl
    refine .read_bind (Reads.get_bind (.pure rfl)) hm ?_
    rintro _ rfl
    refine single_reveals hm (fun fuel => ?_) fuel
    match fuel with
    | 0 | 1 => exact .stop hm
    | fuel + 2 =>
      exact (hookCall_reveals (s := s.at x l') hframe hline hbound hsnapshot houtput hm h
        fuel).andThen fun _ => .pure

theorem tracerBody_reveals (hhook : "hook".toList ∉ k.unbound) {l l' l'' : Nat}
    (hsnapshot : ∀ m, I.At w m → Holds n locals bound "hook" m.frames →
      ∀ v, m.lookup n "snapshot" = .ok v → Makes w (valuesOf v) V)
    (houtput : ∀ m, I.At w m → Holds n locals bound "hook" m.frames →
      ∀ v, m.lookup n "output" = .ok v → O v)
    (hm : I.At w m) (h : Holds n locals bound "hook" m.frames) (fuel : Nat) :
    I.Reveals w (ShowsStep line V O) (execBlock x fuel s (tracerBody l l' l'') m) := by
  cases fuel with
  | zero => exact .stop hm
  | succ fuel =>
    refine .bind (ends_assignHook hhook hm h fuel) ?_
    rintro _ _ m' _ hm' ⟨rfl, h', _, rfl, -⟩
    exact single_reveals hm' (hookChoice_reveals hframe hline hbound (hsnapshot m' hm' h')
      (houtput m' hm' h') hm' h') fuel

end Body

/-! ### Calls of the routine -/

theorem bindArguments_tracer {path : Text} {line snapshot output : Value} {rest : List Value}
    (hrest : rest = [] ∧ output = .str [] ∨ rest = [output]) :
    Makes w (bindArguments path tracerParams [("output", .str [])]
      ⟨line :: snapshot :: rest, []⟩) fun w' bound => w' = w ∧
        bound = [("line".toList, line), ("snapshot", snapshot), ("output", output)] := by
  rcases hrest with ⟨rfl, rfl⟩ | rfl
  · exact .pure ⟨rfl, rfl⟩
  · exact .pure ⟨rfl, rfl⟩

theorem tracer_reveals (htracer : k.tracer.code.isTracer = true)
    (hhook : "hook".toList ∉ k.unbound) {a : Arguments} {B : k.World → List (Text × Value) → Prop}
    (hbind : Makes w (bindArguments k.tracer.code.path tracerParams k.tracer.initials a)
      fun w' bound => (∀ p ∈ bound, w'.Fits p) ∧
        bound.lookup "line".toList = some (.int line) ∧ B w' bound)
    (hsnapshot : ∀ w', w ≤ w' → ∀ bound, B w' bound → ∀ n m, I.At w' m →
      Holds n k.tracer.code.locals bound "hook" m.frames →
        ∀ v, m.lookup n "snapshot" = .ok v → Makes w' (valuesOf v) V)
    (houtput : ∀ w', w ≤ w' → ∀ bound, B w' bound → ∀ n m, I.At w' m →
      Holds n k.tracer.code.locals bound "hook" m.frames →
        ∀ v, m.lookup n "output" = .ok v → O v) (hm : I.At w m) (fuel : Nat) :
    I.Reveals w (ShowsStep line V O) (call x fuel s (.routine k.tracerAt) a m) := by
  simp only [RoutineOf.isTracer, Bool.and_eq_true, Bool.not_eq_true'] at htracer
  obtain ⟨⟨⟨⟨hasync, hyields⟩, hlocal⟩, hparams⟩, hbody⟩ := htracer
  obtain ⟨l, l', l'', hbody⟩ := exists_tracerBody hbody
  replace hparams := eq_tracerParams hparams
  cases fuel with
  | zero => exact .stop hm
  | succ fuel =>
    unfold call
    -- The routine is still at its address, with the statements that it had.
    have hclosure : m.heap.closure? k.tracerAt = some k.tracer := by
      rw [Heap.closure?, (I.steady hm).sound.tracer]
    refine .read_bind (Reads.get_bind (.pure rfl)) hm ?_
    rintro _ rfl
    rw [hclosure]
    dsimp only
    rw [hparams]
    refine .bind (Ends.evaluate hm hbind) fun w' hle m' bound hm' hbound => ?_
    obtain ⟨-, hfits, hline, hB⟩ := hbound
    rw [if_neg (by simp [hyields]), if_neg (by simp [hasync])]
    cases fuel with
    | zero => exact .stop hm'
    | succ fuel =>
      unfold runRoutine
      split
      · exact .inl ⟨⟨_, rfl⟩, w', World.le_refl _, hm'⟩
      · refine .bind (Q := fun w'' m'' n => w'' = w' ∧
          Holds n k.tracer.code.locals bound "hook" m''.frames)
            ⟨w', World.le_refl _, (enterFrame_stays hfits m' hm').1, rfl, .push _ _⟩ ?_
        rintro _ _ m'' n hm'' ⟨rfl, hholds⟩
        rw [hbody]
        -- The step is shown by the statements; only the frame is left after it.
        refine (tracerBody_reveals rfl hlocal hline hhook
          (fun m hm h => hsnapshot _ hle bound hB n m hm h)
          (fun m hm h => houtput _ hle bound hB n m hm h) hm'' hholds fuel).andThen fun flow => ?_
        refine Trails.leaveFrame.bind fun _ => ?_
        cases flow with
        | leftScope => exact .pure
        | _ => exact .pure

end Core.Invariant

end Pseudocode.Run
