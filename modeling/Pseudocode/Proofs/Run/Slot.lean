import Pseudocode.Proofs.Run.Report
import Pseudocode.Proofs.Script.Snapshots

/-!
# The routine that describes a variable

The routine is given a value and a state. It tells both in a dictionary, or
that the variable is without a value; an array is copied first. Only the log
will know the dictionary, so it joins the core as it is made.

* `Machine.outside`: what a routine finds under a name that is not its own.
* `Machine.lacks`: a variable is without a value. Its value is the one that
  the routine finds under `__UNSET`.
* `Atop`: the frames of a caller are as they were, below that of a routine.
* `Core.World.Tells`: a value is a dictionary that only the log knows, with
  one of the two contents.
* `Core.Describing`: the core has the routine.
* `Core.Invariant.slot_ends`: what a call of the routine gives. It leaves
  the variables of its caller as they are.
-/

namespace Pseudocode.Run

open Text Script Realm List

/-- What is told of a variable: its state and its value. -/
def description (state : Text) (v : Value) : List (Value × Value) :=
  [(.str "state", .str state), (.str "value", v)]

def Machine.outside (m : Machine) (c : Closure) (name : Text) : Option Value :=
  if c.code.locals.contains name then none
  else match c.scopes.find? fun n => (m.frames[n]?).any fun f => f.locals.contains name with
    | some n => m.var? n name
    | none => m.var? 0 name <|> builtinValue? name

theorem Machine.outside_congr {m m' : Machine} (h : m'.frames = m.frames) (c : Closure)
    (name : Text) : m'.outside c name = m.outside c name := by
  unfold outside var?
  rw [h]

/-- The value of a variable without one, as the routine that describes
variables finds it. -/
def Machine.unset? (m : Machine) (frame : Nat) : Option Value :=
  match m.lookup frame "__slot" with
  | .ok (.routine a) => (m.heap.closure? a).bind (m.outside · "__UNSET")
  | _ => none

def Machine.lacks (m : Machine) (frame : Nat) (name : Text) : Bool :=
  match m.lookup frame name, m.unset? frame with
  | .ok v, some u => v.same u
  | _, _ => false

/-! ### The frame above those of a caller -/

/-- The frames are those of a caller with that of a routine above them, whose
variables have the values that they had at first, except for one. -/
def Atop (frames : Array Frame) (c : Closure) (vars : List (Text × Value)) (other : Text)
    (fs : Array Frame) : Prop :=
  ∃ f : Frame, fs = frames.push f ∧ f.locals = c.code.locals ∧ f.scopes = c.scopes ∧
    f.kept = false ∧ ∀ t, t ≠ other → f.vars.lookup t = vars.lookup t

namespace Atop

variable {frames : Array Frame} {c : Closure} {vars : List (Text × Value)} {other : Text}
  {m : Machine}

theorem holds {fs : Array Frame} (h : Atop frames c vars other fs) :
    Holds frames.size c.code.locals vars other fs := by
  obtain ⟨f, rfl, hlocals, -, -, hvars⟩ := h
  exact ⟨f, Array.getElem?_push_size, hlocals, hvars⟩

theorem changeVars (h : Atop frames c vars other m.frames)
    (hlocal : c.code.locals.contains other = true) (v : Value) :
    Atop frames c vars other
      (m.changeVars ((m.binder? frames.size other).getD 0) (assign (· == other) other v)).frames := by
  obtain ⟨f, hframes, hlocals, hscopes, hkept, hvars⟩ := h
  have htop : m.frames[frames.size]? = some f := by
    rw [hframes, Array.getElem?_push_size]
  have hbinder : m.binder? frames.size other = some frames.size := by
    rw [Machine.binder?, find?_cons_of_pos]
    rw [htop, Option.any_some, hlocals]
    exact hlocal
  refine ⟨{ f with vars := assign (· == other) other v f.vars }, ?_, hlocals, hscopes, hkept,
    fun t ht => (Holds.lookup_assign_ne ht).trans (hvars t ht)⟩
  rw [hbinder, Option.getD_some, Machine.changeVars, hframes]
  refine Array.ext_getElem? fun i => ?_
  rw [Array.getElem?_modify, Array.getElem?_push, Array.getElem?_push]
  by_cases hi : frames.size = i
  · rw [if_pos hi, if_pos hi.symm, if_pos hi.symm]
    rfl
  · rw [if_neg hi, if_neg (Ne.symm hi), if_neg (Ne.symm hi)]

theorem outside {caller : Machine} (h : Atop caller.frames c vars other m.frames) {name : Text}
    {u : Value} (hname : name ≠ other) (hvars : vars.lookup name = none)
    (hu : m.lookup caller.frames.size name = .ok u) : caller.outside c name = some u := by
  obtain ⟨f, hframes, hlocals, hscopes, -, hsame⟩ := h
  have htop : m.frames[caller.frames.size]? = some f := by
    rw [hframes, Array.getElem?_push_size]
  have hfree : f.vars.lookup name = none := (hsame name hname).trans hvars
  -- The frame on top has no such variable, so each frame has the one it had before.
  have hvar : ∀ n, m.var? n name = caller.var? n name := by
    intro n
    unfold Machine.var?
    rw [hframes, Array.getElem?_push]
    split
    · next hn =>
      rw [hn, Array.getElem?_size]
      exact hfree
    · rfl
  unfold Machine.lookup Machine.binder? at hu
  unfold Machine.outside
  by_cases hlocal : c.code.locals.contains name = true
  · -- A name of its own has no value yet.
    rw [find?_cons_of_pos (by rw [htop, Option.any_some, hlocals]; exact hlocal)] at hu
    have hnone : m.var? caller.frames.size name = none := by
      rw [Machine.var?, htop]
      exact hfree
    simp only [hnone] at hu
    cases hu
  · have hbinds : ∀ n : Nat, ((m.frames[n]?).any fun f => f.locals.contains name) =
        (caller.frames[n]?).any fun f => f.locals.contains name := by
      intro n
      rw [hframes, Array.getElem?_push]
      split
      · next hn =>
        rw [hn, Array.getElem?_size, Option.any_some, hlocals]
        simpa using hlocal
      · rfl
    rw [find?_cons_of_neg (by rw [htop, Option.any_some, hlocals]; exact hlocal), htop,
      Option.map_some, Option.getD_some, hscopes] at hu
    simp only [hbinds, hvar] at hu
    rw [if_neg hlocal]
    cases hfind : c.scopes.find? fun n => (caller.frames[n]?).any fun f =>
      f.locals.contains name with
    | some n =>
      simp only [hfind] at hu ⊢
      cases hv : caller.var? n name with
      | some => exact congrArg some (Except.ok.inj (by simpa only [hv] using hu))
      | none =>
        simp only [hv] at hu
        cases hu
    | none =>
      simp only [hfind] at hu ⊢
      cases hv : (caller.var? 0 name <|> builtinValue? name) with
      | some => exact congrArg some (Except.ok.inj (by simpa only [hv] using hu))
      | none =>
        simp only [hv] at hu
        cases hu

theorem leave (h : Atop frames c vars other m.frames) :
    (leaveFrame frames.size m).2.frames = frames := by
  obtain ⟨f, hframes, -, -, hkept, -⟩ := h
  show (if frames.size + 1 = m.frames.size && !(m.frames[frames.size]?).any Frame.kept then
    { m with frames := m.frames.pop } else m).frames = frames
  rw [hframes]
  simp [hkept]

end Atop

namespace Core

variable {v : Value}

namespace World

variable {k : Core}

def Tells (w : k.World) (lacks : Bool) (state : Text) (v : Value) : Prop :=
  ∃ a u, v = .dict a ∧ (lacks = true → u = .nothing) ∧
    (a, .entries (description (if lacks then "unset" else state) u)) ∈ w.shown

theorem Tells.mono {w w' : k.World} {lacks : Bool} {state : Text} (h : w.Tells lacks state v)
    (hle : w ≤ w') : w'.Tells lacks state v := by
  obtain ⟨a, u, hv, hu, hshown⟩ := h
  exact ⟨a, u, hv, hu, hle.shown _ hshown⟩

theorem dictOf_seals {w : k.World} {n : Nat} (hn : w.size = some n) (state : Text) (u : Value) :
    Makes w (dictOf (description state u)) fun w' v =>
      ∃ a, v = .dict a ∧ (a, .entries (description state u)) ∈ w'.shown := by
  refine .get_bind fun h _ => ?_
  have hentries : (description state u).foldl
      (fun es p => assign (h.matches · p.1) p.1 p.2 es) [] = description state u := by
    rfl
  rw [hentries]
  -- The new object is known to the log only: nothing else has its address yet.
  exact (alloc_seals hn).bind fun _ _ a ha => .pure ⟨a, rfl, ha⟩

end World

structure Describing (k : Core) (c : Closure) : Prop where
  isSlot : c.code.isSlot = true
  initials : c.initials = [("state".toList, .str "value")]
  names : ∀ p ∈ slotParams, k.rules.mayBind p.name = true
  isinstance : "isinstance".toList ∈ k.unbound
  list : "list".toList ∈ k.unbound

namespace Invariant

variable {k : Core} {I : k.Invariant} {w : k.World} {m : Machine} {x : Executable} {s : Site}
variable {l : Nat}
  {n size : Nat} {locals : List Text} {bound : List (Text × Value)} {state : Text} {c : Closure}

/-! ### Parts of the routine -/

theorem reads_entries_nil (fuel : Nat) : Reads m (evalEntries x fuel s []) (· = []) := by
  cases fuel with
  | zero => exact .stop
  | succ => exact .pure rfl

theorem reads_entries_cons {key e : Expr} {rest : List (Option Expr × Expr)} {u : Value}
    {Q : Value → Prop} {R : List (Value × Value) → Prop}
    (hkey : ∀ fuel, Reads m (eval x fuel s key) (· = u)) (he : ∀ fuel, Reads m (eval x fuel s e) Q)
    (hrest : ∀ fuel, Reads m (evalEntries x fuel s rest) R) (fuel : Nat) :
    Reads m (evalEntries x fuel s ((some key, e) :: rest)) fun ps =>
      ∃ v qs, ps = (u, v) :: qs ∧ Q v ∧ R qs := by
  cases fuel with
  | zero => exact .stop
  | succ fuel =>
    refine (hkey fuel).bind ?_
    rintro _ rfl
    exact (he fuel).bind fun v hv => (hrest fuel).bind fun qs hqs => .pure ⟨v, qs, rfl, hv, hqs⟩

theorem reads_builtin {t : Text} (hm : w.Fitting m) (ht : t ∈ k.unbound)
    (hv : builtinValue? t = some v) (fuel : Nat) : Reads m (eval x fuel s (.name t)) (· = v) := by
  refine .name (fun u hu => ?_) fuel
  -- A variable of this name would not fit.
  rcases hm.lookup hu with hfits | hbuiltin
  · exact absurd ht hfits.1
  · exact Option.some.inj (hbuiltin.symm.trans hv)

theorem ends_display {e e' : Expr} {P : Value → Prop} (hm : I.At w m) (hsize : w.size = some size)
    (he : ∀ fuel, Reads m (eval x fuel (s.at x l) e) (· = .str state))
    (he' : ∀ fuel, Reads m (eval x fuel (s.at x l) e') P) (fuel : Nat) :
    I.Ends w (fun w' m' flow => m'.frames = m.frames ∧ ∃ u a, P u ∧ flow = .leftScope (.dict a) ∧
      (a, .entries (description state u)) ∈ w'.shown)
      (execNode x fuel s (.action l (.leaveScope (some
        (.dict [(some (.str "state"), e), (some (.str "value"), e')])))) m) := by
  match fuel with
  | 0 | 1 => exact .stop hm
  | fuel + 2 =>
    refine Ends.bind (Q := fun w' m' v => m'.frames = m.frames ∧ ∃ u a, P u ∧ v = .dict a ∧
      (a, .entries (description state u)) ∈ w'.shown) ?_ ?_
    · match fuel with
      | 0 | 1 => exact .stop hm
      | fuel + 2 =>
        refine .read_bind (reads_entries_cons .str he (reads_entries_cons .str he'
          reads_entries_nil) fuel) hm ?_
        rintro _ ⟨_, _, rfl, rfl, u, _, rfl, hu, rfl⟩
        refine (Ends.evaluate hm (World.dictOf_seals hsize state u)).mono (World.le_refl _) ?_
        rintro _ _ _ _ ⟨hframes, a, rfl, ha⟩
        exact ⟨hframes, u, a, hu, rfl, ha⟩
    · rintro w' _ m' _ hm' ⟨hframes, u, a, hu, rfl, ha⟩
      exact .pure hm' ⟨hframes, u, a, hu, rfl, ha⟩

theorem reads_unsetTest (hv : m.lookup s.frame "value" = .ok v) (fuel : Nat) :
    Reads m (eval x fuel s unsetTest) fun b =>
      ∃ u, m.lookup s.frame "__UNSET" = .ok u ∧ b = .bool (v.same u) := by
  have hchain : ∀ u fuel, Reads m (evalChain x fuel s u []) (· = .bool true) := by
    intro u fuel
    cases fuel with
    | zero => exact .stop
    | succ => exact .pure rfl
  have hvalue : ∀ fuel, Reads m (eval x fuel s (.name "value")) (· = v) := fun fuel =>
    .name (fun v' hv' => (Except.ok.inj (hv.symm.trans hv')).symm) fuel
  match fuel with
  | 0 => exact .stop
  | 1 => exact (hvalue 0).bind fun _ _ => .stop
  | fuel + 2 =>
    refine (hvalue _).bind ?_
    rintro v rfl
    refine (Reads.name (fun _ h => h)
      _).bind fun u hu => ?_
    refine .get_bind ((Reads.orFail fun _ h =>
      (Except.ok.inj h).symm).bind ?_)
    rintro _ rfl
    split
    · next hsame =>
      refine (hchain u fuel).mono ?_
      rintro _ rfl
      exact ⟨u, hu, by rw [hsame]⟩
    · next hsame => exact .pure ⟨u, hu, by rw [Bool.eq_false_iff.mpr hsame]⟩

section Builtins

variable (hk : k.Describing c)
variable {frames : Array Frame}
include hk

theorem reads_arrayTest (hm : w.Fitting m) (fuel : Nat) :
    Reads m (eval x fuel s arrayTest) fun _ => True := by
  cases fuel with
  | zero => exact .stop
  | succ fuel =>
    refine (reads_builtin hm hk.isinstance rfl fuel).bind ?_
    rintro _ rfl
    refine (Reads.arguments rfl (.items_cons (by nofun)
      (.name fun _ _ => trivial) (.items_cons (by nofun) (reads_builtin hm hk.list rfl)
        .items_nil)) fuel).bind ?_
    rintro ⟨byPosition, byName⟩ ⟨rfl, v, _, rfl, -, _, _, rfl, rfl, rfl⟩
    cases fuel with
    | zero => exact .stop
    | succ =>
      unfold call
      -- The test looks at the kind of the value only.
      show Reads m (evaluate s (Builtin.apply .isinstance [v, .builtin .list])) _
      exact .evaluate rfl fun _ _ => trivial

theorem ends_arrayCopy (hm : I.At w m) (fuel : Nat) :
    I.Ends w (fun w' m' v => m'.frames = m.frames ∧ Tame w' v) (eval x fuel s arrayCopy m) := by
  have hvalue : "value".toList ∉ k.hidden :=
    (Rules.mayBind_iff.mp (hk.names ⟨.plain, "value", none, none⟩ (by simp [slotParams]))).1
  cases fuel with
  | zero => exact .stop hm
  | succ fuel =>
    have hfits := (I.steady hm).fits
    refine .read_bind (reads_builtin hfits hk.list rfl fuel) hm ?_
    rintro _ rfl
    refine .read_bind (Reads.arguments rfl (.items_cons (by nofun)
      (.name fun v hv => (hfits.lookup hv).elim (fun h => h.tame hvalue)
        World.tame_builtinValue?) .items_nil) fuel) hm ?_
    rintro ⟨byPosition, byName⟩ ⟨rfl, v, _, rfl, hv, rfl⟩
    cases fuel with
    | zero => exact .stop hm
    | succ =>
      show I.Ends w _ (evaluate s (Builtin.apply .list [v]) m)
      exact Ends.evaluate hm (apply_makes (forall_mem_singleton.mpr hv))

theorem ends_copyArray {l' : Nat} (hframe : s.frame = frames.size)
    (hlocal : c.code.locals.contains "value" = true) (hm : I.At w m)
    (h : Atop frames c bound "value" m.frames) (fuel : Nat) :
    I.Ends w (fun _ m' flow => flow = .next ∧ Atop frames c bound "value" m'.frames)
      (execNode x fuel s (.choice l arrayTest
        [.action l' (.assign [.name "value"] arrayCopy)] []) m) := by
  have hcopy : ∀ fuel, I.Ends w (fun w' m' v => Atop frames c bound "value" m'.frames ∧
      Tame w' v) (eval x fuel (s.at x l') arrayCopy m) := by
    intro fuel
    refine (ends_arrayCopy hk hm fuel).mono (World.le_refl _) ?_
    rintro _ _ _ - ⟨hframes, hv⟩
    exact ⟨hframes ▸ h, hv⟩
  have hfits : ∀ (w' : k.World) v, Tame w' v → w'.Fits ("value", v) := fun _ _ hv =>
    World.fits_of_tame ⟨hk.names ⟨.plain, "value", none, none⟩ (by simp [slotParams]), hv⟩
  refine Ends.choice hm (reads_arrayTest hk (I.steady hm).fits) (fun _ _ _ => ?_)
    (fun _ _ _ => .block_nil hm ⟨rfl, h⟩) fuel
  refine Ends.block_cons hm (Ends.assign hm hcopy hfits fun _ v h => ?_) ?_ ?_
  · rw [hframe]
    exact h.changeVars hlocal v
  · rintro _ - m' hm' ⟨-, h', -⟩
    exact .block_nil hm' ⟨rfl, h'⟩
  · rintro _ _ _ hne ⟨hflow, -⟩
    exact absurd hflow hne

omit hk in
theorem ends_tellUnset (state : Text) {l' : Nat} (hv : m.lookup s.frame "value".toList = .ok v)
    (hsize : w.size = some size) (hm : I.At w m) (fuel : Nat) :
    I.Ends w (fun w' m' flow => ∃ u, m.lookup s.frame "__UNSET".toList = .ok u ∧
        (flow = .next ∧ w' = w ∧ m' = m ∧ v.same u = false ∨
          m'.frames = m.frames ∧ ∃ r, flow = .leftScope r ∧ w'.Tells (v.same u) state r))
      (execNode x fuel s (.choice l unsetTest [.action l' (.leaveScope (some unsetDisplay))] [])
        m) := by
  refine Ends.choice hm (reads_unsetTest hv) ?_ ?_ fuel
  · rintro _ ⟨u, hu, rfl⟩ (hsame : v.same u = true)
    refine Ends.block_cons hm (ends_display hm hsize .str .nothing) ?_ ?_
    · rintro _ _ _ _ ⟨-, _, _, -, hflow, -⟩
      cases hflow
    · rintro w' _ _ - ⟨hframes, _, a, rfl, rfl, ha⟩
      refine ⟨u, hu, .inr ⟨hframes, _, rfl, a, _, rfl, fun _ => rfl, ?_⟩⟩
      rwa [if_pos hsame]
  · rintro _ ⟨u, hu, rfl⟩ (hsame : v.same u = false)
    exact .block_nil hm ⟨u, hu, .inl ⟨rfl, rfl, rfl, hsame⟩⟩

omit hk in
theorem ends_tellValue (hframe : s.frame = frames.size)
    (hlocal : c.code.locals.contains "state".toList = true)
    (hstate : bound.lookup "state".toList = some (.str state)) (hsize : w.size = some size)
    (hm : I.At w m) (h : Atop frames c bound "value" m.frames) (fuel : Nat) :
    I.Ends w (fun w' m' flow => Atop frames c bound "value" m'.frames ∧
        ∃ r, flow = .leftScope r ∧ w'.Tells false state r)
      (execNode x fuel s (.action l (.leaveScope (some valueDisplay))) m) := by
  -- The state is as it was given; only the value was stored again.
  have hread : ∀ v, m.lookup (s.at x l).frame "state".toList = .ok v → v = .str state := by
    intro v hv
    have hlookup := h.holds.lookup hlocal (by decide) hstate
    rw [← hframe] at hlookup
    exact (Except.ok.inj (hlookup.symm.trans hv)).symm
  refine (ends_display (P := fun _ => True) hm hsize (.name hread) (.name fun _ _ => trivial)
    fuel).mono (World.le_refl _) ?_
  rintro _ _ _ - ⟨hframes, u, a, -, rfl, ha⟩
  exact ⟨hframes ▸ h, _, rfl, a, u, rfl, nofun, ha⟩

theorem slotBody_ends {l₁ l₂ l₃ l₄ l₅ : Nat} (hframe : s.frame = frames.size)
    (hvalue : c.code.locals.contains "value" = true)
    (hlocal : c.code.locals.contains "state" = true)
    (hv : m.lookup s.frame "value" = .ok v)
    (hstate : bound.lookup "state".toList = some (.str state)) (hsize : w.size = some size)
    (hm : I.At w m) (h : Atop frames c bound "value" m.frames) (fuel : Nat) :
    I.Ends w (fun w' m' flow => Atop frames c bound "value" m'.frames ∧
        ∃ u r, m.lookup s.frame "__UNSET" = .ok u ∧ flow = .leftScope r ∧
          w'.Tells (v.same u) state r)
      (execBlock x fuel s (slotBody l₁ l₂ l₃ l₄ l₅) m) := by
  -- The copy of an array makes new objects, so the last statement runs in a later world.
  refine Ends.block_cons hm (ends_tellUnset state hv hsize hm) ?_ ?_ fuel
  · rintro _ - _ - ⟨u, hu, ⟨-, rfl, rfl, hsame⟩ | ⟨-, _, hflow, -⟩⟩
    · refine Ends.block_cons hm (ends_copyArray hk hframe hvalue hm h) ?_ ?_
      · rintro w' hle m' hm' ⟨-, h'⟩
        obtain ⟨size', hsize', -⟩ := hle.size _ hsize
        refine Ends.block_cons hm' (ends_tellValue hframe hlocal hstate hsize' hm' h') ?_ ?_
        · rintro _ - _ - ⟨-, _, hflow, -⟩
          cases hflow
        · rintro _ _ _ - ⟨htop, r, hflow, hr⟩
          exact ⟨htop, u, r, hu, hflow, hsame ▸ hr⟩
      · rintro _ _ _ hne ⟨hflow, -⟩
        exact absurd hflow hne
    · cases hflow
  · rintro _ _ _ hne ⟨u, hu, ⟨hflow, -⟩ | ⟨hframes, r, hflow, hr⟩⟩
    · exact absurd hflow hne
    · exact ⟨hframes ▸ h, u, r, hu, hflow, hr⟩

theorem slot_ends {a : Nat} {vs : List Value} (ha : (a, .closure c) ∈ w.shown)
    (hsize : w.size = some size) (hv : Tame w v)
    (hvs : vs = [v] ∧ state = "value" ∨ vs = [v, .str state]) (hm : I.At w m) (fuel : Nat) :
    I.Ends w (fun w' m' r => m'.frames = m.frames ∧
        ∃ u, m.outside c "__UNSET" = some u ∧ w'.Tells (v.same u) state r)
      (call x fuel s (.routine a) ⟨vs, []⟩ m) := by
  have hslot := hk.isSlot
  simp only [RoutineOf.isSlot, Bool.and_eq_true, Bool.not_eq_true'] at hslot
  obtain ⟨⟨⟨⟨⟨hasync, hyields⟩, hvalue⟩, hlocal⟩, hparams⟩, hbody⟩ := hslot
  obtain ⟨l₁, l₂, l₃, l₄, l₅, hbody⟩ := exists_slotBody hbody
  cases fuel with
  | zero => exact .stop hm
  | succ fuel =>
    unfold call
    -- The routine is among what the core keeps, so it is as it was defined.
    have hclosure : m.heap.closure? a = some c := (I.steady hm).sound.closure?_shown ha
    refine .read_bind (Reads.get_bind (.pure rfl)) hm ?_
    rintro _ rfl
    rw [hclosure]
    dsimp only
    rw [eq_slotParams hparams, hk.initials]
    have hbind : Reads m (evaluate s (bindArguments c.code.path slotParams
        [("state", .str "value")] ⟨vs, []⟩))
          (· = [("value".toList, v), ("state", .str state)]) := by
      rcases hvs with ⟨rfl, rfl⟩ | rfl
      · exact .evaluate rfl fun _ h => (Except.ok.inj h).symm
      · exact .evaluate rfl fun _ h => (Except.ok.inj h).symm
    refine .read_bind hbind hm ?_
    rintro _ rfl
    rw [if_neg (by simp [hyields]), if_neg (by simp [hasync])]
    have hfits : ∀ p ∈ [("value".toList, v), ("state", .str state)], w.Fits p := by
      refine forall_mem_cons.mpr ⟨?_, forall_mem_singleton.mpr ?_⟩
      · exact World.fits_of_tame
          ⟨hk.names ⟨.plain, "value", none, none⟩ (by simp [slotParams]), hv⟩
      · exact World.fits_of_tame
          ⟨hk.names ⟨.plain, "state", some (.str "value"), none⟩ (by simp [slotParams]), trivial⟩
    cases fuel with
    | zero => exact .stop hm
    | succ fuel =>
      unfold runRoutine
      split
      · exact ⟨w, World.le_refl _, hm⟩
      · let vars := [("value".toList, v), ("state", Value.str state)]
        refine Ends.bind (Q := fun w' m' n => w' = w ∧ n = m.frames.size ∧
          m'.frames = m.frames.push ⟨vars, c.code.locals, c.scopes, false⟩)
            ⟨w, World.le_refl _, (enterFrame_stays hfits m hm).1, rfl, rfl, rfl⟩ ?_
        rintro _ _ m' _ hm' ⟨rfl, rfl, hframes⟩
        have htop : Atop m.frames c vars "value" m'.frames :=
          ⟨_, hframes, rfl, rfl, rfl, fun _ _ => rfl⟩
        have hfirst : Holds m.frames.size c.code.locals vars "" m'.frames :=
          ⟨_, hframes ▸ Array.getElem?_push_size, rfl, fun _ _ => rfl⟩
        have hgiven : m'.lookup m.frames.size "value" = .ok v :=
          hfirst.lookup hvalue (by decide) rfl
        rw [hbody]
        refine (slotBody_ends hk rfl hvalue hlocal hgiven rfl hsize hm' htop fuel).bind ?_
        rintro w' _ m'' _ hm'' ⟨htop', u, r, hu, rfl, hr⟩
        refine Ends.bind (Q := fun w'' m₃ _ => w'' = w' ∧ m₃.frames = m.frames)
          ⟨w', World.le_refl _, (leaveFrame_stays m'' hm'').1, rfl, htop'.leave⟩ ?_
        rintro _ _ _ _ hlast ⟨rfl, hleft⟩
        exact .pure hlast ⟨hleft, u, htop.outside (by decide) rfl hu, hr⟩

end Builtins

end Invariant

end Core

end Pseudocode.Run
