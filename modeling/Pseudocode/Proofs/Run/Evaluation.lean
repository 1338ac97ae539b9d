import Pseudocode.Proofs.Run.Logic

/-!
# Expressions keep to a logic

The evaluators are mutually recursive, so what they do with code that
keeps to the conditions of a logic and with tame values is proved for all
of them at once, by induction on the bound of the recursion. A value that
was computed in one world is used in later ones.

* `Logic.Evaluates`: what they do, for one bound.
* `Logic.Evaluates.zero` and one lemma for each evaluator, which makes the
  step. Statements that are looked at by themselves are not among them.
-/

namespace Pseudocode.Run

open Text Script Realm List

namespace Realm

variable {W : Type} [Realm W]

/-- The value of an expression is tame; that of a numeral is its
number. -/
def Answers (e : Expr) (w : W) (v : Value) : Prop :=
  Tame w v ∧ ∀ n, e = .int n → v = .int n

/-- The values of some expressions are tame; if the first one is a
numeral, its value is the number. -/
def AnswersAll (es : List Expr) (w : W) (vs : List Value) : Prop :=
  AllTame w vs ∧ ∀ n rest, es = .int n :: rest → ∃ us, vs = .int n :: us

theorem AnswersAll.mono {w w' : W} {es : List Expr} {vs : List Value}
    (h : AnswersAll es w vs) (hle : w ≤ w') : AnswersAll es w' vs :=
  ⟨h.1.mono hle, h.2⟩

abbrev TameNamed (w : W) (ps : List (Text × Value)) : Prop :=
  ∀ p ∈ ps, Tame w p.2

def TameFlow (w : W) : Flow → Prop
  | .leftScope v => Tame w v
  | _ => True

theorem TameFlow.mono {w w' : W} {flow : Flow} (h : TameFlow w flow) (hle : w ≤ w') :
    TameFlow w' flow := by
  cases flow with
  | leftScope => exact Tame.mono h hle
  | _ => trivial

end Realm

theorem exists_param_of_mem {params : List (Param Expr)} {p : Text × Expr}
    (h : p ∈ initialExprs params) : ∃ q ∈ params, q.name = p.1 ∧ q.initial = some p.2 := by
  obtain ⟨q, hq, hp⟩ := mem_filterMap.mp h
  obtain ⟨e, he, rfl⟩ := Option.map_eq_some_iff.mp hp
  refine ⟨q, ?_, rfl, he⟩
  rcases mem_append.mp hq with hq | hq <;> exact (mem_filter.mp hq).1

/-- A clause of a collection keeps to the conditions. -/
structure Grammar.Clause {W : Type} [Realm W] (G : Grammar W) (may : Bool)
    (c : Clause Expr) : Prop where
  target : G.target may c.target
  source : G.expr may c.source
  conditions : ∀ e ∈ c.conditions, G.expr may e

namespace Logic

variable {W : Type} [Regime W] {x : Executable} {L : Logic W x} {may : Bool} {w : W} {fuel : Nat}
  {s : Site}

/-- What the evaluators do with code that keeps to the conditions and with
tame values, for one bound of the recursion. -/
structure Evaluates (L : Logic W x) (fuel : Nat) : Prop where
  eval : ∀ may w s e, L.code.expr may e → L.Holds may s.here w (eval x fuel s e) (Answers e)
  host : ∀ may w s, ¬ Host W →
    L.Holds may s.here w (Run.eval x fuel s (.name "io")) fun _ v => v = .host
  option : ∀ may w s e, (∀ e' ∈ e, L.code.expr may e') →
    L.Holds may s.here w (evalOption x fuel s e) Tame
  items : ∀ may w s es, (∀ e ∈ es, L.code.expr may e) →
    L.Holds may s.here w (evalItems x fuel s es) (AnswersAll es)
  entries : ∀ may w s es, (∀ e ∈ (Expr.dict es).parts, L.code.expr may e) →
    L.Holds may s.here w (evalEntries x fuel s es) TamePairs
  arguments : ∀ may w s f args named, (∀ e ∈ args, L.code.expr may e) →
    (∀ p ∈ named, L.code.expr may p.2) → L.Holds may s.here w (evalArguments x fuel s f args named)
      fun w' a => AnswersAll args w' a.byPosition ∧ TameNamed w' a.byName ∧
        (named = [] → a.byName = [])
  named : ∀ may w s f named, (∀ p ∈ named, L.code.expr may p.2) →
    L.Holds may s.here w (evalNamed x fuel s f named) fun w' ps =>
      TameNamed w' ps ∧ (named = [] → ps = [])
  initials : ∀ may w s es, (∀ p ∈ es, Binds W p.1 ∧ L.code.expr may p.2) →
    L.Holds may s.here w (evalInitials x fuel s es) TameEntries
  chain : ∀ may w s v rest, (∀ p ∈ rest, L.code.expr may p.2) →
    L.Holds may s.here w (evalChain x fuel s v rest) Tame
  parts : ∀ may w s es, (∀ e ∈ es, L.code.expr may e) →
    L.Holds may s.here w (evalParts x fuel s es) fun _ _ => True
  formatted : ∀ may w s e conversion format, L.code.expr may e →
    (∀ e' ∈ format, L.code.expr may e') →
      L.Holds may s.here w (evalFormatted x fuel s e conversion format) fun _ _ => True
  allHold : ∀ may w s es, (∀ e ∈ es, L.code.expr may e) →
    L.Holds may s.here w (allHold x fuel s es) fun _ _ => True
  collect : ∀ may w s clauses key value found, (∀ c ∈ clauses, L.code.Clause may c) →
    (∀ e ∈ key, L.code.expr may e) → L.code.expr may value → TamePairs w found →
      L.Holds may s.here w (collect x fuel s clauses key value found) TamePairs
  collectFrom : ∀ may w s c source rest key value found, L.code.Clause may c →
    TameSource w source → (∀ c ∈ rest, L.code.Clause may c) →
      (∀ e ∈ key, L.code.expr may e) → L.code.expr may value → TamePairs w found →
        L.Holds may s.here w (collectFrom x fuel s c source rest key value found) TamePairs
  call : ∀ may w s f a, Tame w f → TameArguments w a → L.Holds may s.here w (call x fuel s f a) Tame
  await : ∀ w s v, Tame w v → L.Holds true s.here w (awaitValue x fuel s v) Tame
  routine : ∀ may w s c bound, (∀ n ∈ c.code.body, L.code.node may n) → TameEntries w bound →
    L.Holds may s.here w (runRoutine x fuel s c bound) Tame
  store : ∀ may w s target v, L.code.target may target → Tame w v →
    L.Holds may s.here w (store x fuel s target v) fun _ _ => True
  storeAll : ∀ may w s pairs, (∀ p ∈ pairs, L.code.target may p.1 ∧ Tame w p.2) →
    L.Holds may s.here w (storeAll x fuel s pairs) fun _ _ => True
  delete : ∀ may w s targets, (∀ e ∈ targets, L.code.target may e) →
    L.Holds may s.here w (delete x fuel s targets) fun _ _ => True
  augment : ∀ may w s op target e, L.code.target may target → L.code.expr may target →
    L.code.expr may e → L.Holds may s.here w (augment x fuel s op target e) fun _ _ => True
  special : ∀ may w s a, L.code.Special a → L.Holds may s.here w (execAction x fuel s a) TameFlow
  action : ∀ may w s a, (∀ e ∈ a.exprs, L.code.expr may e) →
    (∀ e ∈ a.targets, L.code.target may e) → L.Holds may s.here w (execAction x fuel s a) TameFlow
  block : ∀ may w s nodes, (∀ n ∈ nodes, L.code.node may n) →
    L.Holds may s.within w (execBlock x fuel s nodes) TameFlow
  node : ∀ may w s n, L.code.node may n → L.Holds may s.within w (execNode x fuel s n) TameFlow
  whileLoop : ∀ may w s test body otherwise, L.code.expr may test →
    (∀ n ∈ body, L.code.node may n) → (∀ n ∈ otherwise, L.code.node may n) →
      L.Holds may s.here w (execWhile x fuel s test body otherwise) TameFlow
  forLoop : ∀ may w s target source body otherwise, L.code.target may target →
    TameSource w source → (∀ n ∈ body, L.code.node may n) →
      (∀ n ∈ otherwise, L.code.node may n) →
        L.Holds may s.here w (execFor x fuel s target source body otherwise) TameFlow
  guarded : ∀ w s body handlers otherwise, (∀ n ∈ body, L.code.node false n) →
    (∀ h ∈ handlers, L.code.handler h) → (∀ n ∈ otherwise, L.code.node false n) →
      L.Holds false s.within w (execGuarded x fuel s body handlers otherwise) TameFlow
  handle : ∀ w s stop handlers, L.Stops s.within stop → (∀ h ∈ handlers, L.code.handler h) →
    L.Holds false s.within w (handle x fuel s stop handlers) TameFlow

namespace Evaluates

theorem zero : L.Evaluates 0 := by
  constructor <;> intros <;> exact L.stop L.outOfFuel

theorem binds_initialExprs {params : List (Param Expr)}
    (h : ∀ p ∈ params, Binds W p.name ∧ ∀ e ∈ p.initial, L.code.expr may e) :
    ∀ p ∈ initialExprs params, Binds W p.1 ∧ L.code.expr may p.2 := by
  intro p hp
  obtain ⟨q, hq, hname, he⟩ := exists_param_of_mem hp
  exact ⟨hname ▸ (h q hq).1, (h q hq).2 _ he⟩

section Step

variable (ih : L.Evaluates fuel)
include ih

/-! ### Expressions -/

theorem value {e : Expr} (h : L.code.expr may e) :
    L.Holds may s.here w (Run.eval x fuel s e) Tame :=
  L.mono (ih.eval may w s e h) fun _ _ _ hv => hv.1

theorem values {es : List Expr} (h : ∀ e ∈ es, L.code.expr may e) :
    L.Holds may s.here w (evalItems x fuel s es) AllTame :=
  L.mono (ih.items may w s es h) fun _ _ _ hv => hv.1

theorem owner {e : Expr} {name : Text} (h : AsksHost W e name ∨ L.code.expr may e) :
    L.Holds may s.here w (Run.eval x fuel s e) fun w' => Owner w' name := by
  -- The host itself may be asked for acts that may be known.
  rcases h with ⟨hhost, hhidden, hacts⟩ | h
  · unfold Expr.isHost at hhost
    split at hhost
    · obtain rfl := eq_of_beq hhost
      exact L.mono (ih.host may w s hhidden) fun _ v _ hv => .inr ⟨hv, hacts⟩
    · cases hhost
  · exact L.mono (ih.value h) fun _ v _ hv => .inl hv

theorem collection_step {kind : Collection} {key : Option Expr} {value : Expr}
    {clauses : List (Clause Expr)} {locals : List Text}
    (h : L.code.expr may (.collect kind key value clauses locals)) :
    L.Holds may s.here w (Run.eval x (fuel + 1) s (.collect kind key value clauses locals))
      Tame := by
  have hparts : ∀ e ∈ (Expr.collect kind key value clauses locals).parts, L.code.expr may e :=
    fun e => L.code.part h
  simp only [Expr.parts, mem_append, mem_cons, mem_flatMap, Option.mem_toList]
    at hparts
  have hclauses : ∀ c ∈ clauses, L.code.Clause may c := fun c hc =>
    ⟨L.code.clause h hc, hparts _ (.inr (.inr ⟨c, hc, .inl rfl⟩)),
      fun e he => hparts e (.inr (.inr ⟨c, hc, .inr he⟩))⟩
  cases clauses with
  | nil => exact L.pure trivial
  | cons c rest =>
    obtain ⟨hc, hrest⟩ := forall_mem_cons.mp hclauses
    refine L.bind (ih.value hc.source) fun w₁ _ v hv => ?_
    refine L.evaluate_bind (sourceOf_safe hv) fun source hsource => ?_
    -- The targets of the clauses are bound in a frame of their own.
    refine L.look (fun _ _ => rfl) fun m _ => L.bind (L.enterFrame (forall_mem_nil _)) fun w₂ h₂ n _ => ?_
    refine L.bind (L.enter (ih.collectFrom may w₂ (s.callee n) c source rest key value [] hc
      (hsource.mono h₂) hrest (fun e he => hparts e (.inl he)) (hparts _ (.inr (.inl rfl)))
        (forall_mem_nil _))) fun w₃ _ found hfound => ?_
    exact L.bind L.leaveFrame fun _ h₄ _ _ => L.evaluate (gathered_makes (hfound.mono h₄))

theorem eval_step (e : Expr) (h : L.code.expr may e) :
    L.Holds may s.here w (Run.eval x (fuel + 1) s e) Tame := by
  have hpart : ∀ p ∈ e.parts, L.code.expr may p := fun p => L.code.part h
  match e, h with
  | .collect kind key value clauses locals, h => exact ih.collection_step h
  | .name t, h => exact L.lookup h
  | .located line e, h =>
    exact L.ofWithin (L.goTo (.eval h) (ih.value (hpart e (by simp [Expr.parts]))))
  | .tuple items, _ =>
    exact L.bind (ih.values hpart) fun _ _ vs hvs => L.evaluate (newTuple_makes hvs)
  | .list items, _ =>
    exact L.bind (ih.values hpart) fun _ _ vs hvs =>
      L.evaluate (newList_makes fun v hv => hvs v (mem_toArray.mp hv))
  | .set items, _ => exact L.bind (ih.values hpart) fun _ _ vs hvs => L.evaluate (newSet_makes hvs)
  | .dict entries, _ =>
    exact L.bind (ih.entries may w s entries hpart) fun _ _ ps hps => L.evaluate (dictOf_makes hps)
  | .spread e, _ => exact ih.value (hpart e (by simp [Expr.parts]))
  | .attribute e name, h =>
    exact L.bind (ih.owner (L.code.owner h)) fun _ _ v hv =>
      L.evaluate (.ofSafe hv.attributeOf_safe)
  | .item e index, _ =>
    exact L.bind (ih.value (hpart e (by simp [Expr.parts]))) fun _ _ v hv =>
      L.bind (ih.value (hpart index (by simp [Expr.parts]))) fun _ h₂ i _ =>
        L.evaluate (itemOf_makes (hv.mono h₂))
  | .slice low high step, _ =>
    simp only [Expr.parts, mem_append, Option.mem_toList] at hpart
    refine L.bind (ih.option may w s low fun e he => hpart e (.inl (.inl he))) fun w₁ _ l hl =>
      L.bind (ih.option may w₁ s high fun e he => hpart e (.inl (.inr he))) fun w₂ h₂ u hu =>
        L.bind (ih.option may w₂ s step fun e he => hpart e (.inr he)) fun w₃ h₃ v hv =>
          L.evaluate ?_
    refine (alloc_makes ?_).bind fun _ _ _ ha => .pure ha
    simpa [TameObject] using ⟨(hl.mono h₂).mono h₃, hu.mono h₃, hv⟩
  | .call callee args named, _ =>
    simp only [Expr.parts, mem_append, mem_cons, mem_map] at hpart
    refine L.bind (ih.value (hpart callee (.inl (.inl rfl)))) fun w₁ _ f hf => ?_
    exact L.bind (ih.arguments may w₁ s f args named (fun e he => hpart e (.inl (.inr he)))
      fun p hp => hpart p.2 (.inr ⟨p, hp, rfl⟩)) fun w₂ h₂ a ha =>
        ih.call may w₂ s f a (hf.mono h₂) ⟨ha.1.1, ha.2.1⟩
  | .unary op e, _ =>
    exact L.bind (ih.value (hpart e (by simp [Expr.parts]))) fun _ _ v hv =>
      L.evaluate (.ofSafe (signed_safe hv))
  | .binary op left right, _ =>
    exact L.bind (ih.value (hpart left (by simp [Expr.parts]))) fun _ _ a ha =>
      L.bind (ih.value (hpart right (by simp [Expr.parts]))) fun _ h₂ b hb =>
        L.evaluate (binary_makes (ha.mono h₂) hb)
  | .compare first rest, _ =>
    simp only [Expr.parts, mem_cons, mem_map] at hpart
    exact L.bind (ih.value (hpart first (.inl rfl))) fun w₁ _ v _ =>
      ih.chain may w₁ s v rest fun p hp => hpart p.2 (.inr ⟨p, hp, rfl⟩)
  | .and left right, _ =>
    exact L.bind (ih.value (hpart left (by simp [Expr.parts]))) fun _ _ v hv =>
      L.isTrue_bind fun _ => L.ite (ih.value (hpart right (by simp [Expr.parts]))) (L.pure hv)
  | .or left right, _ =>
    exact L.bind (ih.value (hpart left (by simp [Expr.parts]))) fun _ _ v hv =>
      L.isTrue_bind fun _ => L.ite (L.pure hv) (ih.value (hpart right (by simp [Expr.parts])))
  | .not e, _ =>
    exact L.bind (ih.value (hpart e (by simp [Expr.parts]))) fun _ _ v _ =>
      L.isTrue_bind fun _ => L.pure trivial
  | .choice test yes no, _ =>
    exact L.bind (ih.value (hpart test (by simp [Expr.parts]))) fun _ _ v _ =>
      L.isTrue_bind fun _ => L.ite (ih.value (hpart yes (by simp [Expr.parts])))
        (ih.value (hpart no (by simp [Expr.parts])))
  | .lambda path params locals body, h =>
    obtain ⟨hparams, hroutine⟩ := L.code.lambda h
    exact L.bind (ih.initials may w s _ (binds_initialExprs hparams)) fun _ _ initials hinitials =>
      L.newRoutine hroutine hinitials
  | .store name e, h =>
    refine L.bind (ih.value (hpart e (by simp [Expr.parts]))) fun _ _ v hv => ?_
    exact L.bind (L.storeName (p := (name, v)) ⟨L.code.store h, hv⟩) fun _ h₂ _ _ =>
      L.pure (hv.mono h₂)
  | .await e, h =>
    exact L.bind (ih.value (hpart e (by simp [Expr.parts]))) fun w₁ _ v hv =>
      L.ofWaiting (L.code.await h) (ih.await w₁ s v hv)
  | .template parts, _ => exact L.bind (ih.parts may w s parts hpart) fun _ _ _ _ => L.pure trivial
  | .formatted e conversion format, _ =>
    simp only [Expr.parts, mem_cons, Option.mem_toList] at hpart
    exact L.bind (ih.formatted may w s e conversion format (hpart e (.inl rfl))
      fun e he => hpart e (.inr he)) fun _ _ _ _ => L.pure trivial
  | .nothing, _ | .bool _, _ | .int _, _ | .float _, _ | .str _, _ | .bytes _, _
  | .imaginary _, _ | .ellipsis, _ | .yield _, _ => exact L.pure trivial

theorem answers_step (e : Expr) (h : L.code.expr may e) :
    L.Holds may s.here w (Run.eval x (fuel + 1) s e) (Answers e) := by
  by_cases hint : ∃ n, e = .int n
  · obtain ⟨n, rfl⟩ := hint
    exact L.pure ⟨trivial, fun m hm => by cases hm; rfl⟩
  · exact L.mono (ih.eval_step e h) fun _ v _ hv => ⟨hv, fun n hn => absurd ⟨n, hn⟩ hint⟩

omit ih in
theorem host_step (h : ¬ Host W) :
    L.Holds may s.here w (Run.eval x (fuel + 1) s (.name "io".toList)) fun _ v => v = .host := by
  unfold Run.eval
  exact L.host h

theorem option_step (e : Option Expr) (h : ∀ e' ∈ e, L.code.expr may e') :
    L.Holds may s.here w (evalOption x (fuel + 1) s e) Tame := by
  cases e with
  | none => exact L.pure trivial
  | some e => exact ih.value (h e rfl)

theorem items_step (es : List Expr) (h : ∀ e ∈ es, L.code.expr may e) :
    L.Holds may s.here w (evalItems x (fuel + 1) s es) (AnswersAll es) := by
  cases es with
  | nil => exact L.pure ⟨forall_mem_nil _, by simp⟩
  | cons e rest =>
    obtain ⟨he, hrest⟩ := forall_mem_cons.mp h
    refine L.bind (ih.eval may w s e he) fun w₁ _ v hv => ?_
    -- A numeral is not spread, so a first numeral gives the first value.
    split
    · next hbare =>
      refine L.evaluate_bind (spreadValues_safe hv.1) fun vs hvs => ?_
      refine L.bind (ih.values hrest) fun _ h₂ us hus => L.pure ⟨?_, ?_⟩
      · exact forall_mem_append.mpr ⟨hvs.mono h₂, hus⟩
      · rintro n _ ⟨⟩
        cases hbare
    · show L.Holds may s.here w₁ (do return [v] ++ (← evalItems x fuel s rest)) _
      refine L.bind (ih.values hrest) fun _ h₂ us hus => L.pure ⟨?_, ?_⟩
      · exact forall_mem_cons.mpr ⟨hv.1.mono h₂, hus⟩
      · rintro n _ ⟨⟩
        exact ⟨us, by rw [hv.2 n rfl]; rfl⟩

theorem entries_step (es : List (Option Expr × Expr))
    (h : ∀ e ∈ (Expr.dict es).parts, L.code.expr may e) :
    L.Holds may s.here w (evalEntries x (fuel + 1) s es) TamePairs := by
  rcases es with _ | ⟨⟨_ | key, e⟩, rest⟩
  · exact L.pure (forall_mem_nil _)
  · obtain ⟨he, hrest⟩ : L.code.expr may e ∧ ∀ e ∈ (Expr.dict rest).parts, L.code.expr may e := by
      simpa [Expr.parts] using h
    refine L.bind (ih.value he) fun w₁ _ v hv => ?_
    split
    · refine L.look (fun _ _ => rfl) fun m hm => ?_
      exact L.bind (ih.entries may w₁ s rest hrest) fun _ h₂ ps hps =>
        L.pure (forall_mem_append.mpr ⟨TamePairs.mono (sound_entries hm hv) h₂, hps⟩)
    · exact L.fail
  · obtain ⟨hkey, he, hrest⟩ : L.code.expr may key ∧ L.code.expr may e ∧
        ∀ e ∈ (Expr.dict rest).parts, L.code.expr may e := by
      simpa [Expr.parts] using h
    refine L.bind (ih.value hkey) fun _ _ a ha => L.bind (ih.value he) fun w₂ h₂ v hv => ?_
    exact L.bind (ih.entries may w₂ s rest hrest) fun _ h₃ ps hps =>
      L.pure (forall_mem_cons.mpr ⟨⟨(ha.mono h₂).mono h₃, hv.mono h₃⟩, hps⟩)

/-- Arguments by name come after those by position. -/
theorem namedArguments_step (f : Value) {args : List Expr} {named : List (Option Text × Expr)}
    (hnamed : ∀ p ∈ named, L.code.expr may p.2) {vs : List Value} (hvs : AnswersAll args w vs) :
    L.Holds may s.here w (do
      let byName ← evalNamed x fuel s f named
      match repeatedName? byName with
      | some name =>
        let callee := (← get).heap.calleeText f
        Run.fail s (.other .type
          (callee ++ " got multiple values for keyword argument '" ++ name ++ "'"))
      | none => return ⟨vs, byName⟩) fun w' (a : Arguments) =>
        AnswersAll args w' a.byPosition ∧ TameNamed w' a.byName ∧
          (named = [] → a.byName = []) := by
  refine L.bind (ih.named may w s f named hnamed) fun _ h₂ ps hps => ?_
  split
  · exact L.look (fun _ _ => rfl) fun m _ => L.fail
  · exact L.pure ⟨hvs.mono h₂, hps.1, hps.2⟩

theorem arguments_step (f : Value) (args : List Expr) (named : List (Option Text × Expr))
    (hargs : ∀ e ∈ args, L.code.expr may e) (hnamed : ∀ p ∈ named, L.code.expr may p.2) :
    L.Holds may s.here w (evalArguments x (fuel + 1) s f args named) fun w' a =>
      AnswersAll args w' a.byPosition ∧ TameNamed w' a.byName ∧ (named = [] → a.byName = []) := by
  unfold evalArguments
  split
  · next e hlone =>
    -- The only argument is spread, so it is no numeral.
    unfold loneSpread? at hlone
    split at hlone
    · next e' =>
      split at hlone
      · next e'' hbare =>
        obtain rfl := Option.some.inj hlone
        have he : L.code.expr may e'' := by
          have hspread := L.code.expr_bare (hargs e' (by simp))
          rw [hbare] at hspread
          exact L.code.part hspread (by simp [Expr.parts])
        refine L.bind (ih.value he) fun w₁ _ v hv => L.look (fun _ _ => rfl) fun m _ => ?_
        refine L.evaluate_bind (.tryCatch (valuesOf_safe hv) fun _ => .fail) fun vs hvs =>
          namedArguments_step ih f hnamed ⟨hvs, ?_⟩
        rintro n _ ⟨⟩
        cases hbare
      · cases hlone
    · cases hlone
  · exact L.bind (ih.items may w s args hargs) fun _ _ _ => namedArguments_step ih f hnamed

theorem named_step (f : Value) (named : List (Option Text × Expr))
    (h : ∀ p ∈ named, L.code.expr may p.2) :
    L.Holds may s.here w (evalNamed x (fuel + 1) s f named) fun w' ps =>
      TameNamed w' ps ∧ (named = [] → ps = []) := by
  match named, h with
  | [], _ => exact L.pure ⟨nofun, fun _ => rfl⟩
  | (some name, e) :: rest, h =>
    obtain ⟨he, hrest⟩ := forall_mem_cons.mp h
    refine L.bind (ih.value he) fun w₁ _ v hv => L.bind (ih.named may w₁ s f rest hrest)
      fun _ h₂ ps hps => L.pure ?_
    exact ⟨forall_mem_cons.mpr ⟨hv.mono h₂, hps.1⟩, nofun⟩
  | (none, e) :: rest, h =>
    obtain ⟨he, hrest⟩ := forall_mem_cons.mp h
    refine L.bind (ih.value he) fun w₁ _ v hv => L.look (fun _ _ => rfl) fun m _ => ?_
    refine L.evaluate_bind (namedEntries_safe hv) fun ps hps => ?_
    refine L.bind (ih.named may w₁ s f rest hrest) fun _ h₂ qs hqs => L.pure ?_
    exact ⟨forall_mem_append.mpr ⟨fun p hp => (hps p hp).mono h₂, hqs.1⟩, nofun⟩

theorem initials_step (es : List (Text × Expr)) (h : ∀ p ∈ es, Binds W p.1 ∧ L.code.expr may p.2) :
    L.Holds may s.here w (evalInitials x (fuel + 1) s es) TameEntries := by
  match es, h with
  | [], _ => exact L.pure nofun
  | (name, e) :: rest, h =>
    obtain ⟨⟨hname, he⟩, hrest⟩ := forall_mem_cons.mp h
    refine L.bind (ih.value he) fun w₁ _ v hv => L.bind (ih.initials may w₁ s rest hrest)
      fun _ h₂ ps hps => L.pure ?_
    exact forall_mem_cons.mpr ⟨⟨hname, hv.mono h₂⟩, hps⟩

theorem chain_step (v : Value) (rest : List (CompareOp × Expr))
    (h : ∀ p ∈ rest, L.code.expr may p.2) :
    L.Holds may s.here w (evalChain x (fuel + 1) s v rest) Tame := by
  match rest, h with
  | [], _ => exact L.pure trivial
  | (op, e) :: rest, h =>
    obtain ⟨he, hrest⟩ := forall_mem_cons.mp h
    refine L.bind (ih.value he) fun w₁ _ b hb => L.look (fun _ _ => rfl) fun m _ =>
      L.bind L.any fun w₂ _ holds _ => ?_
    exact L.ite (ih.chain may w₂ s b rest hrest) (L.pure trivial)

theorem parts_step (es : List Expr) (h : ∀ e ∈ es, L.code.expr may e) :
    L.Holds may s.here w (evalParts x (fuel + 1) s es) fun _ _ => True := by
  match es, h with
  | [], _ => exact L.pure trivial
  | e :: rest, h =>
    obtain ⟨he, hrest⟩ := forall_mem_cons.mp h
    refine L.bind (ih.value he) fun w₁ _ v hv => L.look (fun _ _ => rfl) fun m _ =>
      L.bind L.any fun w₂ _ t _ => ?_
    exact L.bind (ih.parts may w₂ s rest hrest) fun _ _ _ _ => L.pure trivial

theorem layout_step (format : Option Expr) (hformat : ∀ e' ∈ format, L.code.expr may e')
    (heap : Heap) (v : Value) : L.Holds may s.here w (do
      let layout ← evalOption x fuel s format
      Run.orFail s (heap.formatted v (match layout with
        | .str t => t
        | _ => []))) fun _ _ => True :=
  L.bind (ih.option may w s format hformat) fun _ _ _ _ => L.any

theorem formatted_step (e : Expr) (conversion : Conversion) (format : Option Expr)
    (he : L.code.expr may e) (hformat : ∀ e' ∈ format, L.code.expr may e') :
    L.Holds may s.here w (evalFormatted x (fuel + 1) s e conversion format) fun _ _ => True := by
  refine L.bind (ih.value he) fun w₁ _ v hv => L.look (fun _ _ => rfl) fun m _ => ?_
  split
  · exact layout_step ih format hformat _ _
  all_goals exact L.bind L.any fun _ _ t _ => layout_step ih format hformat _ _

theorem allHold_step (es : List Expr) (h : ∀ e ∈ es, L.code.expr may e) :
    L.Holds may s.here w (Run.allHold x (fuel + 1) s es) fun _ _ => True := by
  match es, h with
  | [], _ => exact L.pure trivial
  | e :: rest, h =>
    obtain ⟨he, hrest⟩ := forall_mem_cons.mp h
    exact L.bind (ih.value he) fun w₁ _ v _ => L.isTrue_bind fun _ =>
      L.ite (ih.allHold may w₁ s rest hrest) (L.pure trivial)

end Step

end Evaluates

end Logic

end Pseudocode.Run
