import Pseudocode.Proofs.Run.Evaluation

/-!
# Statements keep to a logic

The other half of the induction: collections, calls, targets and
statements. `Logic.Evaluates.succ` puts all steps together.
-/

namespace Pseudocode.Run

open Text Script Realm List Action

namespace Logic.Evaluates

variable {W : Type} [Regime W] {x : Executable} {L : Logic W x} {may : Bool} {w : W} {fuel : Nat}
  {s : Site}

section Step

variable (ih : L.Evaluates fuel)
include ih

/-! ### Collections -/

theorem collect_step (clauses : List (Clause Expr)) (key : Option Expr) (value : Expr)
    (found : List (Value × Value)) (hclauses : ∀ c ∈ clauses, L.code.Clause may c)
    (hkey : ∀ e ∈ key, L.code.expr may e) (hvalue : L.code.expr may value)
    (hfound : TamePairs w found) :
    L.Holds may s.here w (Run.collect x (fuel + 1) s clauses key value found) TamePairs := by
  match clauses, hclauses with
  | [], _ =>
    exact L.bind (ih.option may w s key hkey) fun _ h₁ a ha =>
      L.bind (ih.value hvalue) fun _ h₂ v hv =>
        L.pure (forall_mem_cons.mpr ⟨⟨ha.mono h₂, hv⟩, (hfound.mono h₁).mono h₂⟩)
  | c :: rest, hclauses =>
    obtain ⟨hc, hrest⟩ := forall_mem_cons.mp hclauses
    refine L.bind (ih.value hc.source) fun w₁ h₁ v hv => ?_
    refine L.evaluate_bind (sourceOf_safe hv) fun source hsource => ?_
    exact ih.collectFrom may w₁ s c source rest key value found hc hsource hrest hkey hvalue
      (hfound.mono h₁)

theorem collectFrom_step (c : Clause Expr) (source : Source) (rest : List (Clause Expr))
    (key : Option Expr) (value : Expr) (found : List (Value × Value)) (hc : L.code.Clause may c)
    (hsource : TameSource w source) (hrest : ∀ c ∈ rest, L.code.Clause may c)
    (hkey : ∀ e ∈ key, L.code.expr may e) (hvalue : L.code.expr may value)
    (hfound : TamePairs w found) :
    L.Holds may s.here w (Run.collectFrom x (fuel + 1) s c source rest key value found)
      TamePairs := by
  refine L.look (fun _ _ => rfl) fun m hm => ?_
  split
  · exact L.pure hfound
  · next v source' hnext =>
    obtain ⟨hv, hsource'⟩ := TameSource.next? hm hsource hnext
    refine L.bind (ih.store may w s c.target v hc.target hv) fun w₁ h₁ _ _ => ?_
    refine L.bind (ih.allHold may w₁ s c.conditions hc.conditions) fun w₂ h₂ _ _ => ?_
    have hfound' := (hfound.mono h₁).mono h₂
    have hleft := (hsource'.mono h₁).mono h₂
    refine L.ite (L.bind (ih.collect may w₂ s rest key value found hrest hkey hvalue hfound')
      fun w₃ h₃ more hmore => ?_) ?_
    · exact ih.collectFrom may w₃ s c source' rest key value more hc (hleft.mono h₃) hrest hkey
        hvalue hmore
    · exact ih.collectFrom may w₂ s c source' rest key value found hc hleft hrest hkey hvalue
        hfound'

/-! ### Calls -/

theorem call_step (f : Value) (a : Arguments) (hf : Tame w f) (ha : TameArguments w a) :
    L.Holds may s.here w (Run.call x (fuel + 1) s f a) Tame := by
  cases f with
  | routine =>
    refine L.look (fun _ _ => rfl) fun m hm => ?_
    split
    · exact L.pure trivial
    · next c hc =>
      have hclosure := sound_closure? hm hf hc
      refine L.bind (L.evaluate (bindArguments_tame ha (L.code.params hclosure.admitted)
        hclosure.initials)) fun w₁ h₁ bound hbound => L.ite (L.pure trivial) ?_
      by_cases hasync : c.code.isAsync = true
      · -- A call of such a routine is noted and run when it is waited for.
        rw [if_pos hasync]
        refine L.evaluate ((alloc_makes ?_).bind fun _ _ _ ha => .pure ha)
        have hcall := hclosure.mono h₁
        exact ⟨⟨L.code.call hcall.admitted hasync, hcall.initials, hcall.attributes⟩, hbound⟩
      · rw [if_neg hasync]
        exact L.ofStill (ih.routine false w₁ s c bound
          (L.code.now hclosure.admitted (by simpa using hasync)) hbound)
  | _ => exact L.callOther hf ha

theorem await_step (v : Value) (hv : Tame w v) :
    L.Holds true s.here w (awaitValue x (fuel + 1) s v) Tame := by
  cases v with
  | pending =>
    refine L.bind (L.beginCall hv) fun w₁ _ c? hc => ?_
    cases c? with
    | none => exact L.pure trivial
    | some c =>
      obtain ⟨htarget, hbound⟩ := hc c rfl
      exact ih.routine true w₁ s c.target c.bound (L.code.later htarget.admitted) hbound
  | reading =>
    exact L.look (fun _ _ => rfl) fun m _ => L.bind L.any fun _ _ t _ =>
      L.bind L.read fun w₂ _ d _ => L.evaluate (toValue_makes d w₂)
  | _ => exact L.fail

theorem routine_step (c : Closure) (bound : List (Text × Value))
    (hbody : ∀ n ∈ c.code.body, L.code.node may n) (hbound : TameEntries w bound) :
    L.Holds may s.here w (runRoutine x (fuel + 1) s c bound) Tame := by
  unfold runRoutine
  refine L.guard (L.bind (L.enterFrame hbound) fun w₁ _ n _ => ?_)
  refine L.bind (L.enter (L.ofWithin (ih.block may w₁ (s.callee n) c.code.body hbody)))
    fun w₂ _ flow hflow => ?_
  refine L.bind L.leaveFrame fun w₃ h₃ _ _ => ?_
  cases flow with
  | leftScope => exact L.pure (Tame.mono hflow h₃)
  | _ => exact L.pure trivial

/-! ### Targets -/

theorem store_step (target : Expr) (v : Value) (h : L.code.target may target) (hv : Tame w v) :
    L.Holds may s.here w (Run.store x (fuel + 1) s target v) fun _ _ => True := by
  have hpart : ∀ p ∈ target.targets, L.code.target may p := fun p => L.code.targetPart h
  -- Tuples and lists of targets take a value apart in the same way.
  have hparts : ∀ targets, (∀ p ∈ targets, L.code.target may p) → L.Holds may s.here w (do
      let parts ← Run.evaluate s (partsFor targets v)
      Run.storeAll x fuel s (targets.zip parts)) fun _ _ => True := by
    intro targets htargets
    refine L.bind (L.evaluate (partsFor_makes hv)) fun w₁ _ parts hparts =>
      ih.storeAll may w₁ s _ fun p hp => ?_
    obtain ⟨htarget, hu⟩ := of_mem_zip hp
    exact ⟨htargets p.1 htarget, hparts p.2 hu⟩
  unfold Run.store
  split
  · exact L.storeName (p := (_, v)) ⟨L.code.name h, hv⟩
  · refine L.ofWithin (L.goTo (.store h) ?_)
    exact ih.store may w _ _ v (hpart _ (by simp [Expr.targets])) hv
  · exact ih.store may w s _ v (hpart _ (by simp [Expr.targets])) hv
  · exact L.bind (ih.owner (L.code.targetOwner h)) fun _ h₁ o ho =>
      L.evaluate (.ofSafe (ho.storeAttribute_safe (hv.mono h₁)))
  · obtain ⟨he, hindex⟩ := L.code.targetItem h
    exact L.bind (ih.value he) fun _ h₁ o ho => L.bind (ih.value hindex) fun _ h₂ i hi =>
      L.evaluate (.ofSafe (storeItem_safe (ho.mono h₂) hi ((hv.mono h₁).mono h₂)))
  · exact hparts _ hpart
  · exact hparts _ hpart
  · exact L.pure trivial

theorem storeAll_step (pairs : List (Expr × Value))
    (h : ∀ p ∈ pairs, L.code.target may p.1 ∧ Tame w p.2) :
    L.Holds may s.here w (Run.storeAll x (fuel + 1) s pairs) fun _ _ => True := by
  match pairs, h with
  | [], _ => exact L.pure trivial
  | (target, v) :: rest, h =>
    obtain ⟨⟨htarget, hv⟩, hrest⟩ := forall_mem_cons.mp h
    exact L.bind (ih.store may w s target v htarget hv) fun w₁ h₁ _ _ =>
      ih.storeAll may w₁ s rest fun p hp => ⟨(hrest p hp).1, (hrest p hp).2.mono h₁⟩

theorem delete_step (targets : List Expr) (h : ∀ e ∈ targets, L.code.target may e) :
    L.Holds may s.here w (Run.delete x (fuel + 1) s targets) fun _ _ => True := by
  match targets, h with
  | [], _ => exact L.pure trivial
  | target :: rest, h =>
    obtain ⟨htarget, hrest⟩ := forall_mem_cons.mp h
    have hpart : ∀ p ∈ target.targets, L.code.target may p := fun p => L.code.targetPart htarget
    have hnext : ∀ (w' : W), L.Holds may s.here w' (Run.delete x fuel s rest) fun _ _ => True :=
      fun w' => ih.delete may w' s rest hrest
    unfold Run.delete
    split
    · exact L.bind L.deleteName fun w₁ _ _ _ => hnext w₁
    · refine L.bind (L.ofWithin (L.goTo (.delete htarget) (ih.delete may w _ _ ?_)))
        fun w₁ _ _ _ => hnext w₁
      simpa [Expr.targets] using hpart
    · refine L.bind (ih.owner (L.code.targetOwner htarget)) fun w₁ _ o ho => ?_
      exact L.evaluate_bind ho.deleteAttribute_safe fun _ _ => hnext w₁
    · obtain ⟨he, hindex⟩ := L.code.targetItem htarget
      refine L.bind (ih.value he) fun _ _ o ho => L.bind (ih.value hindex) fun w₂ h₂ i _ => ?_
      exact L.evaluate_bind (deleteItem_safe (ho.mono h₂)) fun _ _ => hnext w₂
    · exact L.bind (ih.delete may w s _ hpart) fun w₁ _ _ _ => hnext w₁
    · exact L.bind (ih.delete may w s _ hpart) fun w₁ _ _ _ => hnext w₁
    · exact L.pure trivial

theorem augment_step (op : BinaryOp) (target e : Expr) (htarget : L.code.target may target)
    (h : L.code.expr may target) (he : L.code.expr may e) :
    L.Holds may s.here w (Run.augment x (fuel + 1) s op target e) fun _ _ => True := by
  have hpart : ∀ p ∈ target.parts, L.code.expr may p := fun p => L.code.part h
  unfold Run.augment
  split
  · refine L.ofWithin (L.goTo (.augment htarget) ?_)
    exact ih.augment may w _ op _ e (L.code.targetPart htarget (by simp [Expr.targets]))
      (hpart _ (by simp [Expr.parts])) he
  · refine L.bind (ih.owner (L.code.owner h)) fun _ _ o ho =>
      L.evaluate_bind ho.attributeOf_safe fun a ha => ?_
    refine L.bind (ih.value he) fun _ h₂ b hb => L.evaluate ?_
    refine (augmented_makes (ha.mono h₂) hb).bind fun _ h₃ v hv => .ofSafe ?_
    exact Owner.storeAttribute_safe (ho.imp_left fun ho => (ho.mono h₂).mono h₃) hv
  · refine L.bind (ih.value (hpart _ (by simp [Expr.parts]))) fun _ _ o ho =>
      L.bind (ih.value (hpart _ (by simp [Expr.parts]))) fun _ h₂ i hi => ?_
    refine L.bind (L.evaluate (itemOf_makes (ho.mono h₂))) fun _ h₃ a ha => ?_
    refine L.bind (ih.value he) fun _ h₄ b hb => L.evaluate ?_
    refine (augmented_makes (ha.mono h₄) hb).bind fun _ h₅ v hv => .ofSafe ?_
    exact storeItem_safe ((((ho.mono h₂).mono h₃).mono h₄).mono h₅)
      (((hi.mono h₃).mono h₄).mono h₅) hv
  · refine L.bind (ih.value h) fun _ _ a ha => L.bind (ih.value he) fun _ h₂ b hb => ?_
    exact L.bind (L.evaluate (augmented_makes (ha.mono h₂) hb)) fun w₃ _ v hv =>
      ih.store may w₃ s _ v htarget hv

/-! ### Statements -/

theorem action_step (a : Action) (hexprs : ∀ e ∈ a.exprs, L.code.expr may e)
    (htargets : ∀ e ∈ a.targets, L.code.target may e) :
    L.Holds may s.here w (execAction x (fuel + 1) s a) TameFlow := by
  match a, hexprs, htargets with
  | .evaluate e, hexprs, _ =>
    exact L.bind (ih.value (hexprs e (by simp [exprs]))) fun _ _ _ _ => L.pure trivial
  | .assign targets e, hexprs, htargets =>
    refine L.bind (ih.value (hexprs e (by simp [exprs]))) fun w₁ _ v hv => ?_
    refine L.bind (ih.storeAll may w₁ s _ fun p hp => ?_) fun _ _ _ _ => L.pure trivial
    obtain ⟨target, htarget, rfl⟩ := mem_map.mp hp
    exact ⟨htargets target htarget, hv⟩
  | .annotate target note e, hexprs, htargets =>
    have hrest : ∀ w : W, L.Holds may s.here w (if s.frame = 0 then do
        let _ ← Run.eval x fuel s note
        return Flow.next
      else return Flow.next) TameFlow := fun w =>
      L.ite (L.bind (ih.value (hexprs note (by simp [exprs]))) fun _ _ _ _ => L.pure trivial)
        (L.pure trivial)
    cases e with
    | none => exact hrest w
    | some e =>
      refine L.bind (ih.value (hexprs e (by simp [exprs]))) fun w₁ _ v hv => ?_
      exact L.bind (ih.store may w₁ s target v (htargets target (by simp [targets])) hv)
        fun w₂ _ _ _ => hrest w₂
  | .augment op target e, hexprs, htargets =>
    exact L.bind (ih.augment may w s op target e (htargets target (by simp [targets]))
      (hexprs target (by simp [exprs])) (hexprs e (by simp [exprs])))
        fun _ _ _ _ => L.pure trivial
  | .delete targets, _, htargets =>
    exact L.bind (ih.delete may w s targets htargets) fun _ _ _ _ => L.pure trivial
  | .assert test message, hexprs, _ =>
    simp only [exprs, mem_cons, Option.mem_toList] at hexprs
    refine L.bind (ih.value (hexprs test (.inl rfl))) fun w₁ _ v _ => L.isTrue_bind fun _ =>
      L.ite (L.pure trivial) ?_
    refine L.bind (ih.option may w₁ s message fun e he => hexprs e (.inr he)) fun _ _ m hm => ?_
    exact L.ite L.fail (L.look (fun _ _ => rfl) fun _ _ => L.bind L.any fun _ _ _ _ => L.fail)
  | .raise (some e) cause, hexprs, _ =>
    exact L.bind (ih.value (hexprs e (by simp [exprs]))) fun _ _ v _ =>
      L.look (fun _ _ => rfl) fun m _ => L.fail
  | .raise none cause, _, _ => exact L.fail
  | .leaveLoop, _, _ | .nextRound, _, _ | .pass, _, _ => exact L.pure trivial
  | .leaveScope e, hexprs, _ =>
    refine L.bind (ih.option may w s e fun e' he => hexprs e' ?_) fun _ _ v hv => L.pure hv
    simpa [exprs] using he

theorem block_step (nodes : List Node) (h : ∀ n ∈ nodes, L.code.node may n) :
    L.Holds may s.within w (execBlock x (fuel + 1) s nodes) TameFlow := by
  match nodes, h with
  | [], _ => exact L.pure trivial
  | node :: rest, h =>
    obtain ⟨hnode, hrest⟩ := forall_mem_cons.mp h
    refine L.bind (ih.node may w s node hnode) fun w₁ _ flow hflow => ?_
    cases flow with
    | next => exact ih.block may w₁ s rest hrest
    | leftScope => exact L.pure hflow
    | _ => exact L.pure trivial

theorem node_step (node : Node) (h : L.code.node may node) :
    L.Holds may s.within w (execNode x (fuel + 1) s node) TameFlow := by
  refine L.goTo (.node h) ?_
  match node, h with
  | .action line a, h =>
    rcases L.code.action h with h | h
    · exact ih.special may w _ a h
    · exact ih.action may w _ a h.1 h.2
  | .choice line test body otherwise, h =>
    obtain ⟨htest, hbody, hotherwise⟩ := L.code.choice h
    exact L.bind (ih.value htest) fun w₁ _ v _ => L.isTrue_bind fun _ =>
      L.ite (L.ofWithin (ih.block may w₁ s body hbody))
        (L.ofWithin (ih.block may w₁ s otherwise hotherwise))
  | .whileLoop line test body otherwise, h =>
    obtain ⟨htest, hbody, hotherwise⟩ := L.code.whileLoop h
    exact ih.whileLoop may w _ test body otherwise htest hbody hotherwise
  | .forLoop line target source body otherwise, h =>
    obtain ⟨htarget, hsource, hbody, hotherwise⟩ := L.code.forLoop h
    refine L.bind (ih.value hsource) fun w₁ _ v hv => ?_
    refine L.evaluate_bind (sourceOf_safe hv) fun source hsource => ?_
    exact ih.forLoop may w₁ _ target source body otherwise htarget hsource hbody hotherwise
  | .guarded line body handlers otherwise final, h =>
    obtain ⟨hbody, hhandlers, hotherwise, hfinal⟩ := L.code.guarded h
    refine L.ofWithin (L.attempt (ih.guarded w (s.at x line) body handlers otherwise hbody hhandlers
      hotherwise) (fun w₁ _ flow hflow => ?_) fun w₁ _ stop hstop => ?_)
    -- The last block has the final word, unless it just comes to its end.
    · refine L.bind (ih.block may w₁ _ final hfinal) fun _ h₂ flow' hflow' => ?_
      cases flow' with
      | next => exact L.pure (hflow.mono h₂)
      | _ => exact L.pure hflow'
    · cases stop with
      | outOfFuel => exact L.stop L.outOfFuel
      | _ =>
        refine L.bind (ih.block may w₁ _ final hfinal) fun _ _ flow' hflow' => ?_
        cases flow' with
        | next => exact L.stop hstop
        | _ => exact L.pure hflow'
  | .define line r, h =>
    obtain ⟨hparams, hnotes, hroutine, hname⟩ := L.code.define h
    refine L.bind (ih.initials may w _ _ (binds_initialExprs hparams)) fun w₁ _ initials hinitials =>
      L.bind (ih.values hnotes) fun w₂ h₂ _ _ => ?_
    refine L.bind (L.newRoutine hroutine fun p hp => (hinitials p hp).mono h₂) fun _ _ f hf => ?_
    exact L.bind (L.storeName (p := (r.name, f)) ⟨hname, hf⟩) fun _ _ _ _ => L.pure trivial

theorem whileLoop_step (test : Expr) (body otherwise : List Node) (htest : L.code.expr may test)
    (hbody : ∀ n ∈ body, L.code.node may n) (hotherwise : ∀ n ∈ otherwise, L.code.node may n) :
    L.Holds may s.here w (execWhile x (fuel + 1) s test body otherwise) TameFlow := by
  refine L.bind (ih.value htest) fun w₁ _ v _ => L.isTrue_bind fun _ => ?_
  refine L.ite (L.bind (L.ofWithin (ih.block may w₁ s body hbody)) fun w₂ _ flow hflow => ?_)
    (L.ofWithin (ih.block may w₁ s otherwise hotherwise))
  cases flow with
  | next | nextRound => exact ih.whileLoop may w₂ s test body otherwise htest hbody hotherwise
  | leftLoop => exact L.pure trivial
  | leftScope => exact L.pure hflow

theorem forLoop_step (target : Expr) (source : Source) (body otherwise : List Node)
    (htarget : L.code.target may target) (hsource : TameSource w source)
    (hbody : ∀ n ∈ body, L.code.node may n) (hotherwise : ∀ n ∈ otherwise, L.code.node may n) :
    L.Holds may s.here w (execFor x (fuel + 1) s target source body otherwise) TameFlow := by
  refine L.look (fun _ _ => rfl) fun m hm => ?_
  split
  · exact L.ofWithin (ih.block may w s otherwise hotherwise)
  · next v source' hnext =>
    obtain ⟨hv, hsource'⟩ := TameSource.next? hm hsource hnext
    refine L.bind (ih.store may w s target v htarget hv) fun w₁ h₁ _ _ => ?_
    refine L.bind (L.ofWithin (ih.block may w₁ s body hbody)) fun w₂ h₂ flow hflow => ?_
    cases flow with
    | next | nextRound =>
      exact ih.forLoop may w₂ s target source' body otherwise htarget
        ((hsource'.mono h₁).mono h₂) hbody hotherwise
    | leftLoop => exact L.pure trivial
    | leftScope => exact L.pure hflow

theorem guarded_step (body : List Node) (handlers : List (HandlerOf Node))
    (otherwise : List Node) (hbody : ∀ n ∈ body, L.code.node false n)
    (hhandlers : ∀ h ∈ handlers, L.code.handler h)
    (hotherwise : ∀ n ∈ otherwise, L.code.node false n) :
    L.Holds false s.within w (execGuarded x (fuel + 1) s body handlers otherwise) TameFlow := by
  refine L.attempt (ih.block false w s body hbody) (fun w₁ _ flow hflow => ?_)
    fun w₁ _ stop hstop => ih.handle w₁ s stop handlers hstop hhandlers
  cases flow with
  | next => exact ih.block false w₁ s otherwise hotherwise
  | _ => exact L.pure hflow

/-- What is done once it is known whether a handler is for the fault. -/
theorem handler_step {stop : Stop} {line : Nat} {kind : Option Expr} {name : Option Text}
    {body : List Node} {rest : List (HandlerOf Node)} (hstop : L.Stops s.within stop)
    (h : L.code.handler ⟨line, kind, name, body⟩) (hrest : ∀ h ∈ rest, L.code.handler h)
    (found : Bool) : L.Holds false (s.at x line).here w (if found then
        match name with
        | some name => do
          let v ← Run.evaluate (s.at x line) stop.value
          Run.storeName (s.at x line) name v
          let flow ← execBlock x fuel (s.at x line) body
          let _ ← Run.attempt (Run.deleteName (s.at x line) name)
          return flow
        | none => execBlock x fuel (s.at x line) body
      else Run.handle x fuel (s.at x line) stop rest) TameFlow := by
  obtain ⟨-, hname, hbody⟩ := L.code.handled h
  refine L.ite ?_ (L.ofWithin (ih.handle w (s.at x line) stop rest hstop hrest))
  cases name with
  | none => exact L.ofWithin (ih.block false w _ body hbody)
  | some name =>
    refine L.bind (L.evaluate stopValue_makes) fun w₁ _ v hv => ?_
    refine L.bind (L.storeName (p := (name, v)) ⟨hname name rfl, hv⟩) fun w₂ _ _ _ => ?_
    refine L.bind (L.ofWithin (ih.block false w₂ _ body hbody)) fun _ _ flow hflow => ?_
    exact L.attempt L.deleteName (fun _ h₄ _ _ => L.pure (hflow.mono h₄))
      fun _ h₄ _ _ => L.pure (hflow.mono h₄)

theorem handle_step (stop : Stop) (handlers : List (HandlerOf Node)) (hstop : L.Stops s.within stop)
    (h : ∀ h ∈ handlers, L.code.handler h) :
    L.Holds false s.within w (Run.handle x (fuel + 1) s stop handlers) TameFlow := by
  cases handlers with
  | nil => exact L.stop hstop
  | cons handler rest =>
    obtain ⟨line, kind, name, body⟩ := handler
    obtain ⟨hhandler, hrest⟩ := forall_mem_cons.mp h
    refine L.goTo (.handle hhandler) ?_
    unfold Run.handle
    dsimp only
    split
    · exact handler_step ih hstop hhandler hrest false
    · exact handler_step ih hstop hhandler hrest true
    · next e _ =>
      refine L.bind (ih.value ((L.code.handled hhandler).1 e rfl)) fun w₁ _ v _ =>
        L.look (fun _ _ => rfl) fun m _ => ?_
      exact L.bind L.any fun w₂ _ found _ => handler_step ih hstop hhandler hrest found

end Step

theorem succ (ih : L.Evaluates fuel) (hspecial : ∀ may w s a, L.code.Special a →
    L.Holds may s.here w (execAction x (fuel + 1) s a) TameFlow) : L.Evaluates (fuel + 1) where
  eval _ _ _ := ih.answers_step
  host _ _ _ := host_step
  option _ _ _ := ih.option_step
  items _ _ _ := ih.items_step
  entries _ _ _ := ih.entries_step
  arguments _ _ _ := ih.arguments_step
  named _ _ _ := ih.named_step
  initials _ _ _ := ih.initials_step
  chain _ _ _ := ih.chain_step
  parts _ _ _ := ih.parts_step
  formatted _ _ _ := ih.formatted_step
  allHold _ _ _ := ih.allHold_step
  collect _ _ _ := ih.collect_step
  collectFrom _ _ _ := ih.collectFrom_step
  call _ _ _ := ih.call_step
  await _ _ := ih.await_step
  routine _ _ _ := ih.routine_step
  store _ _ _ := ih.store_step
  storeAll _ _ _ := ih.storeAll_step
  delete _ _ _ := ih.delete_step
  augment _ _ _ := ih.augment_step
  special := hspecial
  action _ _ _ := ih.action_step
  block _ _ _ := ih.block_step
  node _ _ _ := ih.node_step
  whileLoop _ _ _ := ih.whileLoop_step
  forLoop _ _ _ := ih.forLoop_step
  guarded _ _ := ih.guarded_step
  handle _ _ := ih.handle_step

end Logic.Evaluates

theorem Logic.evaluates {W : Type} [Regime W] {x : Executable} (L : Logic W x)
    (h : ∀ a, ¬ L.code.Special a) (fuel : Nat) : L.Evaluates fuel := by
  induction fuel with
  | zero => exact .zero
  | succ fuel ih => exact ih.succ fun _ _ _ a ha => absurd ha (h a)

end Pseudocode.Run
