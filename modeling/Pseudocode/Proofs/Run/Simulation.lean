import Pseudocode.Proofs.Run.Calm
import Pseudocode.Proofs.Script.Outline

/-!
# A run takes a way through the body

The nodes that mirror a body are run, and the counted lines that are
reported are those of a way through the body: to its end if the block
comes to its end, to a `volver` if the routine is left, and the beginning
of a way if the run stops early.

* `Core.Takes`: a computation takes one of some ways.
* `Core.blockTakes_body`: the run of nodes that mirror a body takes one of
  the ways through the body.

A computation that is put together from others takes a way that is put
together in the same way, so there is one rule for each operation on
`Ways`.
-/

namespace Pseudocode.Run

open Text Script Realm List Ways

variable {body rest : List Node} {l : Nat} {node : Node}

namespace Core

variable {ends : Flow → Prop} {nodes : List Node}

/-- From every steady state a computation reports the counted lines of one
of some ways, or the first of them. If it ends in one of the given ways,
they are all of them; the only other end is to leave the routine at a
`volver`. -/
structure Takes (k : Core) (ends : Flow → Prop) (e : Exec Flow) (W : Ways) : Prop where
  inhabited : ∃ ls, W.whole ls
  partly : ∀ m, k.free.Steady m → ∃ ls ls₀, W.whole ls ∧ ls₀ <+: ls ∧
    k.counted (e m).2 = k.counted m ++ ls₀
  wholly : ∀ m, k.free.Steady m → ∀ flow, (e m).1 = .ok flow →
    (∃ v, flow = .leftScope v) ∧ (∃ ls, W.left ls ∧ k.counted (e m).2 = k.counted m ++ ls) ∨
    ends flow ∧ k.free.Steady (e m).2 ∧ ∃ ls, W.whole ls ∧ k.counted (e m).2 = k.counted m ++ ls

def Ends : Flow → Prop := (· = .next)

/-- The block comes to its end or leaves the innermost loop. -/
def EndsOrLeaves (flow : Flow) : Prop :=
  flow = .next ∨ flow = .leftLoop

namespace Takes

variable {k : Core} {ends ends' : Flow → Prop} {e : Exec Flow} {V W : Ways}

theorem mono (h : k.Takes ends e V) (hle : V.Le W) (hends : ∀ flow, ends flow → ends' flow) :
    k.Takes ends' e W where
  inhabited := h.inhabited.imp hle.whole
  partly m hm := by
    obtain ⟨ls, ls₀, hls, hrest⟩ := h.partly m hm
    exact ⟨ls, ls₀, hle.whole ls hls, hrest⟩
  wholly m hm flow hflow := by
    obtain ⟨hleft, ls, hls, hlog⟩ | ⟨hend, hm', ls, hls, hlog⟩ := h.wholly m hm flow hflow
    · exact .inl ⟨hleft, ls, hle.left ls hls, hlog⟩
    · exact .inr ⟨hends flow hend, hm', ls, hle.whole ls hls, hlog⟩

theorem le (h : k.Takes ends e V) (hle : V.Le W) : k.Takes ends e W :=
  h.mono hle fun _ h => h

theorem ofLogs {ls : List Nat}
    (h : k.Logs ls e fun flow => (∃ v, flow = .leftScope v) ∧ W.left ls ∨ ends flow)
    (hls : W.whole ls) : k.Takes ends e W where
  inhabited := ⟨ls, hls⟩
  partly m hm := by
    obtain ⟨-, ⟨ls₀, hls₀, hlog⟩, -⟩ := h m hm
    exact ⟨ls, ls₀, hls, hls₀, hlog⟩
  wholly m hm flow hflow := by
    obtain ⟨hm', -, hok⟩ := h m hm
    obtain ⟨hlog, ⟨hleft, hw⟩ | hend⟩ := hok flow hflow
    · exact .inl ⟨hleft, ls, hw, hlog⟩
    · exact .inr ⟨hend, hm', ls, hls, hlog⟩

theorem only {ls : List Nat} (h : k.Logs ls e ends) : k.Takes ends e (.only ls) :=
  .ofLogs (h.mono fun _ => .inr) rfl

theorem stop {stop : Stop} (h : ∃ ls, W.whole ls) : k.Takes ends (throw stop) W where
  inhabited := h
  partly m _ := by
    obtain ⟨ls, hls⟩ := h
    exact ⟨ls, [], hls, nil_prefix, (append_nil _).symm⟩
  wholly m _ flow hflow := nomatch hflow

theorem calm_bind {α : Type} {Q : α → Prop} {c : Exec α} {f : α → Exec Flow}
    (hW : ∃ ls, W.whole ls) (hc : k.Calm c Q) (hf : ∀ a, Q a → k.Takes ends (f a) W) :
    k.Takes ends (c >>= f) W := by
  refine ⟨hW, fun m hm => ?_, fun m hm flow hflow => ?_⟩
  · obtain ⟨hm', ⟨ls₀, hls₀, hlog⟩, hok⟩ := hc m hm
    obtain rfl := prefix_nil.mp hls₀
    rw [append_nil] at hlog
    rw [bind_apply]
    rcases hcm : c m with ⟨r, m'⟩
    rw [hcm] at hm' hlog hok
    cases r with
    | error =>
      obtain ⟨ls, hls⟩ := hW
      exact ⟨ls, [], hls, nil_prefix, hlog.trans (append_nil _).symm⟩
    | ok a =>
      obtain ⟨ls, ls₀, hls, hpre, hlog'⟩ := (hf a (hok a rfl).2).partly m' hm'
      exact ⟨ls, ls₀, hls, hpre, hlog' ▸ hlog ▸ rfl⟩
  · obtain ⟨hm', ⟨ls₀, hls₀, hlog⟩, hok⟩ := hc m hm
    obtain rfl := prefix_nil.mp hls₀
    rw [append_nil] at hlog
    rw [bind_apply] at hflow ⊢
    rcases hcm : c m with ⟨r, m'⟩
    rw [hcm] at hm' hlog hok hflow
    cases r with
    | error => cases hflow
    | ok a =>
      have hlast := (hf a (hok a rfl).2).wholly m' hm' flow hflow
      rw [← hlog]
      exact hlast

theorem seq {f : Flow → Exec Flow} (he : k.Takes ends' e V) (hW : ∃ ls, W.whole ls)
    (hleft : ∀ v, f (.leftScope v) = pure (.leftScope v))
    (hf : ∀ flow, ends' flow → k.Takes ends (f flow) W) : k.Takes ends (e >>= f) (V.seq W) := by
  obtain ⟨ws, hws⟩ := hW
  obtain ⟨vs, hvs⟩ := he.inhabited
  -- What was reported before the first part stopped is the beginning of
  -- a way, whatever the second part would have reported.
  have hpartly : ∀ m m', k.free.Steady m → (e m).2 = m' → ∃ ls ls₀, (V.seq W).whole ls ∧
      ls₀ <+: ls ∧ k.counted m' = k.counted m ++ ls₀ := by
    rintro m _ hm rfl
    obtain ⟨ls, ls₀, hls, hpre, hlog⟩ := he.partly m hm
    exact ⟨ls ++ ws, ls₀, ⟨ls, ws, hls, hws, rfl⟩, hpre.trans (prefix_append _ _), hlog⟩
  refine ⟨⟨_, vs, ws, hvs, hws, rfl⟩, fun m hm => ?_, fun m hm flow hflow => ?_⟩
  · rw [bind_apply]
    rcases hem : e m with ⟨r, m'⟩
    have hstopped := hpartly m m' hm (by rw [hem])
    cases r with
    | error => exact hstopped
    | ok flow =>
      obtain ⟨⟨v, rfl⟩, -⟩ | ⟨hend, hm', ls, hls, hlog⟩ := he.wholly m hm flow (by rw [hem])
      · simp only [hleft]
        exact hstopped
      · rw [hem] at hm' hlog
        obtain ⟨ls', ls₀, hls', hpre, hlog'⟩ := (hf flow hend).partly m' hm'
        refine ⟨ls ++ ls', ls ++ ls₀, ⟨ls, ls', hls, hls', rfl⟩,
          (prefix_append_right_inj ls).mpr hpre, ?_⟩
        rw [hlog', hlog, append_assoc]
  · rw [bind_apply] at hflow ⊢
    rcases hem : e m with ⟨r, m'⟩
    rw [hem] at hflow
    cases r with
    | error => cases hflow
    | ok flow' =>
      obtain ⟨⟨v, rfl⟩, ls, hls, hlog⟩ | ⟨hend, hm', ls, hls, hlog⟩ :=
        he.wholly m hm flow' (by rw [hem])
      · rw [hem] at hlog
        simp only [hleft] at hflow ⊢
        cases hflow
        exact .inl ⟨⟨v, rfl⟩, ls, .inl hls, hlog⟩
      · rw [hem] at hm' hlog
        have hboth : ∀ ls', k.counted (f flow' m').2 = k.counted m' ++ ls' →
            k.counted (f flow' m').2 = k.counted m ++ (ls ++ ls') := by
          intro ls' hlog'
          rw [hlog', hlog, append_assoc]
        obtain ⟨hleft', ls', hls', hlog'⟩ | ⟨hend', hm'', ls', hls', hlog'⟩ :=
          (hf flow' hend).wholly m' hm' flow hflow
        · exact .inl ⟨hleft', ls ++ ls', .inr ⟨ls, ls', hls, hls', rfl⟩, hboth ls' hlog'⟩
        · exact .inr ⟨hend', hm'', ls ++ ls', ⟨ls, ls', hls, hls', rfl⟩, hboth ls' hlog'⟩

theorem get_bind {f : Machine → Exec Flow} (hW : ∃ ls, W.whole ls)
    (h : ∀ m, k.free.Steady m → k.Takes ends (f m) W) : k.Takes ends (get >>= f) W where
  inhabited := hW
  partly m hm := (h m hm).partly m hm
  wholly m hm := (h m hm).wholly m hm

theorem ite {c : Prop} [Decidable c] {e' : Exec Flow} (he : k.Takes ends e W)
    (he' : k.Takes ends e' W) : k.Takes ends (if c then e else e') W := by
  split
  · exact he
  · exact he'

end Takes

/-! ### Blocks -/

variable {k : Core} {x : Executable} {V W : Ways}

/-- The run of a block takes one of some ways, wherever it stands. -/
def BlockTakes (k : Core) (x : Executable) (ends : Flow → Prop) (nodes : List Node)
    (W : Ways) : Prop :=
  ∀ fuel s, k.Takes ends (execBlock x fuel s nodes) W

theorem BlockTakes.le (h : k.BlockTakes x ends nodes V)
    (hle : V.Le W) : k.BlockTakes x ends nodes W :=
  fun fuel s => (h fuel s).le hle

theorem blockTakes_nil : k.BlockTakes x Ends [] (.only []) := by
  intro fuel s
  cases fuel with
  | zero => exact .stop ⟨[], rfl⟩
  | succ => exact .only (.pure rfl)

theorem blockTakes_cons (hnode : ∀ fuel s, k.Takes Ends (execNode x fuel s node) V)
    (hrest : k.BlockTakes x ends rest W) : k.BlockTakes x ends (node :: rest) (V.seq W) := by
  intro fuel s
  have hW := (hrest 0 s).inhabited
  cases fuel with
  | zero =>
    obtain ⟨vs, hvs⟩ := (hnode 0 s).inhabited
    obtain ⟨ws, hws⟩ := hW
    exact .stop ⟨_, vs, ws, hvs, hws, rfl⟩
  | succ fuel =>
    refine (hnode fuel s).seq hW (fun v => rfl) fun flow hflow => ?_
    obtain rfl : flow = .next := hflow
    exact hrest fuel s

theorem blockTakes_cons_calm (hnode : ∀ fuel s, k.Calm (execNode x fuel s node) (· = .next))
    (hrest : k.BlockTakes x ends rest W) : k.BlockTakes x ends (node :: rest) W :=
  (blockTakes_cons (fun fuel s => .only (hnode fuel s)) hrest).le nil_seq_le

theorem blockTakes_leaving
    (hnode : ∀ fuel s, k.Takes EndsOrLeaves (execNode x fuel s node) (.only []))
    (hrest : k.BlockTakes x Ends rest (.only [])) :
    k.BlockTakes x EndsOrLeaves (node :: rest) (.only []) := by
  intro fuel s
  cases fuel with
  | zero => exact .stop ⟨[], rfl⟩
  | succ fuel =>
    have hseq : k.Takes EndsOrLeaves (execBlock x (fuel + 1) s (node :: rest))
        ((only []).seq (.only [])) := by
      refine (hnode fuel s).seq ⟨[], rfl⟩ (fun v => rfl) fun flow hflow => ?_
      rcases hflow with rfl | rfl
      · exact (hrest fuel s).mono (le_refl _) fun _ => .inl
      · exact .only (.pure (.inr rfl))
    exact hseq.le seq_nil_le

/-! ### Rounds -/

theorem round_takes {e again : Exec Flow} (he : k.Takes EndsOrLeaves e W)
    (hagain : k.Takes Ends again W.rounds) :
    k.Takes Ends (do
      match ← e with
      | .next | .nextRound => again
      | .leftLoop => return .next
      | .leftScope v => return .leftScope v) (W.seq W.rounds) := by
  refine he.seq ⟨[], .nil⟩ (fun v => rfl) fun flow hflow => ?_
  rcases hflow with rfl | rfl
  · exact hagain
  · have hleft : k.Takes Ends (pure .next) (.only []) := .only (.pure rfl)
    exact hleft.le nil_le_rounds

theorem forever_takes (hbody : k.BlockTakes x EndsOrLeaves body W) (fuel : Nat) (s : Site) :
    k.Takes Ends (execWhile x fuel s (.bool true) body []) (W.seq W.rounds) := by
  obtain ⟨ws, hws⟩ := (hbody 0 s).inhabited
  have hany : ∃ ls, (W.seq W.rounds).whole ls := ⟨_, ws, [], hws, .nil, rfl⟩
  induction fuel with
  | zero => exact .stop hany
  | succ fuel ih =>
    cases fuel with
    | zero => exact .stop hany
    | succ fuel => exact round_takes (hbody (fuel + 1) s) (ih.le seq_rounds_le)

theorem foreverNode_takes (hbody : k.BlockTakes x EndsOrLeaves body W) (fuel : Nat) (s : Site) :
    k.Takes Ends (execNode x fuel s (.whileLoop l (.bool true) body [])) (W.seq W.rounds) := by
  cases fuel with
  | zero => exact .stop (forever_takes hbody 0 s).inhabited
  | succ fuel => exact forever_takes hbody fuel _

/-! ### Single nodes -/

/-- If the computation ends, the block goes on. -/
def GoesNext (e : Exec Flow) : Prop :=
  ∀ m flow, (e m).1 = .ok flow → flow = .next

namespace GoesNext

theorem pure : GoesNext (Pure.pure .next) := by
  rintro m flow ⟨⟩
  rfl

theorem stop {stop : Stop} : GoesNext (throw stop) :=
  nofun

theorem bind {α : Type} {e : Exec α} {f : α → Exec Flow} (hf : ∀ a, GoesNext (f a)) :
    GoesNext (e >>= f) := by
  intro m flow hflow
  rw [bind_apply] at hflow
  rcases hem : e m with ⟨r, m'⟩
  rw [hem] at hflow
  cases r with
  | error => cases hflow
  | ok a => exact hf a m' flow hflow

theorem ite {c : Prop} [Decidable c] {e e' : Exec Flow} (he : GoesNext e) (he' : GoesNext e') :
    GoesNext (if c then e else e') := by
  split
  · exact he
  · exact he'

end GoesNext

theorem goesNext_of_mark? {a : Action} (h : a.mark? = none) (fuel : Nat) (s : Site) :
    GoesNext (execAction x fuel s a) := by
  cases fuel with
  | zero => exact .stop
  | succ =>
    match a, h with
    | .evaluate e, _ => exact .bind fun _ => .pure
    | .assign targets e, _ => exact .bind fun _ => .bind fun _ => .pure
    | .annotate target note none, _ => exact .ite (.bind fun _ => .pure) .pure
    | .annotate target note (some e), _ =>
      refine .bind fun _ => .bind fun _ => ?_
      exact .ite (.bind fun _ => .pure) .pure
    | .augment op target e, _ => exact .bind fun _ => .pure
    | .delete targets, _ => exact .bind fun _ => .pure
    | .assert test message, _ =>
      refine .bind fun _ => .bind fun _ => ?_
      split
      · exact .pure
      · exact .bind fun _ => .ite (.bind fun _ => .stop) (.bind fun _ => .bind fun _ => .stop)
    | .raise (some e) cause, _ => exact .bind fun _ => .bind fun _ => .stop
    | .raise none cause, _ => exact .stop
    | .pass, _ => exact .pure

section Nodes

variable (hk : k.Tracing)
variable {test : Expr}
include hk

theorem goesOn_calm (h : node.goesOn k.hidden = true) (fuel : Nat) (s : Site) :
    k.Calm (execNode x fuel s node) (· = .next) := by
  cases node with
  | action l a =>
    simp only [Node.goesOn, Bool.and_eq_true, Option.isNone_iff_eq_none] at h
    have hquiet : a.quiet k.hidden k.lines = true := by
      rw [← h.2]
      cases a with
      | evaluate e =>
        have hreport : e.report? = none := by simpa [Action.mark?] using h.1
        simp only [Action.quiet, hreport]
      | _ => rfl
    cases fuel with
    | zero => exact .stop
    | succ fuel =>
      intro m hm
      obtain ⟨hm', hlog, hok⟩ := action_calm hk hquiet m hm
      exact ⟨hm', hlog, fun flow hflow =>
        ⟨(hok flow hflow).1, goesNext_of_mark? h.1 fuel _ m flow hflow⟩⟩
  | _ => cases h

theorem reports_takes {line : Nat} (h : node.Reports k.hidden line)
    (hline : line ∈ k.lines) (fuel : Nat) (s : Site) :
    k.Takes Ends (execNode x fuel s node) (.only [line]) := by
  obtain ⟨l, e, args, rfl, he, hargs⟩ := h
  match fuel with
  | 0 | 1 => exact .stop ⟨_, rfl⟩
  | fuel + 2 =>
    have hreport : k.Logs ([line].filter k.lines.contains) (eval x fuel (s.at x l) e)
        fun _ => True := step_logs hk he hargs
    rw [filter_cons_of_pos (by simpa using hline)] at hreport
    exact .only (hreport.andThen fun _ _ => .pure rfl)

theorem blockTakes_goOn {front : List Node} (hfront : GoOn k.hidden front)
    (hrest : k.BlockTakes x ends rest W) : k.BlockTakes x ends (front ++ rest) W := by
  induction front with
  | nil => exact hrest
  | cons node front ih =>
    obtain ⟨hnode, hfront⟩ := forall_mem_cons.mp hfront
    exact blockTakes_cons_calm (goesOn_calm hk hnode) (ih hfront)

theorem choice_takes {yes no : List Node} (htest : test.avoids k.hidden = true)
    (hyes : k.BlockTakes x ends yes V) (hno : k.BlockTakes x ends no W) (fuel : Nat) (s : Site) :
    k.Takes ends (execNode x fuel s (.choice l test yes no)) (V.or W) := by
  have hany : ∃ ls, (V.or W).whole ls := (hyes 0 s).inhabited.imp fun _ => .inl
  cases fuel with
  | zero => exact .stop hany
  | succ fuel =>
    refine .calm_bind hany (value_calm hk htest) fun v _ => ?_
    refine .calm_bind hany Logs.isTrue fun _ _ => .ite ?_ ?_
    · exact (hyes fuel s).le le_or_left
    · exact (hno fuel s).le le_or_right

theorem leavesLoop_takes {block : List Node} (h : LeavesLoop k.hidden block) :
    k.BlockTakes x EndsOrLeaves block (.only []) := by
  obtain ⟨front, l, condition, front', l', back', back, rfl, hfront, hcondition, hfront', hback⟩ :=
    h
  have hleave : k.BlockTakes x EndsOrLeaves (.action l' .leaveLoop :: back') (.only []) := by
    intro fuel s
    match fuel with
    | 0 | 1 | 2 => exact .stop ⟨[], rfl⟩
    | fuel + 3 => exact .only (.pure (.inr rfl))
  have hstay : k.BlockTakes x EndsOrLeaves [] (.only []) := fun fuel s =>
    (blockTakes_nil fuel s).mono (le_refl _) fun _ => .inl
  have hback : k.BlockTakes x Ends back (.only []) := by
    have hgoOn := blockTakes_goOn hk hback (blockTakes_nil (x := x))
    rwa [append_nil] at hgoOn
  refine blockTakes_goOn hk hfront (blockTakes_leaving (fun fuel s => ?_) hback)
  refine (choice_takes hk hcondition (blockTakes_goOn hk hfront' hleave) hstay fuel s).le ?_
  exact ⟨fun _ => Or.rec id id, fun _ => Or.rec id id⟩

theorem while_takes (htest : test.avoids k.hidden = true)
    (hbody : k.BlockTakes x EndsOrLeaves body W) (fuel : Nat) (s : Site) :
    k.Takes Ends (execWhile x fuel s test body []) W.rounds := by
  have hany : ∃ ls, W.rounds.whole ls := ⟨[], .nil⟩
  induction fuel with
  | zero => exact .stop hany
  | succ fuel ih =>
    refine .calm_bind hany (value_calm hk htest) fun v _ => ?_
    refine .calm_bind hany Logs.isTrue fun _ _ => .ite ?_ ?_
    · exact (round_takes (hbody fuel s) ih).le seq_rounds_le
    · exact (blockTakes_nil fuel s).le nil_le_rounds

theorem for_takes {target : Expr} (htarget : target.avoids k.hidden = true)
    (hbody : k.BlockTakes x EndsOrLeaves body W) (fuel : Nat) (s : Site) {source : Source}
    (hsource : TameSource k.free source) :
    k.Takes Ends (execFor x fuel s target source body []) W.rounds := by
  have hany : ∃ ls, W.rounds.whole ls := ⟨[], .nil⟩
  induction fuel generalizing source with
  | zero => exact .stop hany
  | succ fuel ih =>
    refine .get_bind hany fun m hm => ?_
    split
    · exact (blockTakes_nil fuel s).le nil_le_rounds
    · next v source' hnext =>
      obtain ⟨hv, hsource'⟩ := TameSource.next? hm.sound hsource hnext
      refine .calm_bind hany (store_calm hk htarget hv) fun _ _ => ?_
      exact (round_takes (hbody fuel s) (ih hsource')).le seq_rounds_le

theorem whileNode_takes (htest : test.avoids k.hidden = true)
    (hbody : k.BlockTakes x EndsOrLeaves body W) (fuel : Nat) (s : Site) :
    k.Takes Ends (execNode x fuel s (.whileLoop l test body [])) W.rounds := by
  cases fuel with
  | zero => exact .stop ⟨[], .nil⟩
  | succ fuel => exact while_takes hk htest hbody fuel _

theorem forNode_takes {target source : Expr}
    (htarget : target.avoids k.hidden = true) (hsource : source.avoids k.hidden = true)
    (hbody : k.BlockTakes x EndsOrLeaves body W) (fuel : Nat) (s : Site) :
    k.Takes Ends (execNode x fuel s (.forLoop l target source body [])) W.rounds := by
  have hany : ∃ ls, W.rounds.whole ls := ⟨[], .nil⟩
  cases fuel with
  | zero => exact .stop hany
  | succ fuel =>
    refine .calm_bind hany (value_calm hk hsource) fun v hv => ?_
    refine .calm_bind hany (Calm.evaluate (sourceOf_safe hv)) fun source hsource => ?_
    exact for_takes hk htarget hbody fuel _ hsource

/-! ### Bodies -/

theorem leaveScope_takes {e : Option Expr} {s : Statement} (hs : s.kind = .returnScope)
    (he : avoidsOption k.hidden e = true) (hrest : k.BlockTakes x ends rest W) :
    k.BlockTakes x ends (.action l (.leaveScope e) :: rest) ((past s).seq W) := by
  intro fuel site
  have hsteps : s.steps = [] := by
    unfold Statement.steps
    rw [hs]
    rfl
  obtain ⟨ws, hws⟩ := (hrest 0 site).inhabited
  match fuel with
  | 0 | 1 | 2 => exact .stop ⟨_, _, ws, rfl, hws, rfl⟩
  | fuel + 3 =>
    have hleft : k.Takes (fun _ => False) (execNode x (fuel + 2) site (.action l (.leaveScope e)))
        (past s) := by
      refine .ofLogs ?_ hsteps.symm
      exact (option_calm hk he).bind fun v _ =>
        .pure (.inl ⟨⟨v, rfl⟩, hs, rfl⟩)
    exact hleft.seq ⟨ws, hws⟩ (fun v => rfl) fun _ h => h.elim

theorem blockTakes_append {b : Body} (h : Mirrors k.hidden b nodes)
    (hlines : ∀ s ∈ b.statements, s.line ∈ k.lines) {post : List Node}
    (hpost : k.BlockTakes x ends post W) : k.BlockTakes x ends (nodes ++ post) (b.ways.seq W) := by
  -- A block alone is a block before nothing.
  have hwhole : ∀ {inner : List Node} {V : Ways},
      k.BlockTakes x Ends (inner ++ []) (V.seq (.only [])) → k.BlockTakes x Ends inner V := by
    intro inner V hinner
    rw [append_nil] at hinner
    exact hinner.le seq_nil_le
  induction h generalizing ends post W with
  | nil => exact hpost.le le_nil_seq
  | skip hnode _ ih => exact blockTakes_cons_calm (goesOn_calm hk hnode) (ih hlines hpost)
  | comment _ ih => exact ih (forall_mem_cons.mp hlines).2 hpost
  | @step s _ _ _ hstep hnode _ ih =>
    obtain ⟨hline, hlines⟩ := forall_mem_cons.mp hlines
    refine (blockTakes_cons (fun fuel site => ?_) (ih hlines hpost)).le seq_assoc_le
    refine (reports_takes hk hnode hline fuel site).le ⟨?_, fun _ h => h.elim⟩
    rintro _ rfl
    exact (if_pos hstep).symm
  | leave hkind he _ ih =>
    refine (leaveScope_takes hk hkind he ?_).le seq_assoc_le
    exact ih (forall_mem_cons.mp hlines).2 hpost
  | other hstep _ ih =>
    have hrest := ih (forall_mem_cons.mp hlines).2 hpost
    exact (hrest.le (le_past_seq hstep)).le seq_assoc_le
  | whileLoop htest _ _ ihBody ihRest =>
    obtain ⟨-, hlines⟩ := forall_mem_cons.mp hlines
    obtain ⟨hbody, hrest⟩ := forall_mem_append.mp hlines
    obtain ⟨-, hrest⟩ := forall_mem_cons.mp hrest
    refine (blockTakes_cons (whileNode_takes hk htest fun fuel s => ?_)
      (ihRest hrest hpost)).le seq_assoc_le
    exact (hwhole (ihBody hbody blockTakes_nil) fuel s).mono le_nil_seq fun _ => .inl
  | forLoop htarget hsource hfront hnode _ _ ihBody ihRest =>
    obtain ⟨hline, hlines⟩ := forall_mem_cons.mp hlines
    obtain ⟨hbody, hrest⟩ := forall_mem_append.mp hlines
    obtain ⟨-, hrest⟩ := forall_mem_cons.mp hrest
    refine (blockTakes_cons (forNode_takes hk htarget hsource fun fuel s => ?_)
      (ihRest hrest hpost)).le seq_assoc_le
    have hround := blockTakes_cons (reports_takes hk hnode hline)
      (hwhole (ihBody hbody blockTakes_nil))
    exact (blockTakes_goOn hk hfront hround fuel s).mono (le_refl _) fun _ => .inl
  | posttest _ hleave _ ihBody ihRest =>
    obtain ⟨-, hlines⟩ := forall_mem_cons.mp hlines
    obtain ⟨hbody, hrest⟩ := forall_mem_append.mp hlines
    obtain ⟨-, hrest⟩ := forall_mem_cons.mp hrest
    refine (blockTakes_cons (foreverNode_takes ?_) (ihRest hrest hpost)).le seq_assoc_le
    exact (ihBody hbody (leavesLoop_takes hk hleave)).le seq_nil_le
  | choice htest _ _ ihYes ihRest =>
    obtain ⟨-, hlines⟩ := forall_mem_cons.mp hlines
    obtain ⟨-, hlines⟩ := forall_mem_append.mp hlines
    obtain ⟨hyes, hrest⟩ := forall_mem_append.mp hlines
    obtain ⟨-, hrest⟩ := forall_mem_cons.mp hrest
    exact (blockTakes_cons (choice_takes hk htest (hwhole (ihYes hyes blockTakes_nil))
      blockTakes_nil) (ihRest hrest hpost)).le seq_assoc_le
  | choiceElse htest _ _ _ ihYes ihNo ihRest =>
    obtain ⟨-, hlines⟩ := forall_mem_cons.mp hlines
    obtain ⟨-, hlines⟩ := forall_mem_append.mp hlines
    obtain ⟨hyes, hlines⟩ := forall_mem_append.mp hlines
    obtain ⟨-, hlines⟩ := forall_mem_cons.mp hlines
    obtain ⟨hno, hrest⟩ := forall_mem_append.mp hlines
    obtain ⟨-, hrest⟩ := forall_mem_cons.mp hrest
    exact (blockTakes_cons (choice_takes hk htest (hwhole (ihYes hyes blockTakes_nil))
      (hwhole (ihNo hno blockTakes_nil))) (ihRest hrest hpost)).le seq_assoc_le

theorem blockTakes_body {b : Body} (h : Mirrors k.hidden b nodes)
    (hlines : ∀ s ∈ b.statements, s.line ∈ k.lines) : k.BlockTakes x Ends nodes b.ways := by
  have htakes := blockTakes_append hk h hlines (blockTakes_nil (x := x))
  rw [append_nil] at htakes
  exact htakes.le seq_nil_le

end Nodes

end Core

end Pseudocode.Run
