import Mathlib.Data.List.Induction
import Pseudocode.Proofs.Flow.Degrees

/-!
# The chart of a body that is cut off

A body that stops inside its blocks still gets a chart: the constructs
that are open at the end are closed there. Closing one adds edges from
the current node and from what the construct holds, so every node keeps a
way to the end as long as these are the nodes where the parts of the body
ended.

There is one place where they are not. A `repetir` that is closed without
its test is connected from the current node and does not count as a first
node. If it stands directly in a loop that tests first and has no node
yet, that loop then takes its body for empty, and the node after the
`repetir` is left without an edge.

* `Open.closing`, `closeInnermost_eq`: what closing a construct adds.
* `Builder.Steady`: what holds whenever the pass has read a part of a nested
  body. Every node has a way to the current one, or to one that an open
  construct holds, or is the one that a construct will be left by.
* `Phase`: where a cut stands as far as it matters; `Traced` ties it to the
  state of the pass, and `follows_statements` goes through a nested body.
-/

namespace Pseudocode

namespace Flow

open List Open Relation.ReflTransGen Builder Chart

variable {c : Open} {cs outer : List Open} {n : Nat}

/-! ### What closing a construct does -/

namespace Open

/-- The node, beside the end of the part that is being read, from which
closing the construct adds an edge. -/
def held : Open → List Nat
  | .branch decision _ inElse _ thenLast elseLast =>
    [if inElse then thenLast.getD decision else elseLast.getD decision]
  | .pretest _ decision _ _ => [decision]
  | .posttest .. => []

/-- The end of the branch that is being read. -/
def branchTip : Open → Option Nat
  | .branch decision _ inElse _ thenLast elseLast =>
    some (if inElse then elseLast.getD decision else thenLast.getD decision)
  | _ => none

@[simp] theorem held_served (c : Open) : c.served.held = c.held := by
  cases c <;> rfl

@[simp] theorem held_enter (n : Nat) (c : Open) : (c.enter n).held = c.held := by
  cases c with
  | branch | pretest => rfl
  | posttest after entry => cases entry <;> rfl

@[simp] theorem held_record (n : Nat) (c : Open) : (c.record n).held = c.held := by
  cases c with
  | branch decision join inElse => cases inElse <;> rfl
  | pretest | posttest => rfl

theorem branchTip_record {m : Nat} (h : (c.record n).branchTip = some m) : m = n := by
  cases c with
  | branch decision join inElse =>
    cases inElse <;> simpa [record, branchTip] using h.symm
  | pretest | posttest => simp [record, branchTip] at h

@[simp] theorem map_held_recordTop (n : Nat) (cs : List Open) :
    (recordTop n cs).map held = cs.map held := by
  cases cs with
  | nil => rfl
  | cons => simp [recordTop]

@[simp] theorem map_held_advance (f l : Nat) (cs : List Open) :
    (advance f l cs).map held = cs.map held := by
  rw [advance, map_held_recordTop, map_map, ← map_servedAll held held_served cs]
  exact map_congr_left fun c _ => held_enter f c

/-- Closing leads from every node that the construct holds to the node
after it, and from the current node too, if that is where the part being
read ends: the end of a branch, or the head of a loop without a body. -/
theorem reaches_exit_of_closing {g : Chart} (c : Open) {current : Nat}
    (hedges : ∀ e ∈ c.closing current, e ∈ g.edges) (htip : ∀ n, c.branchTip = some n → current = n)
    (hempty : ∀ counted decision after, c = .pretest counted decision after true →
      current = decision) : g.Reaches current c.exit ∧ ∀ m ∈ c.held, g.Reaches m c.exit := by
  cases c with
  | branch decision join inElse awaiting thenLast elseLast =>
    have hend : ∀ (kind : EdgeKind) (last : Option Nat),
        (branchEnd (decision, kind) last).1 = last.getD decision := by
      intro kind last
      cases last <;> rfl
    simp only [closing, forall_mem_cons] at hedges
    have hthen : g.Reaches (thenLast.getD decision) join :=
      hend .yes thenLast ▸ reaches_of_mem hedges.1
    have helse : g.Reaches (elseLast.getD decision) join :=
      hend .no elseLast ▸ reaches_of_mem hedges.2.1
    rw [htip _ rfl]
    cases inElse with
    | true => exact ⟨helse, by simpa [held, exit] using hthen⟩
    | false => exact ⟨hthen, by simpa [held, exit] using helse⟩
  | pretest counted decision after awaiting =>
    simp only [closing, forall_mem_cons] at hedges
    have hout : g.Reaches decision after := reaches_of_mem hedges.2.1
    refine ⟨?_, by simpa [held, exit] using hout⟩
    cases awaiting with
    | true =>
      rw [hempty counted decision after rfl]
      exact hout
    | false =>
      have hback : g.Reaches current decision := reaches_of_mem hedges.1
      exact trans hback hout
  | posttest =>
    refine ⟨?_, by simp [held]⟩
    exact reaches_of_mem (hedges _ (mem_singleton.2 rfl))

end Open

/-! ### Where a cut stands -/

/-- Where a cut stands: directly behind the head of a loop that tests
first, comments left out; directly behind such a head and one or more
`repetir`; or somewhere else. -/
inductive Phase where
  | elsewhere
  | atHead
  | inRepeat
deriving DecidableEq, Repr

/-- The place of the cut after one more statement. -/
def Phase.step (p : Phase) (s : Statement) : Phase :=
  match s.kind with
  | .comment => p
  | .whileLoop | .forLoop => .atHead
  | .repeatLoop => if p = .elsewhere then .elsewhere else .inRepeat
  | _ => .elsewhere

/-- The statements end with the head of a loop that tests first, one or
more `repetir`, and otherwise only comments. -/
def CutInRepeat (xs : List Statement) : Prop :=
  ∃ before head inside, xs = before ++ head :: inside ∧
    (head.kind = .whileLoop ∨ head.kind = .forLoop) ∧
      (∀ s ∈ inside, s.kind = .comment ∨ s.kind = .repeatLoop) ∧
        ∃ s ∈ inside, s.kind = .repeatLoop

namespace Phase

theorem step_comment (p : Phase) {s : Statement} (h : s.kind = .comment) : p.step s = p := by
  rw [step, h]

theorem step_repeat (p : Phase) {s : Statement} (h : s.kind = .repeatLoop) :
    p.step s = if p = .elsewhere then .elsewhere else .inRepeat := by
  rw [step, h]

theorem step_head (p : Phase) {s : Statement} (h : s.kind = .whileLoop ∨ s.kind = .forLoop) :
    p.step s = .atHead := by
  rcases h with h | h <;> rw [step, h]

theorem foldl_step_inside {inside : List Statement} {p : Phase} (hp : p ≠ .elsewhere)
    (h : ∀ s ∈ inside, s.kind = .comment ∨ s.kind = .repeatLoop) :
    inside.foldl step p = .inRepeat ∨
      inside.foldl step p = p ∧ ∀ s ∈ inside, s.kind = .comment := by
  induction inside generalizing p with
  | nil => exact .inr ⟨rfl, by simp⟩
  | cons s rest ih =>
    rw [forall_mem_cons] at h
    rw [foldl_cons]
    rcases h.1 with hs | hs
    · rw [step_comment p hs]
      rcases ih hp h.2 with hrest | ⟨hrest, hall⟩
      · exact .inl hrest
      · exact .inr ⟨hrest, forall_mem_cons.2 ⟨hs, hall⟩⟩
    · rw [step_repeat p hs, if_neg hp]
      rcases ih (p := .inRepeat) (by decide) h.2 with hrest | ⟨hrest, -⟩
      · exact .inl hrest
      · exact .inl hrest

theorem exists_head_of_foldl_step (xs : List Statement)
    (h : xs.foldl step .elsewhere ≠ .elsewhere) :
    ∃ before head inside, xs = before ++ head :: inside ∧
      (head.kind = .whileLoop ∨ head.kind = .forLoop) ∧
        (∀ s ∈ inside, s.kind = .comment ∨ s.kind = .repeatLoop) ∧
          (xs.foldl step .elsewhere = .inRepeat → ∃ s ∈ inside, s.kind = .repeatLoop) := by
  -- By the last statement: it keeps the place, or is a head, or leads out of every loop.
  induction xs using reverseRecOn with
  | nil => exact absurd rfl h
  | append_singleton xs s ih =>
    rw [foldl_append, foldl_cons] at h ⊢
    have hstay : ∀ (hkind : s.kind = .comment ∨ s.kind = .repeatLoop)
        (hxs : xs.foldl step .elsewhere ≠ .elsewhere)
        (hlast : (xs.foldl step .elsewhere).step s = .inRepeat →
          xs.foldl step .elsewhere = .inRepeat ∨ s.kind = .repeatLoop),
        ∃ before head inside, xs ++ [s] = before ++ head :: inside ∧
          (head.kind = .whileLoop ∨ head.kind = .forLoop) ∧
            (∀ s ∈ inside, s.kind = .comment ∨ s.kind = .repeatLoop) ∧
              ((xs.foldl step .elsewhere).step s = .inRepeat →
                ∃ s ∈ inside, s.kind = .repeatLoop) := by
      intro hkind hxs hlast
      obtain ⟨before, head, inside, rfl, hhead, hinside, hrepeat⟩ := ih hxs
      refine ⟨before, head, inside ++ [s], by simp, hhead, ?_, ?_⟩
      · intro t ht
        rcases mem_append.1 ht with ht | ht
        · exact hinside t ht
        · exact mem_singleton.1 ht ▸ hkind
      · intro hin
        rcases hlast hin with hin | hs
        · obtain ⟨t, ht, hk⟩ := hrepeat hin
          exact ⟨t, mem_append_left _ ht, hk⟩
        · exact ⟨s, mem_append_right _ (mem_singleton.2 rfl), hs⟩
    by_cases hcomment : s.kind = .comment
    · rw [step_comment _ hcomment] at h
      refine hstay (.inl hcomment) h ?_
      rw [step_comment _ hcomment]
      exact .inl
    · by_cases hrepeat : s.kind = .repeatLoop
      · refine hstay (.inr hrepeat) ?_ (fun _ => .inr hrepeat)
        intro hxs
        rw [step_repeat _ hrepeat, if_pos hxs] at h
        exact h rfl
      · by_cases hhead : s.kind = .whileLoop ∨ s.kind = .forLoop
        · refine ⟨xs, s, [], rfl, hhead, by simp, ?_⟩
          rw [step_head _ hhead]
          simp
        · refine absurd ?_ h
          rw [step]
          split <;> simp_all

theorem foldl_step_eq_inRepeat_iff (xs : List Statement) :
    xs.foldl step .elsewhere = .inRepeat ↔ CutInRepeat xs := by
  constructor
  · intro h
    obtain ⟨before, head, inside, hxs, hhead, hinside, hrepeat⟩ :=
      exists_head_of_foldl_step xs (by rw [h]; decide)
    exact ⟨before, head, inside, hxs, hhead, hinside, hrepeat h⟩
  · rintro ⟨before, head, inside, rfl, hhead, hinside, s, hs, hk⟩
    rw [foldl_append, foldl_cons, step_head _ hhead]
    rcases foldl_step_inside (p := .atHead) (by decide) hinside with h | ⟨-, hall⟩
    · exact h
    · rw [hall s hs] at hk
      simp at hk

end Phase

namespace Open

/-- The place that the open constructs tell of. -/
def phase : List Open → Phase
  | .pretest _ _ _ true :: _ => .atHead
  | .posttest _ _ :: outer => if phase outer = .elsewhere then .elsewhere else .inRepeat
  | _ => .elsewhere

/-- Only `repetir` may stand inside a construct that awaits a node. -/
def Quiet : List Open → Prop
  | [] => True
  | .posttest _ _ :: outer => Quiet outer
  | _ :: outer => serve? outer = none

theorem quiet_of_serve?_eq_none (h : serve? cs = none) : Quiet cs := by
  induction cs with
  | nil => trivial
  | cons c outer ih =>
    have houter : serve? outer = none := by
      rw [serve?_eq_none_iff] at h ⊢
      exact fun d hd => h d (mem_cons_of_mem c hd)
    cases c with
    | branch | pretest => exact houter
    | posttest => exact ih houter

theorem Quiet.calm (h : Quiet cs) : Calm cs := by
  induction cs with
  | nil => rfl
  | cons c outer ih =>
    cases c with
    | branch | pretest => exact calm_push (t := { chart := {}, contexts := outer }) h _
    | posttest =>
      have houter : serve? (servedAll outer) = none := ih h
      rw [Calm, servedAll_cons_of_not_pending rfl]
      simp [serve?, pending?, houter]

theorem phase_of_serve?_eq_none (h : serve? cs = none) : phase cs = .elsewhere := by
  induction cs with
  | nil => rfl
  | cons c outer ih =>
    rw [serve?_eq_none_iff, forall_mem_cons, ← serve?_eq_none_iff] at h
    cases c with
    | branch => rfl
    | pretest counted decision after awaiting =>
      cases awaiting with
      | true => simp [pending?] at h
      | false => rfl
    | posttest => rw [phase, ih h.2, if_pos rfl]

theorem phase_recordTop (n : Nat) (cs : List Open) : phase (recordTop n cs) = phase cs := by
  cases cs with
  | nil => rfl
  | cons c =>
    cases c with
    | branch decision join inElse => cases inElse <;> rfl
    | pretest counted decision after awaiting => cases awaiting <;> rfl
    | posttest => rfl

theorem quiet_recordTop (h : Quiet cs) : Quiet (recordTop n cs) := by
  cases cs with
  | nil => trivial
  | cons c =>
    cases c with
    | branch decision join inElse => cases inElse <;> exact h
    | pretest | posttest => exact h

end Open

/-! ### The pass over a part of a nested body -/

namespace Builder

/-- A node has a way to the current one or to one that a construct
holds. -/
def Drains (s : Builder) (n : Nat) : Prop :=
  s.chart.Reaches n s.current ∨ ∃ held ∈ s.contexts.map Open.held, ∃ m ∈ held, s.chart.Reaches n m

/-- What the pass knows of the nodes so far: a node is the one that an
open construct will be left by, or it drains. -/
def Draining (s : Builder) : Prop :=
  ∀ n < s.chart.size, n ∈ s.contexts.map Open.exit ∨ s.Drains n

structure Steady (s : Builder) : Prop where
  quiet : Open.Quiet s.contexts
  source : s.source.1 = s.current
  tip : ∀ c ∈ s.contexts.head?, ∀ n, c.branchTip = some n → s.current = n
  draining : s.Draining

/-- The state is steady, and the cut stands at the given place. -/
structure Traced (s : Builder) (p : Phase) : Prop extends s.Steady where
  phase : Open.phase s.contexts = p

section Steps

variable {s : Builder} {p : Phase}

/-- The nodes so far keep their ways if the pass goes on from where it
was and no construct is closed. -/
theorem Draining.mono {t : Builder} (h : s.Draining)
    (hedges : ∀ e ∈ s.chart.edges, e ∈ t.chart.edges)
    (hexit : s.contexts.map Open.exit ⊆ t.contexts.map Open.exit)
    (hheld : s.contexts.map held ⊆ t.contexts.map held)
    (hcurrent : t.chart.Reaches s.current t.current) (hn : n < s.chart.size) :
    n ∈ t.contexts.map Open.exit ∨ t.Drains n := by
  rcases h n hn with h | h | ⟨held, hmem, m, hm, h⟩
  · exact .inl (hexit h)
  · exact .inr (.inl (trans (h.mono hedges) hcurrent))
  · exact .inr (.inr ⟨held, hheld hmem, m, hm, h.mono hedges⟩)

theorem tip_recordTop {last : Nat} :
    ∀ c ∈ (Open.recordTop last cs).head?, ∀ n, c.branchTip = some n → last = n := by
  intro c hc n hn
  cases cs with
  | nil => simp [Open.recordTop] at hc
  | cons d =>
    obtain rfl : d.record last = c := by simpa [Open.recordTop] using hc
    exact (branchTip_record hn).symm

theorem Steady.after (h : s.Steady) {b : Body} {first : Nat}
    (hb : b.first? s.chart.size = some first) : (s.after b).Traced .elsewhere := by
  have hafter : s.after b =
      s.grow b.nodes (b.edges s.chart.size s.source) first (b.exit s.chart.size s.source).1 := by
    rw [Builder.after, hb]
  have hserve := serve?_advance h.quiet.calm first (b.exit s.chart.size s.source).1
  obtain ⟨hsource, hnodes⟩ := b.reaches_exit (g := (s.after b).chart) s.chart.size s.source (by
    intro e he
    rw [hafter]
    exact mem_append_right _ he)
  rw [hafter] at hsource hnodes ⊢
  refine ⟨⟨quiet_of_serve?_eq_none hserve, ?_, tip_recordTop, ?_⟩, phase_of_serve?_eq_none hserve⟩
  · rw [source_grow h.quiet.calm]
    rfl
  · intro n hn
    rw [size_grow] at hn
    rcases Nat.lt_or_ge n s.chart.size with hlt | hge
    · exact h.draining.mono (fun e he => mem_append_left _ he) (by simp [grow]) (by simp [grow])
        (h.source ▸ hsource) hlt
    · exact .inr (.inl (hnodes n hge hn))

/-- The head of a construct with a decision. The decision is the current
node and what the construct holds; the other new node is the one that the
construct will be left by. -/
theorem Steady.openDecision (h : s.Steady) {decision exit : Node} {kind : EdgeKind}
    (hpending : c.pending? = some (s.chart.size, kind)) (hexit : c.exit = s.chart.size + 1)
    (htip : ∀ n, c.branchTip = some n → s.chart.size = n)
    (hquiet : ∀ outer, serve? outer = none → Quiet (c :: outer)) :
    ((s.grow [decision, exit] [s.source.to s.chart.size] s.chart.size s.chart.size).push
      c).Steady := by
  have hserve := serve?_advance h.quiet.calm s.chart.size s.chart.size
  refine ⟨hquiet _ hserve, ?_, ?_, ?_⟩
  · rw [source_push_of_pending _ hpending]
    rfl
  · intro d hd n hn
    obtain rfl : c = d := by simpa [push] using hd
    exact htip n hn
  · intro n hn
    rw [chart_push, size_grow] at hn
    simp only [length_cons, length_nil] at hn
    have hstep : ((s.grow [decision, exit] [s.source.to s.chart.size] s.chart.size
        s.chart.size).push c).chart.Reaches s.current s.chart.size := by
      rw [← h.source]
      exact reaches_of_mem (e := s.source.to s.chart.size) (by simp [grow])
    rcases Nat.lt_trichotomy n s.chart.size with hlt | rfl | hgt
    · exact h.draining.mono (fun e he => mem_append_left _ he) (by simp [push, grow])
        (by simp [push, grow]) hstep hlt
    · exact .inr (.inl refl)
    · obtain rfl : n = s.chart.size + 1 := by omega
      exact .inl (by simp [push, hexit])

theorem Traced.comment (h : s.Traced p) (c : StatementOf .comment) :
    (s.visit c.1).Traced (p.step c.1) := by
  rw [visit_comment, Phase.step_comment p c.2]
  exact h

theorem Traced.plain (h : s.Traced p) (c : PlainStatement) : (s.visit c.1).Traced (p.step c.1) := by
  have hvisit : s.visit c.1 = s.after (.plain c .nil) := by rw [visit_plain]; rfl
  have hstep : p.step c.1 = .elsewhere := by
    have hplain := c.2
    rw [Phase.step]
    revert hplain
    cases c.1.kind <;> simp [Kind.isPlain]
  rw [hvisit, hstep]
  exact h.toSteady.after rfl

theorem Traced.pretestHead (h : s.Traced p) (counted : Bool)
    (head : StatementOf (Kind.pretestHead counted)) : (s.visit head.1).Traced (p.step head.1) := by
  have hkind : head.1.kind = .whileLoop ∨ head.1.kind = .forLoop := by
    rw [head.2]
    cases counted
    · exact .inl rfl
    · exact .inr rfl
  rw [visit_pretestHead, Phase.step_head p hkind]
  exact ⟨h.toSteady.openDecision rfl rfl (by simp [branchTip]) (fun _ ho => ho), rfl⟩

theorem Phase.step_choiceHead (p : Phase) (head : StatementOf .ifTest) :
    p.step head.1 = .elsewhere := by
  rw [Phase.step, head.2]

theorem Traced.choiceHead (h : s.Traced p) (head : StatementOf .ifTest) :
    (s.visit head.1).Traced .elsewhere := by
  rw [visit_choiceHead]
  exact ⟨h.toSteady.openDecision rfl rfl (by simp [branchTip]) (fun _ ho => ho), rfl⟩

theorem Traced.posttestHead (h : s.Traced p) (head : StatementOf .repeatLoop) :
    (s.visit head.1).Traced (p.step head.1) := by
  have hsource := source_posttestHead s head
  have hsize := size_posttestHead s head
  rw [Phase.step_repeat p head.2]
  rw [visit_posttestHead] at hsource hsize ⊢
  refine ⟨⟨h.quiet, hsource ▸ h.source, by simp [push, branchTip], ?_⟩, ?_⟩
  · intro n hn
    rcases Nat.lt_or_ge n s.chart.size with hlt | hge
    · exact h.draining.mono (fun e he => he) (subset_cons_self ..) (subset_cons_self ..) .refl hlt
    · obtain rfl : n = s.chart.size := by omega
      exact .inl (mem_cons_self ..)
  · show (if Open.phase s.contexts = .elsewhere then Phase.elsewhere else .inRepeat) = _
    rw [h.phase]

/-- The middle of a `si`: the end of the first branch, until now the
current node, is held, and the decision, until now held, is current. -/
theorem Steady.middle (h : s.Steady) {decision join : Nat} {awaiting : Bool} {thenLast : Option Nat}
    (hs : s.contexts = .branch decision join false awaiting thenLast none :: outer)
    (middle : StatementOf .elseBranch) : (s.visit middle.1).Traced .elsewhere := by
  have htip : s.current = thenLast.getD decision :=
    h.tip (.branch decision join false awaiting thenLast none) (by simp [hs]) _ rfl
  have hquiet := h.quiet
  rw [hs] at hquiet
  rw [visit_middle hs]
  refine ⟨⟨hquiet, ?_, ?_, ?_⟩, rfl⟩
  · rfl
  · intro c hc n hn
    obtain rfl : branch decision join true true thenLast none = c := by
      simpa [push] using hc
    simpa [branchTip, push] using hn
  · intro n hn
    rcases h.draining n hn with hexit | hreach | ⟨held, hmem, m, hm, hreach⟩
    · rw [hs] at hexit
      exact .inl hexit
    · rw [htip] at hreach
      exact .inr (.inr ⟨[thenLast.getD decision], mem_cons_self .., _, mem_singleton.2 rfl, hreach⟩)
    · rw [hs] at hmem
      rcases mem_cons.1 hmem with rfl | hmem
      · obtain rfl : m = decision := by simpa [held] using hm
        exact .inr (.inl hreach)
      · exact .inr (.inr ⟨held, mem_cons_of_mem _ hmem, m, hm, hreach⟩)

theorem Traced.middle (h : s.Traced p) (head : StatementOf .ifTest) (yes : Body)
    (middle : StatementOf .elseBranch) :
    (((s.visit head.1).after yes).visit middle.1).Traced .elsewhere := by
  have hhead := (h.choiceHead head).toSteady
  have hyes : ((s.visit head.1).after yes).Steady := by
    cases hb : yes.first? (s.visit head.1).chart.size with
    | none =>
      rw [after, hb]
      exact hhead
    | some => exact (hhead.after hb).toSteady
  obtain ⟨awaiting, current, heq⟩ := after_choiceHead s head yes _ rfl
  rw [heq] at hyes ⊢
  exact hyes.middle rfl middle

end Steps

theorem prefix_append_cases {α : Type} {xs l l' : List α} (h : xs <+: l ++ l') :
    xs <+: l ∨ ∃ ys, xs = l ++ ys ∧ ys <+: l' := by
  rcases prefix_or_prefix_of_prefix h (prefix_append l l') with hxs | ⟨ys, rfl⟩
  · exact .inl hxs
  · exact .inr ⟨ys, rfl, (prefix_append_right_inj l).1 h⟩

/-- The pass over any part of these statements keeps the state steady. -/
def Follows (xs : List Statement) : Prop :=
  ∀ (s : Builder) (p : Phase) (ys : List Statement), s.Traced p → ys <+: xs →
    (ys.foldl visit s).Traced (ys.foldl Phase.step p)

theorem follows_nil : Follows [] := by
  intro s p ys h hys
  obtain rfl := prefix_nil.1 hys
  exact h

theorem follows_cons {x : Statement} {xs : List Statement}
    (hx : ∀ {s : Builder} {p : Phase}, s.Traced p → (s.visit x).Traced (p.step x))
    (hxs : Follows xs) : Follows (x :: xs) := by
  intro s p ys h hys
  rcases prefix_cons_iff.1 hys with rfl | ⟨zs, rfl, hzs⟩
  · exact h
  · exact hxs (s.visit x) (p.step x) zs (hx h) hzs

/-- A list that is cut before or after one of its statements. -/
theorem follows_append_cons {opening rest : List Statement} {x : Statement}
    (hopening : Follows opening) (hrest : Follows rest)
    (hx : ∀ {s : Builder} {p : Phase}, s.Traced p →
      ((opening ++ [x]).foldl visit s).Traced ((opening ++ [x]).foldl Phase.step p)) :
    Follows (opening ++ x :: rest) := by
  intro s p ys h hys
  rcases prefix_append_cases hys with hys | ⟨zs, rfl, hzs⟩
  · exact hopening _ _ _ h hys
  rcases prefix_cons_iff.1 hzs with rfl | ⟨ws, rfl, hws⟩
  · rw [append_nil]
    exact hopening _ _ _ h prefix_rfl
  · have hfollows := hrest _ _ _ (hx h) hws
    rw [← foldl_append, ← foldl_append, ← append_cons] at hfollows
    exact hfollows

/-- A construct that is cut in front of its last statement, or whole and
followed by others. Behind a whole one, no head awaits a node. -/
theorem follows_construct (c : Body) (opening : List Statement) {k : Kind}
    (tail : StatementOf k) {rest : List Statement} (hc : c.statements = opening ++ [tail.1])
    (hfirst : ∀ n, ∃ f, c.first? n = some f)
    (htail : ∀ (q : Phase) (t : Statement), t.kind = k → q.step t = .elsewhere)
    (hopening : Follows opening) (hrest : Follows rest) : Follows (opening ++ tail.1 :: rest) := by
  refine follows_append_cons hopening hrest fun {s p} h => ?_
  obtain ⟨f, hf⟩ := hfirst s.chart.size
  rw [← hc, foldl_visit c s h.quiet.calm, hc, foldl_append, foldl_cons, htail _ _ tail.2]
  exact h.toSteady.after hf

theorem follows_mark (mark : Option (StatementOf .thenBranch)) {s : Builder}
    (h : s.Traced .elsewhere) {ys : List Statement} (hys : ys <+: Body.markStatements mark) :
    (ys.foldl visit s).Traced (ys.foldl Phase.step .elsewhere) := by
  cases mark with
  | none => exact follows_nil _ _ _ h hys
  | some c =>
    rcases prefix_cons_iff.1 hys with rfl | ⟨zs, rfl, hzs⟩
    · exact h
    · obtain rfl := prefix_nil.1 hzs
      have hstep : Phase.elsewhere.step c.1 = .elsewhere := by rw [Phase.step, c.2]
      rw [foldl_cons, foldl_cons, visit_mark, hstep]
      exact h

theorem follows_branch (head : StatementOf .ifTest) (mark : Option (StatementOf .thenBranch))
    {yes : List Statement} (hyes : Follows yes) :
    Follows (head.1 :: (Body.markStatements mark ++ yes)) := by
  intro s p ys h hys
  rcases prefix_cons_iff.1 hys with rfl | ⟨zs, rfl, hzs⟩
  · exact h
  rw [foldl_cons, foldl_cons, Phase.step_choiceHead]
  rcases prefix_append_cases hzs with hzs | ⟨ws, rfl, hws⟩
  · exact follows_mark mark (h.choiceHead head) hzs
  · rw [foldl_append, foldl_append]
    exact hyes _ _ _ (follows_mark mark (h.choiceHead head) prefix_rfl) hws

theorem follows_branches (head : StatementOf .ifTest) (mark : Option (StatementOf .thenBranch))
    {yes : Body} (hyes : Follows yes.statements) (middle : StatementOf .elseBranch)
    {no : List Statement} (hno : Follows no) :
    Follows (head.1 :: (Body.markStatements mark ++ yes.statements) ++ middle.1 :: no) := by
  refine follows_append_cons (follows_branch head mark hyes) hno fun {s p} h => ?_
  have hmiddle : ∀ q : Phase, q.step middle.1 = .elsewhere := by
    intro q
    rw [Phase.step, middle.2]
  rw [foldl_append, foldl_append, foldl_cons, foldl_cons, foldl_cons, foldl_append,
    foldl_visit_mark, foldl_visit yes _ (h.choiceHead head).quiet.calm, hmiddle]
  exact h.middle head yes middle

theorem follows_statements (b : Body) : Follows b.statements := by
  induction b with
  | nil => exact follows_nil
  | comment c rest ih => exact follows_cons (fun h => h.comment c) ih
  | plain c rest ih => exact follows_cons (fun h => h.plain c) ih
  | pretest counted head body tail rest ihBody ihRest =>
    refine follows_construct (.pretest counted head body tail .nil)
      (head.1 :: body.statements) tail rfl (fun n => ⟨n, rfl⟩) ?_
      (follows_cons (fun h => h.pretestHead counted head) ihBody) ihRest
    intro q t ht
    rw [Phase.step, ht]
    cases counted <;> rfl
  | posttest head body test rest ihBody ihRest =>
    refine follows_construct (.posttest head body test .nil)
      (head.1 :: body.statements) test rfl (fun n => ⟨_, rfl⟩) ?_
      (follows_cons (fun h => h.posttestHead head) ihBody) ihRest
    intro q t ht
    rw [Phase.step, ht]
  | choice head mark yes tail rest ihYes ihRest =>
    have hblock := follows_construct (.choice head mark yes tail .nil)
      (head.1 :: (Body.markStatements mark ++ yes.statements)) tail
      (by simp [Body.statements]) (fun n => ⟨n, rfl⟩)
      (fun q t ht => by rw [Phase.step, ht]) (follows_branch head mark ihYes) ihRest
    simpa [Body.statements] using hblock
  | choiceElse head mark yes middle no tail rest ihYes ihNo ihRest =>
    have hblock := follows_construct (.choiceElse head mark yes middle no tail .nil)
      (head.1 :: (Body.markStatements mark ++ yes.statements) ++ middle.1 :: no.statements) tail
      (by simp [Body.statements]) (fun n => ⟨n, rfl⟩)
      (fun q t ht => by rw [Phase.step, ht]) (follows_branches head mark ihYes middle ihNo) ihRest
    simpa [Body.statements] using hblock

/-! ### Closing what is open -/

section Closing

variable {s : Builder}

/-- A state in which closing the constructs loses no node. -/
structure Closable (s : Builder) : Prop where
  quiet : Open.Quiet s.contexts
  phase : Open.phase s.contexts ≠ .inRepeat
  tip : ∀ c ∈ s.contexts.head?, ∀ n, c.branchTip = some n → s.current = n
  empty : ∀ counted decision after,
    s.contexts.head? = some (.pretest counted decision after true) → s.current = decision
  draining : s.Draining

theorem Traced.closable {p : Phase} (h : s.Traced p) (hp : p ≠ .inRepeat) : s.Closable := by
  refine ⟨h.quiet, h.phase ▸ hp, h.tip, ?_, h.draining⟩
  intro counted decision after hhead
  obtain ⟨outer, hs⟩ := head?_eq_some_iff.1 hhead
  rw [← h.source, source, hs]
  rfl

theorem outer_of_quiet (hquiet : Quiet (c :: outer))
    (hphase : Open.phase (c :: outer) ≠ .inRepeat) :
    Quiet outer ∧ Open.phase outer = .elsewhere := by
  cases c with
  | branch | pretest => exact ⟨quiet_of_serve?_eq_none hquiet, phase_of_serve?_eq_none hquiet⟩
  | posttest =>
    refine ⟨hquiet, ?_⟩
    by_contra hne
    exact hphase (if_neg hne)

theorem Closable.closeInnermost (h : s.Closable) : s.closeInnermost.Closable := by
  cases hs : s.contexts with
  | nil =>
    rw [closeInnermost_of_nil hs]
    exact h
  | cons c outer =>
    have hquiet := h.quiet
    have hphase := h.phase
    rw [hs] at hquiet hphase
    obtain ⟨houter, helsewhere⟩ := outer_of_quiet hquiet hphase
    have hrecorded : Open.phase (Open.recordTop c.exit outer) = .elsewhere := by
      rw [phase_recordTop, helsewhere]
    rw [closeInnermost_eq hs]
    have hmono : ∀ e ∈ s.chart.edges, e ∈ (leave { s with contexts := outer } []
        (c.closing s.current) c.exit).chart.edges := fun e he => mem_append_left _ he
    obtain ⟨hcurrent, hheld⟩ := reaches_exit_of_closing c
      (g := (leave { s with contexts := outer } [] (c.closing s.current) c.exit).chart)
      (fun e he => mem_append_right _ he)
      (h.tip c (by simp [hs])) (fun counted decision after hc =>
        h.empty counted decision after (by simp [hs, hc]))
    refine ⟨quiet_recordTop houter, ?_, tip_recordTop, ?_, ?_⟩
    · show Open.phase (Open.recordTop c.exit outer) ≠ .inRepeat
      rw [hrecorded]
      decide
    · intro counted decision after hhead
      obtain ⟨rest, heq⟩ := head?_eq_some_iff.1 hhead
      have heq' : Open.recordTop c.exit outer = .pretest counted decision after true :: rest := heq
      rw [heq'] at hrecorded
      exact absurd hrecorded (by simp [Open.phase])
    · intro n hn
      have hn' : n < s.chart.size := by simpa [leave, size] using hn
      have hdraining := h.draining n hn'
      rw [Drains, hs] at hdraining
      rw [Drains, leave, map_exit_recordTop, map_held_recordTop]
      rcases hdraining with hexit | hreach | ⟨held, hmem, m, hm, hreach⟩
      · rcases mem_cons.1 hexit with rfl | hexit
        · exact .inr (.inl refl)
        · exact .inl hexit
      · exact .inr (.inl (trans (hreach.mono hmono) hcurrent))
      · rcases mem_cons.1 hmem with rfl | hmem
        · exact .inr (.inl (trans (hreach.mono hmono) (hheld m hm)))
        · exact .inr (.inr ⟨held, hmem, m, hm, hreach.mono hmono⟩)

/-- A node from which no edge leaves or will leave. -/
structure Stuck (s : Builder) (x : Nat) : Prop where
  lt : x < s.chart.size
  edges : ∀ e ∈ s.chart.edges, e.source ≠ x
  current : s.current ≠ x
  anchors : ∀ c ∈ s.contexts, x ∉ c.anchors
  exits : x ∉ s.contexts.map Open.exit

theorem Stuck.closeInnermost {x : Nat} (h : s.Stuck x) : s.closeInnermost.Stuck x := by
  cases hs : s.contexts with
  | nil =>
    rw [closeInnermost_of_nil hs]
    exact h
  | cons c outer =>
    have hexits := h.exits
    have hanchors := h.anchors
    rw [hs, map_cons, mem_cons, not_or] at hexits
    rw [hs, forall_mem_cons] at hanchors
    rw [closeInnermost_eq hs]
    refine ⟨by simpa [leave, size] using h.lt, ?_, Ne.symm hexits.1, ?_, ?_⟩
    · intro e he
      rcases mem_append.1 he with hold | hnew
      · exact h.edges e hold
      · rintro rfl
        rcases (of_mem_closing hnew).1 with heq | hmem
        · exact h.current heq.symm
        · exact hanchors.1 hmem
    · intro d hd hmem
      rcases mem_anchors_recordTop hd hmem with rfl | ⟨d', hd', hmem'⟩
      · exact hexits.1 rfl
      · exact hanchors.2 d' hd' hmem'
    · rw [leave, map_exit_recordTop]
      exact hexits.2

/-- A `repetir` directly in a loop without a body: the node after it is
reached from the test of the loop, which then goes on without it. -/
theorem stuck_of_empty_loop {order : List Nat} (h : s.Sound order []) {counted : Bool}
    {decision after exit : Nat} {entry : Option Nat}
    (hs : s.contexts = .posttest exit entry :: .pretest counted decision after true :: outer) :
    s.closeInnermost.closeInnermost.Stuck exit := by
  have hnodup := h.nodes.nodup_iff.2 nodup_range
  have hmem := h.nodes.mem_iff (a := exit)
  rw [hs] at hnodup hmem
  simp only [nil_append, map_cons, Open.exit] at hnodup hmem
  obtain ⟨-, hexits, hapart⟩ := nodup_append.1 hnodup
  rw [nodup_cons, mem_cons, not_or] at hexits
  have hplaced : ∀ m ∈ order, m ≠ exit := fun m hm => hapart m hm exit (mem_cons_self ..)
  have hdecision : decision ∈ order :=
    h.anchors (.pretest counted decision after true) (by simp [hs]) decision
      (mem_singleton.2 rfl)
  have hfirst : s.closeInnermost.contexts = .pretest counted decision after true :: outer := by
    rw [closeInnermost_eq hs]
    rfl
  have hchart : s.closeInnermost.chart.edges =
      s.chart.edges ++ [⟨s.current, exit, .always, false⟩] := by
    rw [closeInnermost_eq hs]
    rfl
  have hsize : s.closeInnermost.chart.size = s.chart.size := by
    rw [closeInnermost_eq hs]
    simp [leave, size]
  rw [closeInnermost_eq hfirst]
  refine ⟨?_, ?_, Ne.symm hexits.1.1, ?_, ?_⟩
  · have hlt : exit < s.chart.size := mem_range.1 (hmem.1 (by simp))
    rw [← hsize] at hlt
    simpa [leave, size] using hlt
  · intro e he
    rcases mem_append.1 he with hold | hnew
    · rw [hchart] at hold
      exact forall_mem_concat (fun e he => hplaced _ (h.ordered.ends e he).1)
        (hplaced _ h.current) e hold
    · -- Both edges of the loop leave from its test.
      have hsource : e.source = decision := by
        simp only [closing, mem_cons, not_mem_nil, or_false] at hnew
        rcases hnew with rfl | rfl <;> rfl
      rw [hsource]
      exact hplaced _ hdecision
  · intro d hd hx
    rcases mem_anchors_recordTop hd hx with heq | ⟨d', hd', hx'⟩
    · exact hexits.1.1 heq
    · exact hplaced exit (h.anchors d' (by simp [hs, hd']) exit hx') rfl
  · show exit ∉ (Open.recordTop after outer).map Open.exit
    rw [map_exit_recordTop]
    exact hexits.1.2

theorem exists_stuck {order : List Nat} (h : s.Sound order [])
    (hphase : Open.phase s.contexts = .inRepeat) :
    ∃ x, (s.closeMany s.contexts.length).Stuck x := by
  generalize hk : s.contexts.length = k
  -- The `repetir` are closed from the inside; the last one, next to the head, sticks.
  induction k generalizing s order with
  | zero =>
    rw [length_eq_zero_iff.1 hk] at hphase
    simp [Open.phase] at hphase
  | succ k ih =>
    cases hs : s.contexts with
    | nil =>
      rw [hs] at hphase
      simp [Open.phase] at hphase
    | cons c outer =>
      rw [hs] at hphase hk
      cases c with
      | branch => simp [Open.phase] at hphase
      | pretest counted decision after awaiting =>
        cases awaiting <;> simp [Open.phase] at hphase
      | posttest exit entry =>
        have hne : Open.phase outer ≠ .elsewhere := by
          intro heq
          rw [Open.phase, if_pos heq] at hphase
          simp at hphase
        cases hp : Open.phase outer with
        | elsewhere => exact absurd hp hne
        | inRepeat =>
          obtain ⟨order', h'⟩ := h.closeInnermost
          have hcontexts : s.closeInnermost.contexts = Open.recordTop exit outer := by
            rw [closeInnermost_eq hs]
            rfl
          refine ih h' ?_ ?_
          · rw [hcontexts, phase_recordTop, hp]
          · have hlength := contexts_closeInnermost_length s
            rw [hs] at hlength
            omega
        | atHead =>
          obtain ⟨counted, decision, after, rest, rfl⟩ : ∃ counted decision after rest,
              outer = .pretest counted decision after true :: rest := by
            cases outer with
            | nil => simp [Open.phase] at hp
            | cons d rest =>
              cases d with
              | branch => simp [Open.phase] at hp
              | posttest =>
                simp only [Open.phase] at hp
                split at hp <;> simp at hp
              | pretest counted decision after awaiting =>
                cases awaiting with
                | false => simp [Open.phase] at hp
                | true => exact ⟨counted, decision, after, rest, rfl⟩
          obtain ⟨m, rfl⟩ : ∃ m, k = m + 1 := ⟨rest.length, by simpa using hk.symm⟩
          exact ⟨exit, closeMany_induction (P := (Stuck · exit)) (fun _ => Stuck.closeInnermost)
            (stuck_of_empty_loop h hs) m⟩

end Closing

end Builder

/-- The state of the pass over a body once all constructs are closed. -/
def Builder.closed (xs : List Statement) : Builder :=
  (xs.foldl visit start).closeMany (xs.foldl visit start).contexts.length

theorem Chart.ofBody_eq (xs : List Statement) :
    ofBody xs =
      ⟨(closed xs).chart.nodes ++ [⟨"Fin", .terminal⟩], (closed xs).chart.edges ++
          [Port.to ((closed xs).current, .always) (closed xs).chart.size]⟩ :=
  rfl

theorem traced_start : start.Traced .elsewhere := by
  refine ⟨⟨trivial, rfl, by simp [start], ?_⟩, rfl⟩
  intro n hn
  obtain rfl : n = 0 := by
    have hsize : start.chart.size = 1 := rfl
    omega
  exact .inr (.inl refl)

theorem outEdges_ne_nil {g : Chart} {m : Nat} (h : g.Reaches n m) (hne : n ≠ m) :
    g.outEdges n ≠ [] := by
  rcases cases_head h with heq | ⟨k, ⟨e, he, rfl, -⟩, -⟩
  · exact absurd heq hne
  · exact ne_nil_of_mem (mem_filter.2 ⟨he, beq_self_eq_true _⟩)

/-- In the chart of a nested body that is cut off at any point, every node
but the end has an edge, and a way to the end, if and only if the cut does
not stand directly in a `repetir` that is the first thing in a `mientras`
or `para`. -/
theorem every_node_ends_iff {b : Body} {xs : List Statement} (hxs : xs <+: b.statements) :
    (∀ n < (Chart.ofBody xs).size - 1, (Chart.ofBody xs).outEdges n ≠ [] ∧
      (Chart.ofBody xs).Reaches n ((Chart.ofBody xs).size - 1)) ↔ ¬ CutInRepeat xs := by
  have htraced := Builder.follows_statements b _ _ _ traced_start hxs
  have hsize : (Chart.ofBody xs).size - 1 = (Builder.closed xs).chart.size := by
    rw [Chart.ofBody_eq]
    simp [Chart.size]
  rw [← Phase.foldl_step_eq_inRepeat_iff, ← htraced.phase, hsize]
  constructor
  · intro hall hphase
    obtain ⟨order, hsound⟩ := Builder.Sound.start.foldl_visit xs
    obtain ⟨x, hx⟩ := Builder.exists_stuck hsound hphase
    refine (hall x hx.lt).1 ?_
    rw [Chart.outEdges, filter_eq_nil_iff, Chart.ofBody_eq]
    intro e he hsource
    rw [beq_iff_eq] at hsource
    rcases mem_append.1 he with hold | hnew
    · exact hx.edges e hold hsource
    · obtain rfl := mem_singleton.1 hnew
      exact hx.current hsource
  · intro hphase n hn
    have hclosed : (Builder.closed xs).Closable :=
      Builder.closeMany_induction (P := Builder.Closable) (fun _ => .closeInnermost)
        (htraced.closable (htraced.phase ▸ hphase)) _
    have hnil : (Builder.closed xs).contexts = [] := Builder.contexts_closeMany _
    have hmono : ∀ e ∈ (Builder.closed xs).chart.edges, e ∈ (Chart.ofBody xs).edges :=
      fun e he => mem_append_left _ he
    have hlast : (Chart.ofBody xs).Reaches (Builder.closed xs).current
        (Builder.closed xs).chart.size :=
      Chart.reaches_of_mem (e := Port.to ((Builder.closed xs).current, .always) _)
        (mem_append_right _ (mem_singleton.2 rfl))
    have hend : (Chart.ofBody xs).Reaches n (Builder.closed xs).chart.size := by
      rcases hclosed.draining n hn with hexit | hreach | ⟨held, hmem, -⟩
      · simp [hnil] at hexit
      · exact Relation.ReflTransGen.trans (hreach.mono hmono) hlast
      · simp [hnil] at hmem
    exact ⟨outEdges_ne_nil hend (Nat.ne_of_lt hn), hend⟩

/-- A loop with a `repetir` as the first thing in it. -/
def nestedSample : Body :=
  .pretest false ⟨⟨"mientras(x)", 2, .whileLoop "x"⟩, rfl⟩
    (.posttest ⟨⟨"repetir", 3, .repeatLoop⟩, rfl⟩
      (.choice ⟨⟨"si a", 4, .ifTest "a"⟩, rfl⟩ (some ⟨⟨"entonces", 5, .thenBranch⟩, rfl⟩)
        (.posttest ⟨⟨"repetir", 6, .repeatLoop⟩, rfl⟩ .nil
          ⟨⟨"hasta(b)", 7, .untilTest "b"⟩, rfl⟩ .nil)
        ⟨⟨"finsi", 8, .endIf⟩, rfl⟩ .nil)
      ⟨⟨"hasta(c)", 9, .untilTest "c"⟩, rfl⟩ .nil)
    ⟨⟨"finmientras", 10, .endWhile⟩, rfl⟩ .nil

/-- Cut behind the inner `repetir`, the body has three blocks open, and no
node is lost: the `si` is the first node of the outer ones. -/
theorem every_node_ends_sample :
    nestedSample.statements.take 5 <+: nestedSample.statements ∧
      ∀ n < (Chart.ofBody (nestedSample.statements.take 5)).size - 1,
        (Chart.ofBody (nestedSample.statements.take 5)).outEdges n ≠ [] ∧
          (Chart.ofBody (nestedSample.statements.take 5)).Reaches n
            ((Chart.ofBody (nestedSample.statements.take 5)).size - 1) := by
  refine ⟨ take_prefix .., (every_node_ends_iff (b := nestedSample) ( take_prefix ..)).2 ?_⟩
  rw [← Phase.foldl_step_eq_inRepeat_iff]
  decide

/-- Cut behind the outer `repetir`, the chart has a node without an edge. -/
theorem not_every_node_ends :
    ¬ ∀ (b : Body) (xs : List Statement), xs <+: b.statements →
      ∀ n < (Chart.ofBody xs).size - 1, (Chart.ofBody xs).outEdges n ≠ [] ∧
        (Chart.ofBody xs).Reaches n ((Chart.ofBody xs).size - 1) := by
  intro h
  have hcut := h nestedSample (nestedSample.statements.take 2) ( take_prefix ..) 3 (by decide)
  exact hcut.1 (by decide)

end Flow

end Pseudocode
