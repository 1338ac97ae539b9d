import Pseudocode.Flow.Build
import Pseudocode.Proofs.Nesting

/-!
# The chart of a nested body in closed form

The chart is built in one pass that keeps the open constructs and the
current node, and an edge into the first node of a branch or a loop body
is only added when that node turns up. This module says what comes out,
by recursion on the blocks and without any state.

* `Port`: a node together with the kind of one of its edges. At every
  moment of the pass exactly one port waits for the next node; it is
  `Builder.source`.
* `Body.nodes`, `Body.edges`, `Body.exit`: the nodes that a body adds, the
  edges, and the port that waits afterwards, for a body that starts at
  node `n` with the port `p` waiting.
* `foldl_visit`: the pass over the statements of a body does exactly that.
  What it does to the contexts is `Open.advance`: the construct that
  awaited a node is served, every `repetir` without a first node gets one,
  and the innermost `si` remembers the last node of its branch.
* `Body.chart_eq`: the chart of a nested body.

The pass looks for a construct that awaits a node through all open ones.
The invariant that makes the answer unique is `Open.Calm`: once the
innermost such construct is served, no other one is left.
-/

namespace Pseudocode

open Pseudocode.Flow List Open Body Statement Builder Kind

variable {c : Open} {cs outer : List Open} {s t : Builder}

namespace Flow

abbrev Port : Type := Nat × EdgeKind

def Port.to (p : Port) (target : Nat) (back : Bool := false) : Edge :=
  ⟨p.1, target, p.2, back⟩

def nodeLabel (s : Statement) : Text :=
  match s.form with
  | .whileLoop condition => whileLabel condition
  | .forLoop counter start stop => forLabel counter start stop
  | .untilTest condition => untilLabel condition
  | .ifTest condition => ifLabel condition
  | _ => statementLabel s

def Loop.pretest (counted : Bool) : Loop :=
  if counted then .forLoop else .whileLoop

end Flow

namespace Body

variable {b : Body} {n : Nat}

def nodes : Body → List Node
  | .nil => []
  | .comment _ rest => rest.nodes
  | .plain s rest => ⟨nodeLabel s.1, .process⟩ :: rest.nodes
  | .pretest counted head body _ rest =>
    ⟨nodeLabel head.1, .decision⟩ :: ⟨(Loop.pretest counted).afterLabel, .terminal⟩ ::
      (body.nodes ++ rest.nodes)
  | .posttest _ body test rest =>
    ⟨Loop.repeatLoop.afterLabel, .terminal⟩ ::
      (body.nodes ++ ⟨nodeLabel test.1, .decision⟩ :: rest.nodes)
  | .choice head _ yes _ rest =>
    ⟨nodeLabel head.1, .decision⟩ :: ⟨"Fin si", .terminal⟩ :: (yes.nodes ++ rest.nodes)
  | .choiceElse head _ yes _ no _ rest =>
    ⟨nodeLabel head.1, .decision⟩ :: ⟨"Fin si", .terminal⟩ ::
      (yes.nodes ++ (no.nodes ++ rest.nodes))

def size (b : Body) : Nat :=
  b.nodes.length

/-- The first node that the run of a body comes to, if its nodes are
numbered from `n` on; a body of comments has none. -/
def first? (n : Nat) : Body → Option Nat
  | .nil => none
  | .comment _ rest => rest.first? n
  | .posttest _ body _ _ => some ((body.first? (n + 1)).getD (n + 1 + body.size))
  | _ => some n

def exit (n : Nat) (p : Port) : Body → Port
  | .nil => p
  | .comment _ rest => rest.exit n p
  | .plain _ rest => rest.exit (n + 1) (n, .always)
  | .pretest _ _ body _ rest => rest.exit (n + 2 + body.size) (n + 1, .always)
  | .posttest _ body _ rest => rest.exit (n + 2 + body.size) (n, .always)
  | .choice _ _ yes _ rest => rest.exit (n + 2 + yes.size) (n + 1, .always)
  | .choiceElse _ _ yes _ no _ rest =>
    rest.exit (n + 2 + yes.size + no.size) (n + 1, .always)

def edges (n : Nat) (p : Port) : Body → List Edge
  | .nil => []
  | .comment _ rest => rest.edges n p
  | .plain _ rest => p.to n :: rest.edges (n + 1) (n, .always)
  | .pretest _ _ body _ rest =>
    p.to n :: (body.edges (n + 2) (n, .yes) ++
      Port.to (body.exit (n + 2) (n, .yes)) n true :: Port.to (n, .no) (n + 1) ::
        rest.edges (n + 2 + body.size) (n + 1, .always))
  | .posttest _ body _ rest =>
    let test := n + 1 + body.size
    body.edges (n + 1) p ++
      Port.to (body.exit (n + 1) p) test ::
        Port.to (test, .no) ((body.first? (n + 1)).getD test) true :: Port.to (test, .yes) n ::
          rest.edges (n + 2 + body.size) (n, .always)
  | .choice _ _ yes _ rest =>
    p.to n :: (yes.edges (n + 2) (n, .yes) ++
      Port.to (yes.exit (n + 2) (n, .yes)) (n + 1) :: Port.to (n, .no) (n + 1) ::
        rest.edges (n + 2 + yes.size) (n + 1, .always))
  | .choiceElse _ _ yes _ no _ rest =>
    p.to n :: (yes.edges (n + 2) (n, .yes) ++ (no.edges (n + 2 + yes.size) (n, .no) ++
      Port.to (yes.exit (n + 2) (n, .yes)) (n + 1) ::
        Port.to (no.exit (n + 2 + yes.size) (n, .no)) (n + 1) ::
          rest.edges (n + 2 + yes.size + no.size) (n + 1, .always)))

/-- The last node of a body, if it has one. -/
def last? (n : Nat) (p : Port) (b : Body) : Option Nat :=
  (b.first? n).map fun _ => (b.exit n p).1

theorem of_first?_eq_none (h : b.first? n = none) (p : Port) :
    b.nodes = [] ∧ b.edges n p = [] ∧ b.exit n p = p := by
  induction b with
  | nil => exact ⟨rfl, rfl, rfl⟩
  | comment s rest ih => exact ih h
  | plain | pretest | posttest | choice | choiceElse => simp [first?] at h

theorem exit_kind_always (b : Body) (n l : Nat) : (b.exit n (l, .always)).2 = .always := by
  induction b generalizing n l with
  | nil => rfl
  | comment s rest ih => exact ih n l
  | plain s rest ih => exact ih _ _
  | pretest counted head body tail rest _ ih => exact ih _ _
  | posttest head body test rest _ ih => exact ih _ _
  | choice head mark yes tail rest _ ih => exact ih _ _
  | choiceElse head mark yes middle no tail rest _ _ ih => exact ih _ _

theorem exit_kind_of_first? {f : Nat} (h : b.first? n = some f) (p : Port) :
    (b.exit n p).2 = .always := by
  induction b with
  | nil => simp [first?] at h
  | comment s rest ih => exact ih h
  | plain s rest => exact exit_kind_always rest _ _
  | pretest counted head body tail rest => exact exit_kind_always rest _ _
  | posttest head body test rest => exact exit_kind_always rest _ _
  | choice head mark yes tail rest => exact exit_kind_always rest _ _
  | choiceElse head mark yes middle no tail rest => exact exit_kind_always rest _ _

theorem edges_of_first? {f : Nat} (h : b.first? n = some f) (p q : Port) :
    b.edges n p = p.to f :: (b.edges n q).tail ∧ b.exit n p = b.exit n q := by
  induction b generalizing n f p q with
  | nil => simp [first?] at h
  | comment s rest ih => exact ih h p q
  | posttest head body test rest ihBody =>
    obtain rfl : (body.first? (n + 1)).getD (n + 1 + body.size) = f := by simpa [first?] using h
    cases hb : body.first? (n + 1) with
    | none =>
      obtain ⟨-, hp, hp'⟩ := of_first?_eq_none hb p
      obtain ⟨-, hq, hq'⟩ := of_first?_eq_none hb q
      simp [edges, exit, hp, hp', hq]
    | some =>
      obtain ⟨hp, hexit⟩ := ihBody hb p q
      have hq := (ihBody hb q q).1
      rw [edges, edges, hp, hq, hexit]
      exact ⟨rfl, rfl⟩
  | plain => exact ⟨by simp [edges, (by simpa [first?] using h)], rfl⟩
  | pretest | choice | choiceElse => exact ⟨by simp [edges, (by simpa [first?] using h)], rfl⟩

end Body

namespace Flow

variable {p : Port}

/-! ### The open constructs

`advance first last` is what a body with a first and a last node does to
the constructs that are open around it. -/

namespace Open

/-- The constructs after the innermost one that awaits a node has got
it. -/
def servedAll (cs : List Open) : List Open :=
  match serve? cs with
  | some (_, cs') => cs'
  | none => cs

/-- The constructs after the innermost one, if it is a `si`, has noted
the end of its branch. -/
def recordTop (last : Nat) : List Open → List Open
  | [] => []
  | c :: outer => c.record last :: outer

/-- The constructs after a part of the body with a first and a last
node. -/
def advance (first last : Nat) (cs : List Open) : List Open :=
  recordTop last ((servedAll cs).map (enter first))

def Calm (cs : List Open) : Prop :=
  serve? (servedAll cs) = none

@[simp] theorem pending?_enter (first : Nat) (c : Open) :
    (c.enter first).pending? = c.pending? := by
  cases c with
  | branch | pretest => rfl
  | posttest after entry => cases entry <;> rfl

@[simp] theorem pending?_record (last : Nat) (c : Open) :
    (c.record last).pending? = c.pending? := by
  cases c with
  | branch decision join inElse awaiting =>
    cases inElse <;> cases awaiting <;> rfl
  | pretest | posttest => rfl

theorem serve?_eq_none_iff (cs : List Open) : serve? cs = none ↔ ∀ c ∈ cs, c.pending? = none := by
  induction cs with
  | nil => simp [serve?]
  | cons c outer ih =>
    cases hc : c.pending? with
    | none => simp [serve?, hc, ih]
    | some => simp [serve?, hc]

theorem servedAll_of_serve?_eq_none (h : serve? cs = none) : servedAll cs = cs := by
  simp [servedAll, h]

theorem servedAll_cons_of_pending (h : c.pending? = some p)
    (outer : List Open) : servedAll (c :: outer) = c.served :: outer := by
  simp [servedAll, serve?, h]

theorem servedAll_cons_of_not_pending (h : c.pending? = none) (outer : List Open) :
    servedAll (c :: outer) = c :: servedAll outer := by
  cases ho : serve? outer with
  | none | some => simp [servedAll, serve?, h, ho]

theorem serve?_recordTop_eq_none_iff (last : Nat) (cs : List Open) :
    serve? (recordTop last cs) = none ↔ serve? cs = none := by
  cases cs with
  | nil => rfl
  | cons => simp [recordTop, serve?_eq_none_iff]

theorem serve?_map_enter_eq_none_iff (first : Nat) (cs : List Open) :
    serve? (cs.map (enter first)) = none ↔ serve? cs = none := by
  simp [serve?_eq_none_iff]

theorem serve?_advance (h : Calm cs) (first last : Nat) :
    serve? (advance first last cs) = none := by
  rw [advance, serve?_recordTop_eq_none_iff, serve?_map_enter_eq_none_iff]
  exact h

theorem calm_of_serve?_eq_none (h : serve? cs = none) : Calm cs := by
  rw [Calm, servedAll_of_serve?_eq_none h]
  exact h

theorem calm_advance (h : Calm cs) (first last : Nat) : Calm (advance first last cs) :=
  calm_of_serve?_eq_none (serve?_advance h first last)

theorem enter_enter (f g : Nat) (c : Open) : (c.enter f).enter g = c.enter f := by
  cases c with
  | branch | pretest => rfl
  | posttest after entry => cases entry <;> rfl

theorem map_enter_map_enter (f g : Nat) (cs : List Open) :
    (cs.map (enter f)).map (enter g) = cs.map (enter f) := by
  simp [enter_enter]

theorem enter_record (f l : Nat) (c : Open) : (c.record l).enter f = (c.enter f).record l := by
  cases c with
  | branch decision join inElse => cases inElse <;> rfl
  | pretest => rfl
  | posttest after entry => cases entry <;> rfl

theorem record_record (l l' : Nat) (c : Open) : (c.record l).record l' = c.record l' := by
  cases c with
  | branch decision join inElse => cases inElse <;> rfl
  | pretest | posttest => rfl

theorem map_enter_advance (f l g : Nat) (cs : List Open) :
    (advance f l cs).map (enter g) = advance f l cs := by
  rw [advance]
  cases servedAll cs with
  | nil => rfl
  | cons => simp [recordTop, enter_record, enter_enter]

theorem recordTop_advance (f l l' : Nat) (cs : List Open) :
    recordTop l' (advance f l cs) = advance f l' cs := by
  rw [advance, advance]
  cases servedAll cs with
  | nil => rfl
  | cons => simp [recordTop, record_record]

theorem advance_advance (h : Calm cs) (f l f' l' : Nat) :
    advance f' l' (advance f l cs) = advance f l' cs := by
  rw [advance, servedAll_of_serve?_eq_none (serve?_advance h f l), map_enter_advance,
    recordTop_advance]

end Open

namespace Builder

variable {decision : Nat} {awaiting : Bool}

/-- The port that waits for the next node. -/
def source (s : Builder) : Port :=
  match Open.serve? s.contexts with
  | some (p, _) => p
  | none => (s.current, .always)

/-- The state after a part of the body that adds nodes and edges and has
a first and a last node. -/
def grow (s : Builder) (nodes : List Node) (edges : List Edge) (first last : Nat) : Builder :=
  { s with
    chart := ⟨s.chart.nodes ++ nodes, s.chart.edges ++ edges⟩
    contexts := Open.advance first last s.contexts
    current := last }

def after (s : Builder) (b : Body) : Builder :=
  match b.first? s.chart.size with
  | none => s
  | some first =>
    s.grow b.nodes (b.edges s.chart.size s.source) first (b.exit s.chart.size s.source).1

theorem settle_eq (s : Builder) (last : Nat) :
    s.settle last = { s with current := last, contexts := recordTop last s.contexts } := by
  unfold settle
  cases s.contexts <;> rfl

theorem connect_eq (s : Builder) (n : Nat) : s.connect n = s.grow [] [s.source.to n] n n := by
  rw [connect, settle_eq]
  cases h : serve? s.contexts with
  | none => simp [source, advance, servedAll, h, edge, Chart.addEdge, grow, Port.to]
  | some => simp [source, advance, servedAll, h, edge, Chart.addEdge, grow, Port.to]

@[simp] theorem size_grow (s : Builder) (N : List Node) (E : List Edge) (f l : Nat) :
    (s.grow N E f l).chart.size = s.chart.size + N.length := by
  simp [grow, Chart.size]

section

variable (h : Calm s.contexts)
include h

theorem calm_grow (N : List Node) (E : List Edge)
    (f l : Nat) : Calm (s.grow N E f l).contexts :=
  calm_advance h f l

theorem source_grow (N : List Node) (E : List Edge)
    (f l : Nat) : (s.grow N E f l).source = (l, .always) := by
  simp [source, grow, serve?_advance h]

theorem grow_grow (N N' : List Node) (E E' : List Edge) (f l f' l' : Nat) :
    (s.grow N E f l).grow N' E' f' l' = s.grow (N ++ N') (E ++ E') f l' := by
  simp [grow, advance_advance h]

theorem grow_after (b : Body) (N : List Node)
    (E : List Edge) (f l n : Nat) (hn : n = s.chart.size + N.length) :
    (s.grow N E f l).after b =
      s.grow (N ++ b.nodes) (E ++ b.edges n (l, .always)) f (b.exit n (l, .always)).1 := by
  subst hn
  rw [after, size_grow, source_grow h]
  cases hb : b.first? (s.chart.size + N.length) with
  | none =>
    obtain ⟨h1, h2, h3⟩ := of_first?_eq_none hb (l, .always)
    simp [h1, h2, h3]
  | some => exact grow_grow h _ _ _ _ _ _ _ _

end

/-- The state with one more open construct. -/
def push (s : Builder) (c : Open) : Builder :=
  { s with contexts := c :: s.contexts }

@[simp] theorem chart_push (s : Builder) (c : Open) : (s.push c).chart = s.chart := rfl

theorem source_push_of_pending (s : Builder) (h : c.pending? = some p) : (s.push c).source = p := by
  simp [source, push, serve?, h]

/-- The state after a body inside a construct that awaited its first
node: the construct is served and, if it is a `si`, knows the last node
of the branch. Every `repetir` around it has its first node already. -/
theorem after_push (he : ∀ g, t.contexts.map (enter g) = t.contexts)
    (hc : c.pending? = some p) (b : Body) :
    (t.push c).after b =
      { t with
        chart := ⟨t.chart.nodes ++ b.nodes, t.chart.edges ++ b.edges t.chart.size p⟩
        contexts := (b.last? t.chart.size p).elim c c.served.record :: t.contexts
        current := (b.last? t.chart.size p).getD t.current } := by
  have hs : (t.push c).chart.size = t.chart.size := rfl
  rw [after, source_push_of_pending t hc, hs, last?]
  cases hb : b.first? t.chart.size with
  | none =>
    obtain ⟨h1, h2, -⟩ := of_first?_eq_none hb p
    simp [h1, h2, push]
  | some f =>
    -- Only a `repetir` takes a first node, and it never awaits one.
    have hce : (c.served).enter f = c.served := by
      cases c with
      | branch | pretest => rfl
      | posttest => simp [pending?] at hc
    have hca : advance f (b.exit t.chart.size p).1 (c :: t.contexts) =
        c.served.record (b.exit t.chart.size p).1 :: t.contexts := by
      rw [advance, servedAll_cons_of_pending hc, map_cons, hce, he f, recordTop]
    simp [grow, push, hca]

/-! ### One construct after another

Each lemma gives what the pass does with one statement, or with the
statements that open and close one construct. -/

section

variable (s : Builder)

theorem visit_comment (c : StatementOf .comment) : s.visit c.1 = s := by
  obtain ⟨⟨text, line, form⟩, h⟩ := c
  cases form <;> first | rfl | simp [kind, Form.kind] at h

theorem visit_mark (c : StatementOf .thenBranch) : s.visit c.1 = s := by
  obtain ⟨⟨text, line, form⟩, h⟩ := c
  cases form <;> first | rfl | simp [kind, Form.kind] at h

theorem foldl_visit_mark (mark : Option (StatementOf .thenBranch)) :
    (markStatements mark).foldl visit s = s := by
  cases mark with
  | none => rfl
  | some c => exact visit_mark s c

theorem connect_node (label : Text) (outline : Outline) (n : Nat) :
    (s.node label outline).connect n = s.grow [⟨label, outline⟩] [s.source.to n] n n := by
  rw [connect_eq]
  simp [grow, node, Chart.addNode, source]

theorem visit_plain (c : PlainStatement) :
    s.visit c.1 =
      s.grow [⟨nodeLabel c.1, .process⟩] [s.source.to s.chart.size] s.chart.size
        s.chart.size := by
  rw [← connect_node]
  obtain ⟨⟨text, line, form⟩, h⟩ := c
  cases form <;> first | rfl | simp [kind, Form.kind, isPlain] at h

theorem visit_pretestHead (counted : Bool) (head : StatementOf (pretestHead counted)) :
    s.visit head.1 =
      (s.grow [⟨nodeLabel head.1, .decision⟩, ⟨(Loop.pretest counted).afterLabel, .terminal⟩]
        [s.source.to s.chart.size] s.chart.size s.chart.size).push
          (.pretest counted s.chart.size (s.chart.size + 1) true) := by
  have key : ∀ (loop : Loop) (label : Text), s.openPretest loop label =
      (s.grow [⟨label, .decision⟩, ⟨loop.afterLabel, .terminal⟩] [s.source.to s.chart.size]
        s.chart.size s.chart.size).push
          (.pretest (loop == .forLoop) s.chart.size (s.chart.size + 1) true) := by
    intro loop label
    simp [openPretest, connect_eq, push, grow, node, Chart.addNode, source]
  obtain ⟨⟨text, line, form⟩, h⟩ := head
  cases counted with
  | false =>
    cases form with
    | whileLoop condition => exact key .whileLoop (whileLabel condition)
    | _ => cases h
  | true =>
    cases form with
    | forLoop counter start stop => exact key .forLoop (forLabel counter start stop)
    | _ => cases h

end

theorem closeLoop_of_top (hs : s.contexts = c :: outer)
    {loop : Loop} (hc : c.isLoop loop = true) (close : Builder → Builder) (line : Nat) :
    s.closeLoop loop close line = close s := by
  have hidx : s.contexts.findIdx? (isLoop loop) = some 0 := by
    rw [hs, findIdx?_cons, if_pos hc]
  rw [closeLoop, hidx]
  rfl

theorem withBranch_of_top
    (hs : s.contexts = c :: outer) (hc : c.isBranch = true) (close : Builder → Builder) :
    s.withBranch close = close s := by
  have hidx : s.contexts.findIdx? isBranch = some 0 := by
    rw [hs, findIdx?_cons, if_pos hc]
  rw [withBranch, hidx]
  rfl

theorem visit_pretestTail {counted : Bool} {after : Nat}
    (hs : s.contexts = .pretest counted decision after awaiting :: outer)
    (tail : StatementOf (pretestTail counted)) :
    s.visit tail.1 = { s with contexts := outer }.endPretest decision after awaiting := by
  have key : ∀ line, s.closeLoop (Loop.pretest counted) closeInnermost line =
      { s with contexts := outer }.endPretest decision after awaiting := by
    intro line
    rw [closeLoop_of_top hs (by cases counted <;> rfl), closeInnermost, hs]
  obtain ⟨⟨text, line, form⟩, h⟩ := tail
  cases counted with
  | false =>
    cases form with
    | endWhile => exact key line
    | _ => cases h
  | true =>
    cases form with
    | endFor => exact key line
    | _ => cases h

/-- The state with the nodes and edges of a construct added, after which
the pass goes on from the node `last`. -/
def leave (t : Builder) (nodes : List Node) (edges : List Edge) (last : Nat) : Builder :=
  { t with
    chart := ⟨t.chart.nodes ++ nodes, t.chart.edges ++ edges⟩
    contexts := Open.recordTop last t.contexts
    current := last }

/-- A loop that tests first. The edge back to the test leaves from
whatever port waits after the body: from the test itself, by its `si`, if
the body has no node. -/
theorem visit_pretest (s : Builder) (counted : Bool)
    (head : StatementOf (pretestHead counted)) (body : Body)
    (tail : StatementOf (pretestTail counted)) (n : Nat) (hn : s.chart.size = n) :
    ((s.visit head.1).after body).visit tail.1 =
      s.grow
        (⟨nodeLabel head.1, .decision⟩ :: ⟨(Loop.pretest counted).afterLabel, .terminal⟩ ::
          body.nodes)
        (s.source.to n :: (body.edges (n + 2) (n, .yes) ++
          [Port.to (body.exit (n + 2) (n, .yes)) n true, Port.to (n, .no) (n + 1)])) n (n + 1) := by
  rw [visit_pretestHead, hn, after_push (fun g => map_enter_advance _ _ g _)
    rfl, size_grow, hn, last?]
  cases hb : body.first? (n + 2) with
  | none =>
    obtain ⟨h1, h2, h3⟩ := of_first?_eq_none hb (n, .yes)
    rw [visit_pretestTail rfl]
    simp [endPretest, settle_eq, edge, Chart.addEdge, grow, recordTop_advance, Port.to, h3]
  | some =>
    have h := exit_kind_of_first? hb (n, .yes)
    rw [visit_pretestTail rfl]
    simp [endPretest, settle_eq, edge, Chart.addEdge, grow, recordTop_advance, Port.to, h]

theorem visit_posttestHead (s : Builder) (head : StatementOf .repeatLoop) :
    s.visit head.1 =
      (s.node Loop.repeatLoop.afterLabel .terminal).push (.posttest s.chart.size none) := by
  obtain ⟨⟨text, line, form⟩, h⟩ := head
  cases form with
  | repeatLoop => rfl
  | _ => cases h

theorem visit_posttestTest {after : Nat} {entry : Option Nat}
    (hs : s.contexts = .posttest after entry :: outer) (test : StatementOf .untilTest) :
    s.visit test.1 = s.closePosttest (nodeLabel test.1) := by
  obtain ⟨⟨text, line, form⟩, h⟩ := test
  cases form with
  | untilTest condition =>
    show s.closeLoop .repeatLoop (closePosttest · (untilLabel condition)) line = _
    rw [closeLoop_of_top hs rfl]
    rfl
  | _ => cases h

theorem source_posttestHead (s : Builder) (head : StatementOf .repeatLoop) :
    (s.visit head.1).source = s.source := by
  rw [visit_posttestHead]
  cases hc : serve? s.contexts with
  | none | some => simp [source, push, node, serve?, pending?, hc]

theorem size_posttestHead (s : Builder) (head : StatementOf .repeatLoop) :
    (s.visit head.1).chart.size = s.chart.size + 1 := by
  rw [visit_posttestHead]
  simp [node, Chart.addNode, Chart.size]

/-- The test of a `repetir` is a node like any other to what waits
before it, and only then gets the two edges of its own. -/
theorem closePosttest_eq {u : Builder} {after : Nat} {entry : Option Nat}
    (hu : u.contexts = .posttest after entry :: outer) (label : Text) :
    u.closePosttest label =
      { u with
        chart := ⟨u.chart.nodes ++ [⟨label, .decision⟩], u.chart.edges ++ [u.source.to u.chart.size,
            Port.to (u.chart.size, .no) (entry.getD u.chart.size) true,
            Port.to (u.chart.size, .yes) after]⟩
        contexts := recordTop after
          ((servedAll outer).map (enter u.chart.size))
        current := after } := by
  have hc : advance u.chart.size u.chart.size u.contexts =
      .posttest after (some (entry.getD u.chart.size)) ::
        (servedAll outer).map (enter u.chart.size) := by
    rw [hu, advance, servedAll_cons_of_not_pending rfl]
    cases entry <;> rfl
  rw [closePosttest, connect_node]
  simp [grow, hc, settle_eq, edge, Chart.addEdge, Port.to]

theorem calm_posttest (h : Calm t.contexts) (after : Nat) :
    Calm (t.push (.posttest after none)).contexts := by
  show serve? (servedAll (.posttest after none :: t.contexts)) = none
  have hserved : serve? (servedAll t.contexts) = none := h
  rw [servedAll_cons_of_not_pending rfl]
  simp [serve?, pending?, hserved]

/-- A `repetir` does not await a node itself, so its body is wired to
what waited before the loop, and every `repetir` around it that has no
first node shares the one found here. -/
theorem visit_posttest (h : Calm s.contexts) (head : StatementOf .repeatLoop)
    (body : Body) (test : StatementOf .untilTest) (n : Nat) (hn : s.chart.size = n) :
    ((s.visit head.1).after body).visit test.1 =
      s.grow
        (⟨Loop.repeatLoop.afterLabel, .terminal⟩ ::
          (body.nodes ++ [⟨nodeLabel test.1, .decision⟩]))
        (body.edges (n + 1) s.source ++
          [Port.to (body.exit (n + 1) s.source) (n + 1 + body.size),
            Port.to (n + 1 + body.size, .no)
              ((body.first? (n + 1)).getD (n + 1 + body.size)) true,
            Port.to (n + 1 + body.size, .yes) n])
        ((body.first? (n + 1)).getD (n + 1 + body.size)) n := by
  have hnodes : (s.visit head.1).chart =
      ⟨s.chart.nodes ++ [⟨Loop.repeatLoop.afterLabel, .terminal⟩], s.chart.edges⟩ := by
    rw [visit_posttestHead]
    rfl
  have hsize : (s.visit head.1).chart.size = n + 1 := by
    rw [size_posttestHead, hn]
  have hcontexts : (s.visit head.1).contexts = .posttest n none :: s.contexts := by
    rw [visit_posttestHead, hn]
    rfl
  have hignored : (s.visit head.1).ignored = s.ignored := by
    rw [visit_posttestHead]
    rfl
  have hserved : servedAll (s.visit head.1).contexts =
      .posttest n none :: servedAll s.contexts := by
    rw [hcontexts, servedAll_cons_of_not_pending rfl]
  have hcalm : Calm (s.visit head.1).contexts := by
    rw [visit_posttestHead]
    exact calm_posttest h _
  have hsource := source_posttestHead s head
  rw [after, hsize, hsource]
  cases hb : body.first? (n + 1) with
  | none =>
    obtain ⟨h1, h2, h3⟩ := of_first?_eq_none hb s.source
    rw [visit_posttestTest hcontexts, closePosttest_eq hcontexts, hsize, hsource]
    simp [grow, hnodes, hignored, h1, h2, h3, size, advance]
  | some f =>
    have hk : (body.exit (n + 1) s.source) = ((body.exit (n + 1) s.source).1, .always) :=
      Prod.ext rfl (exit_kind_of_first? hb s.source)
    -- The contexts around the loop, served and with a first node, stay as they are.
    have houter : servedAll ((servedAll s.contexts).map (enter f)) =
        (servedAll s.contexts).map (enter f) :=
      servedAll_of_serve?_eq_none ((serve?_map_enter_eq_none_iff _ _).2 h)
    have hu : ((s.visit head.1).grow body.nodes (body.edges (n + 1) s.source) f
        (body.exit (n + 1) s.source).1).contexts =
          .posttest n (some f) :: (servedAll s.contexts).map (enter f) := by
      simp [grow, advance, hserved, recordTop, enter, record]
    rw [visit_posttestTest hu, closePosttest_eq hu, source_grow hcalm, size_grow, hsize, houter]
    simp [grow, hnodes, hignored, size, advance, map_enter_map_enter, ← hk, -map_map]

theorem visit_choiceHead (s : Builder) (head : StatementOf .ifTest) :
    s.visit head.1 =
      (s.grow [⟨nodeLabel head.1, .decision⟩, ⟨"Fin si", .terminal⟩]
        [s.source.to s.chart.size] s.chart.size s.chart.size).push
          (.branch s.chart.size (s.chart.size + 1) false true none none) := by
  obtain ⟨⟨text, line, form⟩, h⟩ := head
  cases form with
  | ifTest condition =>
    show s.openBranch (ifLabel condition) = _
    simp [openBranch, connect_eq, push, grow, node, Chart.addNode, source, nodeLabel]
  | _ => cases h

theorem visit_middle {join : Nat} {inElse : Bool} {thenLast elseLast : Option Nat}
    (hs : s.contexts = .branch decision join inElse awaiting thenLast elseLast :: outer)
    (middle : StatementOf .elseBranch) :
    s.visit middle.1 =
      { s with contexts := outer, current := decision }.push
        (.branch decision join true true thenLast elseLast) := by
  obtain ⟨⟨text, line, form⟩, h⟩ := middle
  cases form with
  | elseBranch =>
    show s.withBranch startElse = _
    rw [withBranch_of_top hs rfl, startElse, hs]
    rfl
  | _ => cases h

theorem visit_choiceTail {join : Nat} {inElse : Bool} {thenLast elseLast : Option Nat}
    (hs : s.contexts = .branch decision join inElse awaiting thenLast elseLast :: outer)
    (tail : StatementOf .endIf) :
    s.visit tail.1 = { s with contexts := outer }.joinBranch decision join thenLast elseLast := by
  obtain ⟨⟨text, line, form⟩, h⟩ := tail
  cases form with
  | endIf =>
    show s.withBranch closeInnermost = _
    rw [withBranch_of_top hs rfl, closeInnermost, hs]
  | _ => cases h

/-- The port that a branch leaves waiting, by the last node that was noted
of it. -/
def branchEnd (p : Port) : Option Nat → Port
  | some last => (last, .always)
  | none => p

theorem joinBranch_eq (t : Builder) (decision join : Nat) (thenLast elseLast : Option Nat) :
    t.joinBranch decision join thenLast elseLast =
      t.leave []
        [Port.to (branchEnd (decision, .yes) thenLast) join,
          Port.to (branchEnd (decision, .no) elseLast) join] join := by
  cases thenLast <;> cases elseLast <;>
    simp [joinBranch, settle_eq, edge, Chart.addEdge, leave, Port.to, branchEnd]

theorem branchEnd_last (b : Body) (n : Nat) (p : Port) :
    branchEnd p (b.last? n p) = b.exit n p := by
  rw [last?]
  cases hb : b.first? n with
  | none => exact (of_first?_eq_none hb p).2.2.symm
  | some => exact Prod.ext rfl (exit_kind_of_first? hb p).symm

section

variable (s : Builder) (head : StatementOf .ifTest) (yes : Body)

theorem after_choiceHead (n : Nat) (hn : s.chart.size = n) :
    ∃ awaiting current, (s.visit head.1).after yes =
      { s.grow (⟨nodeLabel head.1, .decision⟩ :: ⟨"Fin si", .terminal⟩ :: yes.nodes)
          (s.source.to n :: yes.edges (n + 2) (n, .yes)) n n with
        current := current }.push
          (.branch n (n + 1) false awaiting (yes.last? (n + 2) (n, .yes)) none) := by
  rw [visit_choiceHead, hn, after_push (fun g => map_enter_advance _ _ g _)
    (p := (n, .yes)) rfl, size_grow, hn]
  refine ⟨(yes.last? (n + 2) (n, .yes)).isNone, (yes.last? (n + 2) (n, .yes)).getD n, ?_⟩
  cases yes.last? (n + 2) (n, .yes) with
  | none | some => simp [grow, push, served, record]

theorem visit_choice (tail : StatementOf .endIf) (n : Nat) (hn : s.chart.size = n) :
    ((s.visit head.1).after yes).visit tail.1 =
      s.grow (⟨nodeLabel head.1, .decision⟩ :: ⟨"Fin si", .terminal⟩ :: yes.nodes)
        (s.source.to n :: (yes.edges (n + 2) (n, .yes) ++
          [Port.to (yes.exit (n + 2) (n, .yes)) (n + 1), Port.to (n, .no) (n + 1)])) n (n + 1) := by
  obtain ⟨awaiting, current, hyes⟩ := after_choiceHead s head yes n hn
  rw [hyes, visit_choiceTail rfl, joinBranch_eq, branchEnd_last]
  simp [leave, push, grow, recordTop_advance, branchEnd]

theorem visit_choiceElse (middle : StatementOf .elseBranch) (no : Body) (tail : StatementOf .endIf)
    (n : Nat) (hn : s.chart.size = n) :
    ((((s.visit head.1).after yes).visit middle.1).after no).visit tail.1 =
      s.grow
        (⟨nodeLabel head.1, .decision⟩ :: ⟨"Fin si", .terminal⟩ :: (yes.nodes ++ no.nodes))
        (s.source.to n :: (yes.edges (n + 2) (n, .yes) ++ (no.edges (n + 2 + yes.size) (n, .no) ++
          [Port.to (yes.exit (n + 2) (n, .yes)) (n + 1),
            Port.to (no.exit (n + 2 + yes.size) (n, .no)) (n + 1)]))) n (n + 1) := by
  obtain ⟨awaiting, current, hyes⟩ := after_choiceHead s head yes n hn
  have hsize : s.chart.nodes.length + (yes.nodes.length + 1 + 1) = n + 2 + yes.size := by
    rw [← hn, Chart.size, size]
    omega
  rw [hyes, visit_middle rfl, after_push (fun g => map_enter_advance _ _ g _)
    (p := (n, .no)) rfl]
  have hno := branchEnd_last no (n + 2 + yes.size) (n, .no)
  cases hlast : no.last? (n + 2 + yes.size) (n, .no) with
  | none | some =>
    rw [hlast] at hno
    simp only [push, grow, Chart.size, length_append, length_cons, hsize, hlast]
    rw [visit_choiceTail rfl, joinBranch_eq, branchEnd_last]
    simp [leave, recordTop_advance, hno]

end

/-! ### The whole pass -/

theorem calm_push (h : serve? t.contexts = none) (c : Open) :
    Calm (t.push c).contexts := by
  show serve? (servedAll (c :: t.contexts)) = none
  cases hc : c.pending? with
  | none =>
    rw [servedAll_cons_of_not_pending hc, servedAll_of_serve?_eq_none h]
    simp [serve?, hc, h]
  | some =>
    have hp : c.served.pending? = none := by
      cases c <;> rfl
    rw [servedAll_cons_of_pending hc]
    simp [serve?, hp, h]

section

variable (h : Calm s.contexts)
include h

theorem calm_visit_pretestHead (counted : Bool)
    (head : StatementOf (pretestHead counted)) : Calm (s.visit head.1).contexts := by
  rw [visit_pretestHead]
  exact calm_push (serve?_advance h _ _) _

theorem calm_visit_posttestHead
    (head : StatementOf .repeatLoop) : Calm (s.visit head.1).contexts := by
  rw [visit_posttestHead]
  exact calm_posttest h _

theorem calm_visit_choiceHead
    (head : StatementOf .ifTest) : Calm (s.visit head.1).contexts := by
  rw [visit_choiceHead]
  exact calm_push (serve?_advance h _ _) _

theorem calm_visit_middle (head : StatementOf .ifTest)
    (yes : Body) (middle : StatementOf .elseBranch) :
    Calm (((s.visit head.1).after yes).visit middle.1).contexts ∧
      (((s.visit head.1).after yes).visit middle.1).chart.size = s.chart.size + 2 + yes.size := by
  obtain ⟨awaiting, current, hyes⟩ := after_choiceHead s head yes _ rfl
  rw [hyes, visit_middle rfl]
  refine ⟨calm_push (serve?_advance h _ _) _, ?_⟩
  simp [grow, Chart.size, size]
  omega

end

theorem foldl_visit (b : Body) (s : Builder) (h : Calm s.contexts) :
    b.statements.foldl visit s = s.after b := by
  induction b generalizing s with
  | nil => rfl
  | comment c rest ih =>
    rw [statements, foldl_cons, visit_comment, ih s h]
    rfl
  | plain c rest ih =>
    rw [statements, foldl_cons, visit_plain, ih _ (calm_grow h _ _ _ _),
      grow_after h _ _ _ _ _ _ rfl]
    rfl
  | pretest counted head body tail rest ihBody ihRest =>
    rw [statements, foldl_cons, foldl_append, foldl_cons,
      ihBody _ (calm_visit_pretestHead h _ head), visit_pretest s counted head body tail _ rfl,
      ihRest _ (calm_grow h _ _ _ _),
      grow_after h _ _ _ _ _ (s.chart.size + 2 + body.size) (by simp [size]; omega)]
    simp [after, first?, nodes, edges, exit]
  | posttest head body test rest ihBody ihRest =>
    rw [statements, foldl_cons, foldl_append, foldl_cons,
      ihBody _ (calm_visit_posttestHead h head), visit_posttest h head body test _ rfl,
      ihRest _ (calm_grow h _ _ _ _),
      grow_after h _ _ _ _ _ (s.chart.size + 2 + body.size) (by simp [size]; omega)]
    simp [after, first?, nodes, edges, exit]
  | choice head mark yes tail rest ihYes ihRest =>
    rw [statements, foldl_cons, foldl_append, foldl_visit_mark, foldl_append,
      foldl_cons, ihYes _ (calm_visit_choiceHead h head), visit_choice s head yes tail _ rfl,
      ihRest _ (calm_grow h _ _ _ _),
      grow_after h _ _ _ _ _ (s.chart.size + 2 + yes.size) (by simp [size]; omega)]
    simp [after, first?, nodes, edges, exit]
  | choiceElse head mark yes middle no tail rest ihYes ihNo ihRest =>
    rw [statements, foldl_cons, foldl_append, foldl_visit_mark, foldl_append,
      foldl_cons, ihYes _ (calm_visit_choiceHead h head), foldl_append,
      foldl_cons, ihNo _ (calm_visit_middle h head yes middle).1,
      visit_choiceElse s head yes middle no tail _ rfl, ihRest _ (calm_grow h _ _ _ _),
      grow_after h _ _ _ _ _ (s.chart.size + 2 + yes.size + no.size) (by simp [size]; omega)]
    simp [after, first?, nodes, edges, exit]

/-! ### Closing constructs -/

theorem closeInnermost_of_nil (hs : s.contexts = []) : s.closeInnermost = s := by
  rw [closeInnermost, hs]

section Closing

variable {P : Builder → Prop} (hP : ∀ t, P t → P t.closeInnermost) (h : P s)
include hP h

theorem closeMany_induction (k : Nat) : P (s.closeMany k) := by
  induction k generalizing s with
  | zero => exact h
  | succ k ih => exact ih (hP s h)

variable {close : Builder → Builder} (hclose : ∀ t, P t → P (close t))
include hclose

theorem withBranch_induction : P (s.withBranch close) := by
  unfold withBranch
  split
  · exact hclose _ (closeMany_induction hP h _)
  · exact h

theorem closeLoop_induction (loop : Loop) (line : Nat)
    (hignored : ∀ ignored, P { s with ignored }) : P (s.closeLoop loop close line) := by
  unfold closeLoop
  split
  · exact hclose _ (closeMany_induction hP h _)
  · exact hignored _

end Closing

theorem size_after (s : Builder) (b : Body) : (s.after b).chart.size = s.chart.size + b.size := by
  rw [after]
  cases hb : b.first? s.chart.size with
  | none => simp [size, (of_first?_eq_none hb (0, .always)).1]
  | some => exact size_grow _ _ _ _ _

theorem finish_of_closed (s : Builder) (h : s.contexts = []) :
    s.finish.chart =
      ⟨s.chart.nodes ++ [⟨"Fin", .terminal⟩],
        s.chart.edges ++ [Port.to (s.current, .always) s.chart.size]⟩ := by
  simp [finish, h, closeMany, node, edge, Chart.addNode, Chart.addEdge, Port.to]

end Builder

end Flow

abbrev Body.chart (b : Body) : Chart :=
  Chart.ofBody b.statements

theorem Body.chart_eq (b : Body) :
    b.chart =
      ⟨⟨"Inicio", .terminal⟩ :: (b.nodes ++ [⟨"Fin", .terminal⟩]),
        b.edges 1 (0, .always) ++ [Port.to (b.exit 1 (0, .always)) (1 + b.size)]⟩ := by
  have hfold : b.statements.foldl visit start = start.after b :=
    foldl_visit b _ rfl
  have hexit : ((b.exit 1 (0, .always)).1, EdgeKind.always) = b.exit 1 (0, .always) :=
    Prod.ext rfl (exit_kind_always b 1 0).symm
  have hsource : start.source = (0, .always) := rfl
  have hsize : start.chart.size = 1 := rfl
  rw [chart, Chart.ofBody, ofBody, hfold, Builder.after, hsize]
  cases hb : b.first? 1 with
  | none =>
    obtain ⟨h1, h2, h3⟩ := of_first?_eq_none hb (0, .always)
    rw [h2, h3, size, h1]
    rfl
  | some =>
    rw [finish_of_closed _ rfl, size_grow, ← hexit]
    rfl

end Pseudocode
