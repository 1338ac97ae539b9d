import Pseudocode.Proofs.Flow.Walk

/-!
# A chart is walked as its body is read

The structured reading of a body knows its blocks: a loop that tests
first tests before each round, a `repetir` after it, a `si` picks one
branch, every other statement is passed. It is a machine with a list of
tasks and takes its answers from the same supply as a walk.

* `Reading.step`, `Body.reading`: the reading after a number of steps, with
  the positions of the statements it has visited.
* `nodeOf`: the node that the pass over the statements adds when it comes
  to a statement.
* `walk_visits_reading`: the walk through the chart of a nested body
  visits the nodes of the statements that the reading visits, in the same
  order, and comes to the end if and only if the reading does.

The proof follows the tasks. `Laid` says that a block stands in the chart
behind a port, `Ready` that a walk which leaves by a port finds the tasks
laid out before it. One step of the reading then is no step of the walk
or one (`step_of_here`); between two tasks the walk may pass terminals,
which is `Slides`.
-/

namespace Pseudocode

open Pseudocode.Flow List Body
open Builder hiding after

variable {i : Nat} {b : Body} {q : Port}

/-! ### The structured reading -/

/-- Something left to read. Statements are given by their positions. -/
inductive Task where
  /-- The block whose first statement is at `start`. -/
  | read (start : Nat) (b : Body)
  | test (head : Nat) (body : Body)
  | untilTest (start : Nat) (body : Body)

variable {head : StatementOf .ifTest} {inner rest yes : Body}
  {mark : Option (StatementOf .thenBranch)} {n : Nat} {tail : StatementOf .endIf}
  {tasks : List Task} {xs : List Statement}

/-- The state of a reading: its tasks, the number of answers used and the
positions of the statements visited. -/
structure Reading where
  tasks : List Task
  used : Nat := 0
  visited : List Nat := []

namespace Reading

def visit (r : Reading) (i : Nat) (tasks : List Task) : Reading :=
  { r with tasks, visited := r.visited ++ [i] }

def ask (answers : Nat → Bool) (r : Reading) (i : Nat) (yes no : List Task) : Reading :=
  ⟨if answers r.used then yes else no, r.used + 1, r.visited ++ [i]⟩

/-- One step of a reading; one that has come to its end stays there. -/
def step (answers : Nat → Bool) (r : Reading) : Reading :=
  match r.tasks with
  | [] => r
  | .read i b :: after =>
    match b with
    | .nil => { r with tasks := after }
    | .comment _ rest => { r with tasks := .read (i + 1) rest :: after }
    | .plain _ rest => r.visit i (.read (i + 1) rest :: after)
    | .pretest _ _ body _ rest =>
      { r with tasks := .test i body :: .read (i + 1 + body.length + 1) rest :: after }
    | .posttest _ body _ rest =>
      { r with tasks := .read (i + 1) body :: .untilTest (i + 1) body ::
          .read (i + 1 + body.length + 1) rest :: after }
    | .choice _ mark yes _ rest =>
      let first := i + 1 + (Body.markStatements mark).length
      let after := .read (first + yes.length + 1) rest :: after
      r.ask answers i (.read first yes :: after) after
    | .choiceElse _ mark yes _ no _ rest =>
      let first := i + 1 + (Body.markStatements mark).length
      let second := first + yes.length + 1
      let after := .read (second + no.length + 1) rest :: after
      r.ask answers i (.read first yes :: after) (.read second no :: after)
  | .test i body :: after =>
    r.ask answers i (.read (i + 1) body :: .test i body :: after) after
  | .untilTest i body :: after =>
    r.ask answers (i + body.length) after (.read i body :: .untilTest i body :: after)

def Finished (r : Reading) : Prop :=
  r.tasks = []

end Reading

def Body.reading (b : Body) (answers : Nat → Bool) : Nat → Reading
  | 0 => { tasks := [.read 0 b] }
  | n + 1 => (b.reading answers n).step answers

/-! ### The place of a statement in the chart -/

/-- The state of the pass when it comes to a position. -/
def stateAt (body : List Statement) (i : Nat) : Builder :=
  (body.take i).foldl Builder.visit Builder.start

def nodeOf (body : List Statement) (i : Nat) : Nat :=
  (stateAt body i).chart.size

theorem prefix_drop_succ {α : Type} {x : α} {xs l : List α}
    (h : x :: xs <+: l.drop i) : l[i]? = some x ∧ xs <+: l.drop (i + 1) := by
  obtain ⟨t, ht⟩ := h
  have hx : (l.drop i)[0]? = some x := by
    rw [← ht]
    rfl
  refine ⟨by simpa using hx, t, ?_⟩
  rw [← drop_drop, ← ht]
  rfl

theorem prefix_drop_add {α : Type} {xs ys l : List α} (h : xs ++ ys <+: l.drop i) :
    ys <+: l.drop (i + xs.length) := by
  obtain ⟨t, ht⟩ := h
  exact ⟨t, by rw [← drop_drop, ← ht, append_assoc, drop_left]⟩

section States

variable {body : List Statement} {i : Nat}

theorem stateAt_add (h : xs <+: body.drop i) :
    stateAt body (i + xs.length) = xs.foldl visit (stateAt body i) := by
  rw [stateAt, take_add, foldl_append, ← prefix_iff_eq_take.1 h]
  rfl

theorem stateAt_succ {s : Statement} (h : s :: xs <+: body.drop i) :
    stateAt body (i + 1) = (stateAt body i).visit s :=
  stateAt_add ((prefix_append [s] xs).trans h)

theorem stateAt_length (h : b.statements ++ xs <+: body.drop i)
    (hcalm : Open.Calm (stateAt body i).contexts) :
    stateAt body (i + b.length) = (stateAt body i).after b := by
  rw [Body.length, stateAt_add ((prefix_append _ _).trans h), foldl_visit b _ hcalm]

end States

/-- A block stands at a position of a body. -/
structure Stands (body : List Statement) (i : Nat) (b : Body) : Prop where
  found : b.statements <+: body.drop i
  calm : Open.Calm (stateAt body i).contexts

namespace Stands

variable {body : List Statement} {i : Nat}

theorem comment {s : StatementOf .comment} (h : Stands body i (.comment s rest)) :
    Stands body (i + 1) rest ∧ nodeOf body (i + 1) = nodeOf body i := by
  have hs : stateAt body (i + 1) = stateAt body i :=
    (stateAt_succ h.found).trans (visit_comment _ s)
  exact ⟨⟨(prefix_drop_succ h.found).2, hs ▸ h.calm⟩, congrArg (·.chart.size) hs⟩

theorem of_grow (hcalm : Open.Calm (stateAt body i).contexts) {j : Nat} {nodes : List Node}
    {edges : List Edge} {first last : Nat}
    (h : stateAt body j = (stateAt body i).grow nodes edges first last)
    (hfound : rest.statements <+: body.drop j) :
    Stands body j rest ∧ nodeOf body j = nodeOf body i + nodes.length := by
  refine ⟨⟨hfound, ?_⟩, ?_⟩
  · rw [h]
    exact calm_grow hcalm _ _ _ _
  · rw [nodeOf, h, size_grow, nodeOf]

theorem plain {s : PlainStatement} (h : Stands body i (.plain s rest)) :
    Stands body (i + 1) rest ∧ nodeOf body (i + 1) = nodeOf body i + 1 :=
  of_grow h.calm ((stateAt_succ h.found).trans (visit_plain _ s))
    (prefix_drop_succ h.found).2

theorem pretest {counted : Bool} {head : StatementOf (Kind.pretestHead counted)}
    {tail : StatementOf (Kind.pretestTail counted)}
    (h : Stands body i (.pretest counted head inner tail rest)) :
    (Stands body (i + 1) inner ∧ nodeOf body (i + 1) = nodeOf body i + 2) ∧
      Stands body (i + 1 + inner.length + 1) rest ∧
        nodeOf body (i + 1 + inner.length + 1) = nodeOf body i + 2 + inner.size := by
  have hfound := (prefix_drop_succ h.found).2
  have hhead := stateAt_succ h.found
  have hcalm : Open.Calm (stateAt body (i + 1)).contexts :=
    hhead ▸ calm_visit_pretestHead h.calm counted head
  have hrest := stateAt_succ (prefix_drop_add hfound)
  rw [← Body.length, stateAt_length hfound hcalm, hhead,
    visit_pretest _ counted head inner tail _ rfl] at hrest
  obtain ⟨hstands, hnode⟩ :=
    of_grow h.calm hrest (prefix_drop_succ (prefix_drop_add hfound)).2
  refine ⟨⟨⟨(prefix_append _ _).trans hfound, hcalm⟩, ?_⟩, hstands, ?_⟩
  · rw [nodeOf, hhead, visit_pretestHead, chart_push, size_grow]
    rfl
  · rw [hnode, Body.size]
    simp only [length_cons]
    omega

theorem posttest {head : StatementOf .repeatLoop} {test : StatementOf .untilTest}
    (h : Stands body i (.posttest head inner test rest)) :
    (Stands body (i + 1) inner ∧ nodeOf body (i + 1) = nodeOf body i + 1) ∧
      (nodeOf body (i + 1 + inner.length) = nodeOf body i + 1 + inner.size ∧
        body[i + 1 + inner.length]? = some test.1) ∧
        Stands body (i + 1 + inner.length + 1) rest ∧
          nodeOf body (i + 1 + inner.length + 1) = nodeOf body i + 2 + inner.size := by
  have hfound := (prefix_drop_succ h.found).2
  have hhead := stateAt_succ h.found
  have hsize : nodeOf body (i + 1) = nodeOf body i + 1 := by
    rw [nodeOf, hhead, visit_posttestHead, nodeOf]
    simp [node, Chart.addNode, Chart.size]
  have hcalm : Open.Calm (stateAt body (i + 1)).contexts :=
    hhead ▸ calm_visit_posttestHead h.calm head
  have hrest := stateAt_succ (prefix_drop_add hfound)
  rw [← Body.length, stateAt_length hfound hcalm, hhead,
    visit_posttest h.calm head inner test _ rfl] at hrest
  obtain ⟨hstands, hnode⟩ :=
    of_grow h.calm hrest (prefix_drop_succ (prefix_drop_add hfound)).2
  refine ⟨⟨⟨(prefix_append _ _).trans hfound, hcalm⟩, hsize⟩,
    ⟨?_, (prefix_drop_succ (prefix_drop_add hfound)).1⟩, hstands, ?_⟩
  · rw [nodeOf, stateAt_length hfound hcalm, size_after, ← nodeOf, hsize]
  · rw [hnode, Body.size]
    simp only [length_cons, length_append, length_nil]
    omega

theorem choiceHead (h : head.1 :: (Body.markStatements mark ++ xs) <+: body.drop i)
    (hcalm : Open.Calm (stateAt body i).contexts) :
    let first := i + 1 + (Body.markStatements mark).length
    xs <+: body.drop first ∧ stateAt body first = (stateAt body i).visit head.1 ∧
      Open.Calm (stateAt body first).contexts ∧ nodeOf body first = nodeOf body i + 2 := by
  have hmark := (prefix_drop_succ h).2
  have hfirst : stateAt body (i + 1 + (Body.markStatements mark).length) =
      (stateAt body i).visit head.1 := by
    rw [stateAt_add ((prefix_append _ _).trans hmark), foldl_visit_mark, stateAt_succ h]
  refine ⟨prefix_drop_add hmark, hfirst, ?_, ?_⟩
  · rw [hfirst]
    exact calm_visit_choiceHead hcalm head
  · rw [nodeOf, hfirst, visit_choiceHead, chart_push, size_grow]
    rfl

theorem choice (h : Stands body i (.choice head mark yes tail rest)) :
    let first := i + 1 + (Body.markStatements mark).length
    (Stands body first yes ∧ nodeOf body first = nodeOf body i + 2) ∧
      Stands body (first + yes.length + 1) rest ∧
        nodeOf body (first + yes.length + 1) = nodeOf body i + 2 + yes.size := by
  obtain ⟨hfound, hhead, hcalm, hsize⟩ := choiceHead h.found h.calm
  have hrest := stateAt_succ (prefix_drop_add hfound)
  rw [← Body.length, stateAt_length hfound hcalm, hhead,
    visit_choice _ head yes tail _ rfl] at hrest
  obtain ⟨hstands, hnode⟩ :=
    of_grow h.calm hrest (prefix_drop_succ (prefix_drop_add hfound)).2
  refine ⟨⟨⟨(prefix_append _ _).trans hfound, hcalm⟩, hsize⟩, hstands, ?_⟩
  rw [hnode, Body.size]
  simp only [length_cons]
  omega

theorem choiceElse {middle : StatementOf .elseBranch} {no : Body}
    (h : Stands body i (.choiceElse head mark yes middle no tail rest)) :
    let first := i + 1 + (Body.markStatements mark).length
    let second := first + yes.length + 1
    (Stands body first yes ∧ nodeOf body first = nodeOf body i + 2) ∧
      (Stands body second no ∧ nodeOf body second = nodeOf body i + 2 + yes.size) ∧
        Stands body (second + no.length + 1) rest ∧
          nodeOf body (second + no.length + 1) = nodeOf body i + 2 + yes.size + no.size := by
  obtain ⟨hfound, hhead, hcalm, hsize⟩ := choiceHead h.found h.calm
  have hno := (prefix_drop_succ (prefix_drop_add hfound)).2
  have hmiddle := stateAt_succ (prefix_drop_add hfound)
  rw [← Body.length] at hno hmiddle
  rw [stateAt_length hfound hcalm, hhead] at hmiddle
  obtain ⟨hcalm', hsize'⟩ := hmiddle ▸ calm_visit_middle h.calm head yes middle
  have hrest := stateAt_succ (prefix_drop_add hno)
  rw [← Body.length, stateAt_length hno hcalm', hmiddle,
    visit_choiceElse _ head yes middle no tail _ rfl] at hrest
  obtain ⟨hstands, hnode⟩ := of_grow h.calm hrest (prefix_drop_succ (prefix_drop_add hno)).2
  refine ⟨⟨⟨(prefix_append _ _).trans hfound, hcalm⟩, hsize⟩,
    ⟨⟨(prefix_append _ _).trans hno, hcalm'⟩, hsize'⟩, hstands, ?_⟩
  rw [hnode, Body.size, Body.size]
  simp only [length_cons, length_append]
  omega

end Stands

/-! ### Blocks in the chart -/

def Shows (g : Chart) (body : List Statement) (i : Nat) (outline : Outline) : Prop :=
  ∃ s, body[i]? = some s ∧ g.nodes[nodeOf body i]? = some ⟨nodeLabel s, outline⟩

/-- A block stands at a position of a body, and in a chart behind a
port. -/
structure Laid (g : Chart) (body : List Statement) (i : Nat) (p : Port) (b : Body) : Prop
    extends Stands body i b where
  nodes : b.nodes <+: g.nodes.drop (nodeOf body i)
  joins : ∀ e ∈ b.edges (nodeOf body i) p, g.Joins e.port e.target

/-- The body of a loop is laid out behind one way out of its test, and
leads back to the test. -/
structure LaidLoop (g : Chart) (body : List Statement) (test : Nat) (way : EdgeKind) (i : Nat)
    (inner : Body) : Prop where
  shows : Shows g body test .decision
  laid : Laid g body i (nodeOf body test, way) inner
  back : g.Joins (inner.exit (nodeOf body i) (nodeOf body test, way)) (nodeOf body test)

/-- A walk that leaves by the first port passes terminals only and then
leaves by the second. -/
inductive Slides (g : Chart) : Port → Port → Prop
  | refl (p : Port) : Slides g p p
  | pass {p q : Port} {n : Nat} : g.Joins p n → g.outline? n = some .terminal →
      Slides g (n, .always) q → Slides g p q

def Here (g : Chart) (body : List Statement) : List Task → Port → Prop
  | [], p => g.Joins p (g.size - 1)
  | .read i b :: after, p =>
    Laid g body i p b ∧ ∃ q, Slides g (b.exit (nodeOf body i) p) q ∧ Here g body after q
  | .test i inner :: after, p =>
    g.Joins p (nodeOf body i) ∧ LaidLoop g body i .yes (i + 1) inner ∧
      ∃ q, Slides g (nodeOf body i, .no) q ∧ Here g body after q
  | .untilTest i inner :: after, p =>
    let test := i + inner.length
    g.Joins p (nodeOf body test) ∧ LaidLoop g body test .no i inner ∧
      ∃ q, Slides g (nodeOf body test, .yes) q ∧ Here g body after q

def Ready (g : Chart) (body : List Statement) (tasks : List Task) (p : Port) : Prop :=
  ∃ q, Slides g p q ∧ Here g body tasks q

section Blocks

variable {g : Chart} {body : List Statement} {i : Nat} {p : Port}

theorem Here.ready (h : Here g body tasks p) : Ready g body tasks p :=
  ⟨p, .refl p, h⟩

theorem Here.ready_pass (h : Here g body tasks (n, .always))
    (hjoins : g.Joins p n) (hn : g.outline? n = some .terminal) : Ready g body tasks p :=
  ⟨(n, .always), .pass hjoins hn (.refl _), h⟩

theorem Laid.comment {s : StatementOf .comment}
    (h : Laid g body i p (.comment s rest)) : Laid g body (i + 1) p rest := by
  obtain ⟨hstands, hn⟩ := h.toStands.comment
  exact ⟨hstands, hn ▸ h.nodes, hn ▸ h.joins⟩

theorem Laid.plain {s : PlainStatement} (h : Laid g body i p (.plain s rest)) :
    g.Joins p (nodeOf body i) ∧ Shows g body i .process ∧
      Laid g body (i + 1) (nodeOf body i, .always) rest := by
  obtain ⟨hstands, hn⟩ := h.toStands.plain
  obtain ⟨hnode, hrest⟩ := prefix_drop_succ h.nodes
  refine ⟨h.joins _ (mem_cons_self ..), ⟨s.1, (prefix_drop_succ h.found).1, hnode⟩,
    hstands, hn ▸ hrest, ?_⟩
  rw [hn]
  exact fun e he => h.joins e (mem_cons_of_mem _ he)

theorem shows_head {s : Statement} {label : Text} {ns : List Node}
    (hfound : s :: xs <+: body.drop i)
    (hnodes : ⟨nodeLabel s, .decision⟩ :: ⟨label, .terminal⟩ :: ns <+:
      g.nodes.drop (nodeOf body i)) :
    Shows g body i .decision ∧ g.outline? (nodeOf body i + 1) = some .terminal ∧
      ns <+: g.nodes.drop (nodeOf body i + 2) := by
  obtain ⟨hnode, hnext⟩ := prefix_drop_succ hnodes
  obtain ⟨hterminal, hrest⟩ := prefix_drop_succ hnext
  exact ⟨⟨s, (prefix_drop_succ hfound).1, hnode⟩, by rw [Chart.outline?, hterminal]; rfl, hrest⟩

theorem Laid.pretest {counted : Bool} {head : StatementOf (Kind.pretestHead counted)}
    {tail : StatementOf (Kind.pretestTail counted)}
    (h : Laid g body i p (.pretest counted head inner tail rest)) :
    g.Joins p (nodeOf body i) ∧ LaidLoop g body i .yes (i + 1) inner ∧
      g.Joins (nodeOf body i, .no) (nodeOf body i + 1) ∧
        g.outline? (nodeOf body i + 1) = some .terminal ∧
          Laid g body (i + 1 + inner.length + 1) (nodeOf body i + 1, .always) rest := by
  obtain ⟨⟨hinner, hn⟩, hrest, hn'⟩ := h.toStands.pretest
  obtain ⟨hshows, hterminal, hnodes⟩ := shows_head h.found h.nodes
  have hjoins := h.joins
  simp only [edges, forall_mem_cons, forall_mem_append] at hjoins
  obtain ⟨henter, hbody, hback, hout, hafter⟩ := hjoins
  refine ⟨henter, ⟨hshows, ⟨hinner, ?_, ?_⟩, ?_⟩, hout, hterminal, hrest, ?_, ?_⟩
  · exact hn ▸ (prefix_append _ _).trans hnodes
  · exact hn ▸ hbody
  · exact hn ▸ hback
  · exact hn' ▸ prefix_drop_add hnodes
  · exact hn' ▸ hafter

/-- The body of a `repetir` is laid out also behind the `no` of its test,
which leads to the first node of the body, or to the test itself. -/
theorem Laid.relay (h : Laid g body i p b) {target : Nat}
    (hexit : g.Joins (b.exit (nodeOf body i) p) target)
    (hback : g.Joins q ((b.first? (nodeOf body i)).getD target)) :
    Laid g body i q b ∧ g.Joins (b.exit (nodeOf body i) q) target := by
  cases hb : b.first? (nodeOf body i) with
  | none =>
    rw [hb] at hback
    obtain ⟨-, hedges, hq⟩ := of_first?_eq_none hb q
    refine ⟨⟨h.toStands, h.nodes, by simp [hedges]⟩, ?_⟩
    rw [hq]
    exact hback
  | some =>
    rw [hb] at hback
    have hjoins := h.joins
    rw [(edges_of_first? hb p q).1, forall_mem_cons] at hjoins
    refine ⟨⟨h.toStands, h.nodes, ?_⟩, (edges_of_first? hb p q).2 ▸ hexit⟩
    rw [(edges_of_first? hb q q).1, forall_mem_cons]
    exact ⟨hback, hjoins.2⟩

theorem Laid.posttest {head : StatementOf .repeatLoop} {test : StatementOf .untilTest}
    (h : Laid g body i p (.posttest head inner test rest)) :
    let t := i + 1 + inner.length
    Laid g body (i + 1) p inner ∧
      g.Joins (inner.exit (nodeOf body (i + 1)) p) (nodeOf body t) ∧
        LaidLoop g body t .no (i + 1) inner ∧
          g.Joins (nodeOf body t, .yes) (nodeOf body i) ∧
            g.outline? (nodeOf body i) = some .terminal ∧
              Laid g body (t + 1) (nodeOf body i, .always) rest := by
  obtain ⟨⟨hinner, hn⟩, ⟨htest, hfound⟩, hrest, hn'⟩ := h.toStands.posttest
  obtain ⟨hterminal, hnodes⟩ := prefix_drop_succ h.nodes
  obtain ⟨hnode, hnodes'⟩ := prefix_drop_succ (prefix_drop_add hnodes)
  have hjoins := h.joins
  simp only [edges, forall_mem_cons, forall_mem_append] at hjoins
  obtain ⟨hbody, henter, hback, hout, hafter⟩ := hjoins
  have hlaid : Laid g body (i + 1) p inner :=
    ⟨hinner, hn ▸ (prefix_append _ _).trans hnodes, hn ▸ hbody⟩
  have hexit : g.Joins (inner.exit (nodeOf body (i + 1)) p) (nodeOf body (i + 1 + inner.length)) :=
    hn ▸ htest ▸ henter
  obtain ⟨hrelaid, hexit'⟩ := hlaid.relay hexit
    (hn ▸ htest ▸ hback)
  refine ⟨hlaid, hexit, ⟨⟨test.1, hfound, ?_⟩, hrelaid, hexit'⟩, htest ▸ hout, ?_, hrest, ?_, ?_⟩
  · rw [htest]
    exact hnode
  · rw [Chart.outline?, hterminal]
    rfl
  · rw [hn', show nodeOf body i + 2 + inner.size = nodeOf body i + 1 + inner.size + 1 by omega]
    exact hnodes'
  · exact hn' ▸ hafter

theorem Laid.choice (h : Laid g body i p (.choice head mark yes tail rest)) :
    let first := i + 1 + (Body.markStatements mark).length
    let join := nodeOf body i + 1
    g.Joins p (nodeOf body i) ∧ Shows g body i .decision ∧ g.outline? join = some .terminal ∧
      Laid g body first (nodeOf body i, .yes) yes ∧
        g.Joins (yes.exit (nodeOf body first) (nodeOf body i, .yes)) join ∧
          g.Joins (nodeOf body i, .no) join ∧
            Laid g body (first + yes.length + 1) (join, .always) rest := by
  obtain ⟨⟨hyes, hn⟩, hrest, hn'⟩ := h.toStands.choice
  obtain ⟨hshows, hterminal, hnodes⟩ := shows_head h.found h.nodes
  have hjoins := h.joins
  simp only [edges, forall_mem_cons, forall_mem_append] at hjoins
  obtain ⟨henter, hbody, hexit, hout, hafter⟩ := hjoins
  refine ⟨henter, hshows, hterminal, ⟨hyes, ?_, ?_⟩, hn ▸ hexit, hout, hrest, ?_, hn' ▸ hafter⟩
  · exact hn ▸ (prefix_append _ _).trans hnodes
  · exact hn ▸ hbody
  · exact hn' ▸ prefix_drop_add hnodes

theorem Laid.choiceElse {middle : StatementOf .elseBranch} {no : Body}
    (h : Laid g body i p (.choiceElse head mark yes middle no tail rest)) :
    let first := i + 1 + (Body.markStatements mark).length
    let second := first + yes.length + 1
    let join := nodeOf body i + 1
    g.Joins p (nodeOf body i) ∧ Shows g body i .decision ∧ g.outline? join = some .terminal ∧
      Laid g body first (nodeOf body i, .yes) yes ∧
        g.Joins (yes.exit (nodeOf body first) (nodeOf body i, .yes)) join ∧
          Laid g body second (nodeOf body i, .no) no ∧
            g.Joins (no.exit (nodeOf body second) (nodeOf body i, .no)) join ∧
              Laid g body (second + no.length + 1) (join, .always) rest := by
  obtain ⟨⟨hyes, hn⟩, ⟨hno, hm⟩, hrest, hn'⟩ := h.toStands.choiceElse
  obtain ⟨hshows, hterminal, hnodes⟩ := shows_head h.found h.nodes
  have hnodes' := prefix_drop_add hnodes
  have hjoins := h.joins
  simp only [edges, forall_mem_cons, forall_mem_append] at hjoins
  obtain ⟨henter, hbody, hbody', hexit, hexit', hafter⟩ := hjoins
  refine ⟨henter, hshows, hterminal, ⟨hyes, ?_, hn ▸ hbody⟩, hn ▸ hexit, ⟨hno, ?_, hm ▸ hbody'⟩,
    hm ▸ hexit', hrest, ?_, hn' ▸ hafter⟩
  · exact hn ▸ (prefix_append _ _).trans hnodes
  · exact hm ▸ (prefix_append _ _).trans hnodes'
  · exact hn' ▸ prefix_drop_add hnodes'

end Blocks

/-! ### One step of the reading -/

def Body.parts : Body → Nat
  | .nil => 1
  | .comment _ rest | .plain _ rest => rest.parts + 1
  | .pretest _ _ body _ rest | .posttest _ body _ rest => body.parts + rest.parts + 1
  | .choice _ _ yes _ rest => yes.parts + rest.parts + 1
  | .choiceElse _ _ yes _ no _ rest => yes.parts + no.parts + rest.parts + 1

/-- The parts of the blocks that are still to be opened. A step of the
reading that visits no statement makes it smaller. -/
def weight : List Task → Nat
  | [] => 0
  | .read _ b :: after => b.parts + weight after
  | _ :: after => weight after

section Steps

variable {g : Chart} {body : List Statement} {answers : Nat → Bool} {p : Port}
variable {r : Reading}

/-- The reading goes on without a visit, at the same port. -/
structure Passes (g : Chart) (body : List Statement) (p : Port) (r r' : Reading) : Prop where
  used : r'.used = r.used
  visited : r'.visited = r.visited
  lighter : weight r'.tasks < weight r.tasks
  ready : Ready g body r'.tasks p

/-- The reading visits a statement; the port leads to the node of the
statement, and the reading goes on by the port by which a walk leaves
it. -/
def Meets (g : Chart) (body : List Statement) (answers : Nat → Bool) (p : Port)
    (r r' : Reading) : Prop :=
  ∃ i outline, r'.visited = r.visited ++ [i] ∧ g.Joins p (nodeOf body i) ∧
    outline ≠ .terminal ∧ Shows g body i outline ∧
      ∃ q, g.Leaves answers (nodeOf body i) r.used q r'.used ∧ Ready g body r'.tasks q

theorem Shows.outline? {outline : Outline} (h : Shows g body i outline) :
    g.outline? (nodeOf body i) = some outline := by
  obtain ⟨s, -, hnode⟩ := h
  rw [Chart.outline?, hnode]
  rfl

theorem meets_ask {yes no : List Task} (hjoins : g.Joins p (nodeOf body i))
    (hshows : Shows g body i .decision) (hyes : Ready g body yes (nodeOf body i, .yes))
    (hno : Ready g body no (nodeOf body i, .no)) :
    Meets g body answers p r (r.ask answers i yes no) := by
  refine ⟨i, .decision, rfl, hjoins, by simp, hshows,
    (nodeOf body i, if answers r.used then .yes else .no), ?_, ?_⟩
  · rw [Chart.Leaves, if_pos hshows.outline?]
    exact ⟨rfl, rfl⟩
  · cases ha : answers r.used with
    | true => simpa [Reading.ask, ha] using hyes
    | false => simpa [Reading.ask, ha] using hno

theorem here_rest {j m : Nat} {after : List Task}
    (hlaid : Laid g body j (m, .always) rest) (hn : nodeOf body j = n)
    (hafter : Ready g body after (rest.exit n (m, .always))) :
    Here g body (.read j rest :: after) (m, .always) :=
  ⟨hlaid, hn ▸ hafter⟩

theorem step_of_read {after : List Task} (htasks : r.tasks = .read i b :: after)
    (hlaid : Laid g body i p b) (hafter : Ready g body after (b.exit (nodeOf body i) p)) :
    Passes g body p r (r.step answers) ∨ Meets g body answers p r (r.step answers) := by
  rw [Reading.step, htasks]
  cases b with
  | nil =>
    refine .inl ⟨rfl, rfl, ?_, hafter⟩
    simp [htasks, weight, parts]
  | comment =>
    have hn := hlaid.toStands.comment.2
    refine .inl ⟨rfl, rfl, ?_, Here.ready ⟨hlaid.comment, ?_⟩⟩
    · simp [htasks, weight, parts]
    · rw [hn]
      exact hafter
  | plain =>
    obtain ⟨hjoins, hshows, hrest⟩ := hlaid.plain
    refine .inr ⟨i, .process, rfl, hjoins, by simp, hshows, (nodeOf body i, .always), ?_,
      (here_rest hrest hlaid.toStands.plain.2 hafter).ready⟩
    rw [Chart.Leaves, hshows.outline?]
    exact ⟨rfl, rfl⟩
  | pretest =>
    obtain ⟨hjoins, hloop, hout, hterminal, hrest⟩ := hlaid.pretest
    have hnext := here_rest hrest hlaid.toStands.pretest.2.2 hafter
    refine .inl ⟨rfl, rfl, ?_, Here.ready ⟨hjoins, hloop, hnext.ready_pass hout hterminal⟩⟩
    simp only [htasks, weight, parts]
    omega
  | posttest =>
    obtain ⟨hinner, henter, hloop, hout, hterminal, hrest⟩ := hlaid.posttest
    have hnext := here_rest hrest hlaid.toStands.posttest.2.2.2 hafter
    refine .inl ⟨rfl, rfl, ?_, Here.ready ⟨hinner, Here.ready ⟨henter, hloop, ?_⟩⟩⟩
    · simp only [htasks, weight, parts]
      omega
    · exact hnext.ready_pass hout hterminal
  | choice =>
    obtain ⟨hjoins, hshows, hterminal, hyes, hexit, hout, hrest⟩ := hlaid.choice
    have hnext := here_rest hrest hlaid.toStands.choice.2.2 hafter
    exact .inr (meets_ask hjoins hshows (Here.ready ⟨hyes, hnext.ready_pass hexit hterminal⟩)
      (hnext.ready_pass hout hterminal))
  | choiceElse =>
    obtain ⟨hjoins, hshows, hterminal, hyes, hexit, hno, hexit', hrest⟩ := hlaid.choiceElse
    have hnext := here_rest hrest hlaid.toStands.choiceElse.2.2.2 hafter
    exact .inr (meets_ask hjoins hshows (Here.ready ⟨hyes, hnext.ready_pass hexit hterminal⟩)
      (Here.ready ⟨hno, hnext.ready_pass hexit' hterminal⟩))

theorem step_of_here (answers : Nat → Bool) (h : Here g body r.tasks p) :
    r.tasks = [] ∨ Passes g body p r (r.step answers) ∨
      Meets g body answers p r (r.step answers) := by
  cases htasks : r.tasks with
  | nil => exact .inl rfl
  | cons task after =>
    rw [htasks] at h
    right
    cases task with
    | read => exact step_of_read htasks h.1 h.2
    | test i inner =>
      obtain ⟨hjoins, hloop, hafter⟩ := h
      rw [Reading.step, htasks]
      -- The body leads back to the test, with the same tasks after it.
      have hround : Here g body (.test i inner :: after)
          (inner.exit (nodeOf body (i + 1)) (nodeOf body i, .yes)) := ⟨hloop.back, hloop, hafter⟩
      exact .inr (meets_ask hjoins hloop.shows (Here.ready ⟨hloop.laid, hround.ready⟩) hafter)
    | untilTest i inner =>
      obtain ⟨hjoins, hloop, hafter⟩ := h
      rw [Reading.step, htasks]
      have hround : Here g body (.untilTest i inner :: after)
          (inner.exit (nodeOf body i) (nodeOf body (i + inner.length), .no)) :=
        ⟨hloop.back, hloop, hafter⟩
      exact .inr (meets_ask hjoins hloop.shows hafter (Here.ready ⟨hloop.laid, hround.ready⟩))

theorem Here.exists_joins (h : Here g body tasks p) : ∃ n, g.Joins p n := by
  induction tasks with
  | nil => exact ⟨_, h⟩
  | cons task after ih =>
    cases task with
    | read i b =>
      obtain ⟨hlaid, q, hslides, hafter⟩ := h
      cases hb : b.first? (nodeOf body i) with
      | none =>
        rw [(of_first?_eq_none hb p).2.2] at hslides
        cases hslides with
        | refl => exact ih hafter
        | pass hjoins _ _ => exact ⟨_, hjoins⟩
      | some f =>
        have hjoins := hlaid.joins
        rw [(edges_of_first? hb p p).1] at hjoins
        exact ⟨f, hjoins _ (mem_cons_self ..)⟩
    | test | untilTest => exact ⟨_, h.1⟩

theorem Ready.exists_joins (h : Ready g body tasks p) : ∃ n, g.Joins p n := by
  obtain ⟨q, hslides, hhere⟩ := h
  cases hslides with
  | refl => exact hhere.exists_joins
  | pass hjoins _ _ => exact ⟨_, hjoins⟩

end Steps

/-! ### The walk and the reading side by side -/

section Simulation

variable {p : Port}

/-- A walk stands where a reading stands: what is left to read is laid out
behind the port by which the walk leaves its node, and both have visited
the same. -/
structure InStep (b : Body) (answers : Nat → Bool) (w : Walker) (r : Reading) : Prop where
  ready : ∃ p, (Chart.ofBody b.statements).Leaves answers w.node w.used p r.used ∧
    Ready (Chart.ofBody b.statements) b.statements r.tasks p
  visited : w.visited = r.visited.map (nodeOf b.statements)
  shows : ∀ i ∈ r.visited, ∃ outline, outline ≠ .terminal ∧
    Shows (Chart.ofBody b.statements) b.statements i outline

/-- A walk and a reading have both come to the end, having visited the
same. -/
structure Ended (b : Body) (w : Walker) (r : Reading) : Prop where
  node : w.node = (Chart.ofBody b.statements).size - 1
  finished : r.Finished
  visited : w.visited = r.visited.map (nodeOf b.statements)

variable {b : Body} {answers : Nat → Bool} {w : Walker} {r : Reading}

theorem ends_terminal (b : Body) :
    b.chart.outline? (b.chart.size - 1) =
      some .terminal := by
  simp [chart_eq, Chart.outline?, Chart.size]

theorem laid_start (b : Body) : Laid b.chart b.statements 0 (0, .always) b := by
  have hn : nodeOf b.statements 0 = 1 := rfl
  refine ⟨⟨prefix_rfl, rfl⟩, ?_, ?_⟩
  · rw [chart_eq]
    exact prefix_append _ _
  · intro e he
    refine ⟨e, ?_, rfl, rfl⟩
    rw [chart_eq]
    exact mem_append_left _ he

theorem joins_end (b : Body) :
    b.chart.Joins (b.exit 1 (0, .always))
      (b.chart.size - 1) := by
  refine ⟨Port.to (b.exit 1 (0, .always)) (1 + b.size), ?_, rfl, ?_⟩
  · simp [chart_eq]
  · simp [chart_eq, Chart.size, Body.size, Port.to]
    omega

theorem leaves_start (b : Body) (answers : Nat → Bool) :
    b.chart.Leaves answers 0 0 (0, .always) 0 := by
  have hstart : b.chart.outline? 0 = some .terminal := by
    rw [chart_eq]
    rfl
  rw [Chart.Leaves, hstart]
  exact ⟨rfl, rfl⟩

theorem inStep_start (b : Body) (answers : Nat → Bool) :
    InStep b answers (b.chart.walk answers 0) (b.reading answers 0) := by
  have hend : Here b.chart b.statements []
      (b.exit (nodeOf b.statements 0) (0, .always)) := joins_end b
  exact ⟨⟨(0, .always), leaves_start b answers, Here.ready ⟨laid_start b, hend.ready⟩⟩, rfl,
    by simp [reading]⟩

theorem walkStep_terminal (hleaves : b.chart.Leaves answers w.node w.used p r.used)
    (hjoins : b.chart.Joins p n) (hn : b.chart.outline? n = some .terminal) :
    b.chart.walkStep answers w = ⟨n, r.used, w.visited⟩ := by
  rw [walkStep_of_joins b answers hleaves hjoins, Chart.arrive, if_pos hn]

section

variable (h : InStep b answers w r) (hleaves : b.chart.Leaves answers w.node w.used p r.used)
include h hleaves

theorem InStep.pass (hjoins : b.chart.Joins p n)
    (hn : b.chart.outline? n = some .terminal) (hslides : Slides b.chart (n, .always) q)
    (hhere : Here b.chart b.statements r.tasks q) :
    InStep b answers (b.chart.walkStep answers w) r := by
  rw [walkStep_terminal hleaves hjoins hn]
  refine ⟨⟨(n, .always), ?_, q, hslides, hhere⟩, h.visited, h.shows⟩
  rw [Chart.Leaves, hn]
  exact ⟨rfl, rfl⟩

theorem InStep.meet (hmeets : Meets b.chart b.statements answers p r (r.step answers)) :
    InStep b answers (b.chart.walkStep answers w) (r.step answers) := by
  obtain ⟨i, outline, hvisited, hjoins, houtline, hshows, q, hq, hready⟩ := hmeets
  have harrive : b.chart.walkStep answers w =
      ⟨nodeOf b.statements i, r.used, w.visited ++ [nodeOf b.statements i]⟩ := by
    rw [walkStep_of_joins b answers hleaves hjoins, Chart.arrive, hshows.outline?,
      if_neg (by simpa using houtline)]
  rw [harrive]
  refine ⟨⟨q, hq, hready⟩, ?_, ?_⟩
  · rw [hvisited, map_append, ← h.visited]
    rfl
  · rw [hvisited]
    simp only [mem_append, mem_singleton]
    rintro j (hj | rfl)
    · exact h.shows j hj
    · exact ⟨outline, houtline, hshows⟩

theorem InStep.silent (hpasses : Passes b.chart b.statements p r (r.step answers)) :
    InStep b answers w (r.step answers) :=
  ⟨⟨p, hpasses.used ▸ hleaves, hpasses.ready⟩, hpasses.visited ▸ h.visited,
    hpasses.visited ▸ h.shows⟩

theorem InStep.ended (hfinished : r.tasks = []) (hhere : Here b.chart b.statements r.tasks p) :
    Ended b (b.chart.walkStep answers w) r := by
  rw [hfinished] at hhere
  rw [walkStep_terminal hleaves hhere (ends_terminal b)]
  exact ⟨rfl, hfinished, h.visited⟩

end

theorem Ended.stays (h : Ended b w r) : b.chart.walkStep answers w = w := by
  have hnone : b.chart.outEdges w.node = [] := by
    rw [Chart.outEdges, filter_eq_nil_iff]
    intro e he hsource
    have hlt := (fits_of_mem_edges he).1
    have hs : e.source = w.node := by simpa using hsource
    rw [hs, h.node] at hlt
    exact Nat.lt_irrefl _ hlt
  have hways : b.chart.ways w.node (answers w.used) = [] := by
    rw [Chart.ways, hnone]
    simp
  rw [Chart.walkStep, hways]

/-- Every step of the walk is some steps of the reading: at most one
visit, after the blocks have been opened that lead to it. -/
theorem exists_reading_walkStep (n : Nat) (h : InStep b answers w (b.reading answers n)) :
    ∃ n', InStep b answers (b.chart.walkStep answers w) (b.reading answers n') ∨
      Ended b (b.chart.walkStep answers w) (b.reading answers n') := by
  induction hw : weight (b.reading answers n).tasks using Nat.strongRecOn generalizing n with
  | ind k ih =>
    obtain ⟨p, hleaves, q, hslides, hhere⟩ := h.ready
    cases hslides with
    | pass hjoins hterminal hslides =>
      exact ⟨n, .inl (h.pass hleaves hjoins hterminal hslides hhere)⟩
    | refl =>
      obtain hfinished | hpasses | hmeets := step_of_here answers hhere
      · exact ⟨n, .inr (h.ended hleaves hfinished hhere)⟩
      · exact ih _ (hw ▸ hpasses.lighter) (n + 1) (h.silent hleaves hpasses) rfl
      · exact ⟨n + 1, .inl (h.meet hleaves hmeets)⟩

theorem exists_reading (b : Body) (answers : Nat → Bool) (m : Nat) :
    ∃ n, InStep b answers (b.chart.walk answers m) (b.reading answers n) ∨
      Ended b (b.chart.walk answers m) (b.reading answers n) := by
  induction m with
  | zero => exact ⟨0, .inl (inStep_start b answers)⟩
  | succ m ih =>
    obtain ⟨n, h | h⟩ := ih
    · exact exists_reading_walkStep n h
    · exact ⟨n, .inr (by rw [Chart.walk, h.stays]; exact h)⟩

theorem exists_walk_here (m : Nat) (h : InStep b answers (b.chart.walk answers m) r)
    (hleaves : b.chart.Leaves answers
      (b.chart.walk answers m).node
      (b.chart.walk answers m).used p r.used) (hslides : Slides b.chart p q)
    (hhere : Here b.chart b.statements r.tasks q) :
    ∃ m', InStep b answers (b.chart.walk answers m') r ∧
      b.chart.Leaves answers
        (b.chart.walk answers m').node
        (b.chart.walk answers m').used q r.used := by
  induction hslides generalizing m with
  | refl => exact ⟨m, h, hleaves⟩
  | pass hjoins hterminal hslides ih =>
    have hpass := h.pass hleaves hjoins hterminal hslides hhere
    refine ih (m + 1) hpass ?_ hhere
    rw [Chart.walk, walkStep_terminal hleaves hjoins hterminal, Chart.Leaves, hterminal]
    exact ⟨rfl, rfl⟩

theorem exists_walk (b : Body) (answers : Nat → Bool) (n : Nat) :
    ∃ m, InStep b answers (b.chart.walk answers m) (b.reading answers n) := by
  induction n with
  | zero => exact ⟨0, inStep_start b answers⟩
  | succ n ih =>
    obtain ⟨m, h⟩ := ih
    obtain ⟨p, hleaves, q, hslides, hhere⟩ := h.ready
    obtain ⟨m', h', hleaves'⟩ := exists_walk_here m h hleaves hslides hhere
    obtain hfinished | hpasses | hmeets := step_of_here answers hhere
    · refine ⟨m', ?_⟩
      have hstep : (b.reading answers n).step answers = b.reading answers n := by
        rw [Reading.step, hfinished]
      rw [reading, hstep]
      exact h'
    · exact ⟨m', h'.silent hleaves' hpasses⟩
    · exact ⟨m' + 1, h'.meet hleaves' hmeets⟩

theorem exists_walk_ended (hfinished : (b.reading answers n).Finished) :
    ∃ m, Ended b (b.chart.walk answers m) (b.reading answers n) := by
  obtain ⟨m, h⟩ := exists_walk b answers n
  obtain ⟨p, hleaves, q, hslides, hhere⟩ := h.ready
  obtain ⟨m', h', hleaves'⟩ := exists_walk_here m h hleaves hslides hhere
  exact ⟨m' + 1, h'.ended hleaves' hfinished hhere⟩

theorem InStep.node_ne_end (h : InStep b answers w r) : w.node ≠ b.chart.size - 1 := by
  obtain ⟨p, hleaves, q, hslides, hhere⟩ := h.ready
  obtain ⟨n, e, he, hport, -⟩ := Ready.exists_joins ⟨q, hslides, hhere⟩
  have hp : p.1 = w.node := by
    rw [Chart.Leaves] at hleaves
    split at hleaves <;> rw [hleaves.1]
  have hlt := (fits_of_mem_edges he).1
  have hsource : e.source = w.node := by
    rw [← hp, ← hport]
    rfl
  omega

/-- The walk through the chart of a nested body follows the structured
reading of the body, whatever the answers are. After any number of steps
the one has visited, terminals left out, the nodes of the statements that
the other has visited after some number of steps, in the same order; and
the walk comes to the end node if and only if the reading comes to its
end. The node of a visited statement shows this statement. -/
theorem walk_visits_reading (b : Body) (answers : Nat → Bool) :
    (∀ m, ∃ n, ((Chart.ofBody b.statements).walk answers m).visited =
        (b.reading answers n).visited.map (nodeOf b.statements)) ∧
      (∀ n, ∃ m, (b.reading answers n).visited.map (nodeOf b.statements) =
        ((Chart.ofBody b.statements).walk answers m).visited) ∧
      ((∃ m, ((Chart.ofBody b.statements).walk answers m).node =
          (Chart.ofBody b.statements).size - 1) ↔ ∃ n, (b.reading answers n).Finished) ∧
      ∀ n, ∀ i ∈ (b.reading answers n).visited, ∃ s outline,
        b.statements[i]? = some s ∧ outline ≠ .terminal ∧
          (Chart.ofBody b.statements).nodes[nodeOf b.statements i]? =
            some ⟨nodeLabel s, outline⟩ := by
  refine ⟨fun m => ?_, fun n => ?_, ⟨?_, ?_⟩, fun n i hi => ?_⟩
  · obtain ⟨n, h | h⟩ := exists_reading b answers m
    · exact ⟨n, h.visited⟩
    · exact ⟨n, h.visited⟩
  · obtain ⟨m, h⟩ := exists_walk b answers n
    exact ⟨m, h.visited.symm⟩
  · rintro ⟨m, hm⟩
    obtain ⟨n, h | h⟩ := exists_reading b answers m
    · exact absurd hm h.node_ne_end
    · exact ⟨n, h.finished⟩
  · rintro ⟨n, hn⟩
    obtain ⟨m, h⟩ := exists_walk_ended hn
    exact ⟨m, h.node⟩
  · obtain ⟨m, h⟩ := exists_walk b answers n
    obtain ⟨outline, houtline, s, hs, hnode⟩ := h.shows i hi
    exact ⟨s, outline, hs, houtline, hnode⟩

end Simulation

end Pseudocode
