import Mathlib.Data.List.Forall2
import Pseudocode.Proofs.Flow.Placement
import Pseudocode.Proofs.Flow.Reading

/-!
# The edges of a nested body's chart

The edges out of a decision are added at different moments: the one into
a body or a branch when its first node turns up, the others when the
construct is closed, and an empty body or branch gives its edge to the
decision itself. This module counts what comes out.

* `outEdges_ports`: the edges that leave a node are one for each of its
  ports, so a decision has a `si` and a `no` and any other node but the end
  has one edge without a label.
* `Body.reaches_exit`: from every node of a body there is a way to the node
  at which the body is left.
* `Body.loops`, `LoopSite.ClosedBy`: the loops of a body by the positions of
  their statements, and the edge that closes one. A loop that tests first
  is closed by an edge to its test; a `repetir` by an edge from its test to
  the node of the first statement behind its head that has one, which is
  the test itself if the body has none.
-/

namespace Pseudocode

open Pseudocode.Flow List Body

variable {n : Nat} {b : Body} {g : Chart}

/-! ### The edges that leave a node -/

namespace Flow

variable {node : Node}

theorem filter_portsFrom {nodes : List Node} {k : Nat} (h : nodes[k]? = some node) :
    (portsFrom n nodes).filter (fun p => p.1 == n + k) = node.outline.ports (n + k) := by
  have hall : ∀ (o : Outline) (m : Nat), (o.ports m).filter (fun p => p.1 == m) = o.ports m := by
    intro o m
    rw [filter_eq_self]
    intro p hp
    simp [(Outline.mem_ports_iff.1 hp).1]
  induction nodes generalizing n k with
  | nil => simp at h
  | cons first rest ih =>
    rw [portsFrom, filter_append]
    cases k with
    | zero =>
      obtain rfl : first = node := by simpa using h
      have hnone : (portsFrom (n + 1) rest).filter (fun p => p.1 == n + 0) = [] := by
        rw [filter_eq_nil_iff]
        intro p hp
        have hle := (exists_node_of_mem_portsFrom hp).1
        simp only [beq_iff_eq]
        omega
      rw [hnone, append_nil]
      exact hall first.outline n
    | succ k =>
      have hnone : (first.outline.ports n).filter (fun p => p.1 == n + (k + 1)) = [] := by
        rw [filter_eq_nil_iff]
        intro p hp
        have heq := (Outline.mem_ports_iff.1 hp).1
        simp only [beq_iff_eq]
        omega
      have hrest := ih (n := n + 1) (by simpa using h)
      rw [show n + 1 + k = n + (k + 1) by omega] at hrest
      rw [hnone, nil_append, hrest]

theorem outEdges_ports (hn : n < b.chart.size - 1) (hnode : b.chart.nodes[n]? = some node) :
    ((b.chart.outEdges n).map Edge.port).Perm (node.outline.ports n) := by
  have hports := (ports_perm b).filter (fun p => p.1 == n)
  have hfound : (⟨"Inicio", .terminal⟩ :: b.nodes)[n]? = some node := by
    rw [chart_eq] at hn hnode
    simp only [Chart.size, length_cons, length_append, length_nil] at hn
    rw [← cons_append, getElem?_append_left] at hnode
    · exact hnode
    · simp only [length_cons]
      omega
  have hnodes := filter_portsFrom (n := 0) hfound
  rw [Nat.zero_add] at hnodes
  rw [hnodes, filter_map] at hports
  exact hports

theorem Outline.ports_labels (o : Outline) (n : Nat) :
    (o.ports n).map (fun p => p.2.label?) =
      if o = .decision then [EdgeKind.yes.label?, EdgeKind.no.label?] else [none] := by
  cases o <;> rfl

theorem outEdges_labels (hn : n < b.chart.size - 1) (hnode : b.chart.nodes[n]? = some node) :
    ((b.chart.outEdges n).map fun e => e.kind.label?).Perm
      (if node.outline = .decision then [EdgeKind.yes.label?, EdgeKind.no.label?]
        else [none]) := by
  have hports := (outEdges_ports hn hnode).map fun p => p.2.label?
  rw [Outline.ports_labels, map_map] at hports
  exact hports

theorem outEdges_end (b : Body) : b.chart.outEdges (b.chart.size - 1) = [] := by
  rw [Chart.outEdges, filter_eq_nil_iff]
  intro e he
  have hlt := (fits_of_mem_edges he).1
  simp only [beq_iff_eq]
  omega

theorem Chart.Joins.reaches {p : Port} (h : g.Joins p n) : g.Reaches p.1 n := by
  obtain ⟨e, he, rfl, rfl⟩ := h
  exact Chart.reaches_of_mem he

/-- There is a way from each node of a range to a node. -/
def Chart.AllReach (g : Chart) (start stop target : Nat) : Prop :=
  ∀ k, start ≤ k → k < stop → g.Reaches k target

namespace Chart.AllReach

variable {g : Chart} {start middle stop target : Nat}

theorem mono {start' stop' : Nat} (h : g.AllReach start stop target) (hstart : start ≤ start')
    (hstop : stop' ≤ stop) : g.AllReach start' stop' target :=
  fun k hle hlt => h k (Nat.le_trans hstart hle) (Nat.lt_of_lt_of_le hlt hstop)

theorem cons (h : g.Reaches start target) (hrest : g.AllReach (start + 1) stop target) :
    g.AllReach start stop target := by
  intro k hle hlt
  rcases Nat.eq_or_lt_of_le hle with rfl | hk
  · exact h
  · exact hrest k hk hlt

theorem append (h : g.AllReach start middle target) (h' : g.AllReach middle stop target) :
    g.AllReach start stop target := by
  intro k hle hlt
  rcases Nat.lt_or_ge k middle with hk | hk
  · exact h k hle hk
  · exact h' k hk hlt

theorem trans {via : Nat} (h : g.AllReach start stop via) (h' : g.Reaches via target) :
    g.AllReach start stop target :=
  fun k hle hlt => Relation.ReflTransGen.trans (h k hle hlt) h'

end Chart.AllReach

end Flow

/-! ### The way out of a body -/

theorem Body.reaches_exit (b : Body) (n : Nat) (p : Port) (h : ∀ e ∈ b.edges n p, e ∈ g.edges) :
    g.Reaches p.1 (b.exit n p).1 ∧ g.AllReach n (n + b.size) (b.exit n p).1 := by
  -- A construct passes through its own nodes to the one after it, and the rest goes on from there.
  have hstep {e : Edge} {x : Nat} (he : e ∈ g.edges) (h : g.Reaches e.target x) :
      g.Reaches e.source x :=
    Relation.ReflTransGen.trans (Chart.reaches_of_mem he) h
  induction b generalizing n p with
  | nil => exact ⟨Relation.ReflTransGen.refl, fun k hle hlt => absurd hle (Nat.not_le.mpr hlt)⟩
  | comment s rest ih => exact ih n p h
  | plain s rest ih =>
    simp only [edges, forall_mem_cons] at h
    obtain ⟨hfirst, hrest⟩ := ih (n + 1) (n, .always) h.2
    refine ⟨hstep h.1 hfirst, .cons hfirst (hrest.mono (Nat.le_refl _) ?_)⟩
    simp only [size, nodes, length_cons]
    omega
  | pretest counted head inner tail rest ihInner ihRest
  | choice head mark inner tail rest ihInner ihRest =>
    simp only [edges, forall_mem_cons, forall_mem_append] at h
    obtain ⟨henter, hinner, hback, hout, hafter⟩ := h
    obtain ⟨-, hreach⟩ := ihInner (n + 2) (n, .yes) hinner
    obtain ⟨hnext, hrest⟩ := ihRest _ _ hafter
    have htest := hstep hout hnext
    refine ⟨hstep henter htest, .cons htest (.cons hnext (.append (hreach.trans (hstep hback ?_))
      (hrest.mono (Nat.le_refl _) ?_)))⟩
    · assumption
    · simp only [size, nodes, length_cons, length_append]
      omega
  | posttest head body test rest ihBody ihRest =>
    simp only [edges, forall_mem_cons, forall_mem_append] at h
    obtain ⟨hbody, htest, -, hout, hafter⟩ := h
    obtain ⟨hfirst, hinner⟩ := ihBody (n + 1) p hbody
    obtain ⟨hnext, hrest⟩ := ihRest _ _ hafter
    have hleave := hstep hout hnext
    have hend := hstep htest hleave
    refine ⟨Relation.ReflTransGen.trans hfirst hend, .cons hnext (.append (hinner.trans hend)
      (.cons hleave (hrest.mono (by omega) ?_)))⟩
    simp only [size, nodes, length_cons, length_append]
    omega
  | choiceElse head mark yes middle no tail rest ihYes ihNo ihRest =>
    simp only [edges, forall_mem_cons, forall_mem_append] at h
    obtain ⟨henter, hyes, hno, hjoin, hjoin', hafter⟩ := h
    obtain ⟨hfirst, hinner⟩ := ihYes (n + 2) (n, .yes) hyes
    obtain ⟨-, hinner'⟩ := ihNo (n + 2 + yes.size) (n, .no) hno
    obtain ⟨hnext, hrest⟩ := ihRest _ _ hafter
    have hyes := hstep hjoin hnext
    have htest := Relation.ReflTransGen.trans hfirst hyes
    refine ⟨hstep henter htest, .cons htest (.cons hnext (.append (hinner.trans hyes)
      (.append (hinner'.trans (hstep hjoin' hnext)) (hrest.mono (Nat.le_refl _) ?_))))⟩
    simp only [size, nodes, length_cons, length_append]
    omega

theorem Flow.reaches_end (b : Body) (hn : n < b.chart.size) :
    b.chart.Reaches n (b.chart.size - 1) := by
  have hsize : b.chart.size = 1 + b.size + 1 := by
    simp only [chart_eq, Chart.size, length_cons, length_append, length_nil, size]
    omega
  have hedges : ∀ e ∈ b.edges 1 (0, .always), e ∈ b.chart.edges := by
    intro e he
    rw [chart_eq]
    exact mem_append_left _ he
  obtain ⟨hstart, hbody⟩ := b.reaches_exit 1 (0, .always) hedges
  have hend := (joins_end b).reaches
  rcases Nat.lt_trichotomy n (1 + b.size) with hlt | rfl | hgt
  · rcases Nat.eq_zero_or_pos n with rfl | hpos
    · exact Relation.ReflTransGen.trans hstart hend
    · exact Relation.ReflTransGen.trans (hbody n hpos hlt) hend
  · rw [hsize]
    exact Relation.ReflTransGen.refl
  · omega

/-! ### The edges that close loops -/

/-- A statement of this kind has a node of its own. -/
def Kind.hasNode : Kind → Bool
  | .whileLoop | .forLoop | .untilTest | .ifTest => true
  | k => k.isPlain

def Kind.opensLoop : Kind → Bool
  | .whileLoop | .forLoop | .repeatLoop => true
  | _ => false

/-- The position of the first statement with a node of its own, from a
position on. -/
def placing (body : List Statement) (i : Nat) : Nat :=
  i + (body.drop i).findIdx fun s => s.kind.hasNode

/-- A loop, by the positions of its statements. -/
inductive LoopSite where
  /-- `mientras` or `para`, by its head. -/
  | pretest (head : Nat)
  | posttest (head test : Nat)

def Body.loops (i : Nat) : Body → List LoopSite
  | .nil => []
  | .comment _ rest => rest.loops (i + 1)
  | .plain _ rest => rest.loops (i + 1)
  | .pretest _ _ body _ rest =>
    body.loops (i + 1) ++ .pretest i :: rest.loops (i + 1 + body.length + 1)
  | .posttest _ body _ rest =>
    body.loops (i + 1) ++
      .posttest i (i + 1 + body.length) :: rest.loops (i + 1 + body.length + 1)
  | .choice _ mark yes _ rest =>
    let first := i + 1 + (markStatements mark).length
    yes.loops first ++ rest.loops (first + yes.length + 1)
  | .choiceElse _ mark yes _ no _ rest =>
    let first := i + 1 + (markStatements mark).length
    let second := first + yes.length + 1
    yes.loops first ++ (no.loops second ++ rest.loops (second + no.length + 1))

def LoopSite.ClosedBy (g : Chart) (body : List Statement) (e : Edge) : LoopSite → Prop
  | .pretest head => Shows g body head .decision ∧ e.target = nodeOf body head
  | .posttest head test => Shows g body test .decision ∧ e.source = nodeOf body test ∧
      e.target = nodeOf body (placing body (head + 1))

theorem Body.length_loops (b : Body) (i : Nat) :
    (b.loops i).length = b.statements.countP fun s => s.kind.opensLoop := by
  have hopens : ∀ {k : Kind} (s : StatementOf k), k.opensLoop = true → ∀ xs : List Statement,
      (s.1 :: xs).countP (fun s => s.kind.opensLoop) =
        xs.countP (fun s => s.kind.opensLoop) + 1 :=
    fun s hk xs => countP_cons_of_pos (by rw [s.2]; exact hk)
  have hother : ∀ {s : Statement}, s.kind.opensLoop = false → ∀ xs : List Statement,
      (s :: xs).countP (fun s => s.kind.opensLoop) = xs.countP (fun s => s.kind.opensLoop) :=
    fun hs xs => countP_cons_of_neg (by rw [hs]; decide)
  have hkind : ∀ {k : Kind} (s : StatementOf k), k.opensLoop = false →
      s.1.kind.opensLoop = false :=
    fun s hk => by rw [s.2, hk]
  have hmark : ∀ mark : Option (StatementOf .thenBranch),
      (markStatements mark).countP (fun s => s.kind.opensLoop) = 0 := by
    intro mark
    cases mark with
    | none => rfl
    | some s => exact hother (hkind s rfl) []
  induction b generalizing i with
  | nil => rfl
  | comment s rest ih => rw [loops, statements, hother (hkind s rfl), ih]
  | plain s rest ih =>
    have hplain : s.1.kind.opensLoop = false := by
      have h := s.2
      revert h
      cases s.1.kind <;> simp [Kind.isPlain, Kind.opensLoop]
    rw [loops, statements, hother hplain, ih]
  | pretest counted head body tail rest ihBody ihRest =>
    rw [loops, statements, hopens head (by cases counted <;> rfl), countP_append,
      hother (hkind tail (by cases counted <;> rfl)), length_append, length_cons,
      ihBody, ihRest]
    rfl
  | posttest head body test rest ihBody ihRest =>
    rw [loops, statements, hopens head rfl, countP_append, hother (hkind test rfl),
      length_append, length_cons, ihBody, ihRest]
    rfl
  | choice head mark yes tail rest ihYes ihRest =>
    rw [loops, statements, hother (hkind head rfl), countP_append, hmark,
      countP_append, hother (hkind tail rfl), length_append, ihYes, ihRest,
      Nat.zero_add]
  | choiceElse head mark yes middle no tail rest ihYes ihNo ihRest =>
    rw [loops, statements, hother (hkind head rfl), countP_append, hmark,
      countP_append, hother (hkind middle rfl), countP_append,
      hother (hkind tail rfl), length_append, length_append, ihYes, ihNo, ihRest,
      Nat.zero_add]

section Placing

variable {body : List Statement} {i : Nat}
variable {s : Statement}

theorem placing_of_hasNode (hs : body[i]? = some s)
    (h : s.kind.hasNode = true) : placing body i = i := by
  obtain ⟨hlt, hget⟩ := List.getElem?_eq_some_iff.1 hs
  rw [placing, drop_eq_getElem_cons hlt, findIdx_cons, hget, h]
  rfl

theorem placing_succ (hs : body[i]? = some s) (h : s.kind.hasNode = false) :
    placing body i = placing body (i + 1) := by
  obtain ⟨hlt, hget⟩ := List.getElem?_eq_some_iff.1 hs
  rw [placing, drop_eq_getElem_cons hlt, findIdx_cons, hget, h, placing]
  simp only [cond_false]
  omega

/-- The first node of a block is that of the first statement with one; in
a block without nodes there is no such statement. -/
structure PlacedFirst (body : List Statement) (i : Nat) (b : Body) : Prop where
  nodeOf_eq : ∀ f, b.first? (nodeOf body i) = some f → nodeOf body (placing body i) = f
  placing_eq : b.first? (nodeOf body i) = none → placing body i = placing body (i + b.length)

theorem PlacedFirst.head {xs : List Statement} (hfound : s :: xs <+: body.drop i)
    (hnode : s.kind.hasNode = true)
    (hb : b.first? (nodeOf body i) = some (nodeOf body i)) : PlacedFirst body i b := by
  refine ⟨?_, by simp [hb]⟩
  intro f hf
  rw [placing_of_hasNode (prefix_drop_succ hfound).1 hnode]
  exact Option.some_inj.1 (hb.symm.trans hf)

theorem PlacedFirst.entry {inner : Body} (h : PlacedFirst body i inner)
    {test : StatementOf .untilTest} (hfound : body[i + inner.length]? = some test.1) :
    (inner.first? (nodeOf body i)).getD (nodeOf body (i + inner.length)) =
      nodeOf body (placing body i) := by
  cases hb : inner.first? (nodeOf body i) with
  | some f => exact (h.nodeOf_eq f hb).symm
  | none =>
    rw [h.placing_eq hb, placing_of_hasNode hfound (by rw [test.2]; rfl)]
    rfl

theorem placedFirst (h : Stands body i b) : PlacedFirst body i b := by
  induction b generalizing i with
  | nil => exact ⟨by simp [first?], fun _ => rfl⟩
  | comment s rest ih =>
    obtain ⟨hrest, hn⟩ := h.comment
    obtain ⟨hsome, hnone⟩ := ih hrest
    have hskip : placing body i = placing body (i + 1) :=
      placing_succ (prefix_drop_succ h.found).1 (by rw [s.2]; rfl)
    have hlength : i + (comment s rest).length = i + 1 + rest.length := by
      simp only [Body.length, Body.statements, length_cons]
      omega
    rw [hn] at hsome hnone
    exact ⟨hskip ▸ hsome, hlength ▸ hskip ▸ hnone⟩
  | plain s =>
    refine PlacedFirst.head h.found ?_ rfl
    have hplain := s.2
    revert hplain
    cases s.1.kind <;> simp [Kind.hasNode]
  | pretest counted head =>
    exact PlacedFirst.head h.found (by rw [head.2]; cases counted <;> rfl) rfl
  | posttest head inner test rest ih =>
    obtain ⟨⟨hinner, hn⟩, ⟨htest, hfound⟩, -, -⟩ := h.posttest
    have hskip : placing body i = placing body (i + 1) :=
      placing_succ (prefix_drop_succ h.found).1 (by rw [head.2]; rfl)
    have hentry := (ih hinner).entry hfound
    rw [htest, hn] at hentry
    refine ⟨?_, by simp [first?]⟩
    intro f hf
    rw [hskip, ← hentry]
    simpa [first?] using hf
  | choice head => exact PlacedFirst.head h.found (by rw [head.2]; rfl) rfl
  | choiceElse head => exact PlacedFirst.head h.found (by rw [head.2]; rfl) rfl

end Placing

theorem Laid.loops_closed {body : List Statement} {i : Nat} {p : Port} (h : Laid g body i p b)
    (hn : nodeOf body i = n) :
    Forall₂ (fun site e => site.ClosedBy g body e) (b.loops i)
      ((b.edges n p).filter Edge.back) := by
  have hforward : ∀ (q : Port) (n : Nat), (q.to n).back = false := fun _ _ => rfl
  induction b generalizing i n p with
  | nil => exact Forall₂.nil
  | comment s rest ih => exact ih h.comment (h.toStands.comment.2.trans hn)
  | plain s rest ih =>
    subst hn
    simpa [loops, edges, hforward] using ih h.plain.2.2 h.toStands.plain.2
  | pretest counted head inner tail rest ihBody ihRest =>
    subst hn
    obtain ⟨⟨-, hn⟩, -, hn'⟩ := h.toStands.pretest
    obtain ⟨-, hloop, -, -, hlaid⟩ := h.pretest
    simp only [edges, filter_cons, filter_append]
    exact rel_append (ihBody hloop.laid hn) (Forall₂.cons ⟨hloop.shows, rfl⟩ (ihRest hlaid hn'))
  | posttest head inner test rest ihBody ihRest =>
    subst hn
    obtain ⟨⟨hstands, hn⟩, ⟨htest, hfound⟩, -, hn'⟩ := h.toStands.posttest
    obtain ⟨hlaid, -, hloop, -, -, hafter⟩ := h.posttest
    have hentry := (placedFirst hstands).entry hfound
    rw [htest, hn] at hentry
    simp only [edges, filter_append]
    exact rel_append (ihBody hlaid hn)
      (Forall₂.cons ⟨hloop.shows, htest.symm, hentry⟩ (ihRest hafter hn'))
  | choice head mark yes tail rest ihYes ihRest =>
    subst hn
    obtain ⟨⟨-, hn⟩, -, hn'⟩ := h.toStands.choice
    obtain ⟨-, -, -, hlaid, -, -, hafter⟩ := h.choice
    simp only [edges, filter_cons, filter_append]
    exact rel_append (ihYes hlaid hn) (ihRest hafter hn')
  | choiceElse head mark yes middle no tail rest ihYes ihNo ihRest =>
    subst hn
    obtain ⟨⟨-, hn⟩, ⟨-, hm⟩, -, hn'⟩ := h.toStands.choiceElse
    obtain ⟨-, -, -, hlaid, -, hlaid', -, hafter⟩ := h.choiceElse
    simp only [edges, filter_cons, filter_append]
    exact rel_append (ihYes hlaid hn) (rel_append (ihNo hlaid' hm) (ihRest hafter hn'))

theorem Flow.loops_closed (b : Body) :
    Forall₂ (fun site e => site.ClosedBy b.chart b.statements e)
      (b.loops 0) b.chart.backEdges := by
  have hbody := (laid_start b).loops_closed rfl
  have hback : b.chart.backEdges =
      (b.edges 1 (0, .always)).filter Edge.back := by
    rw [Chart.backEdges, chart_eq]
    simp [Port.to]
  rw [hback]
  exact hbody

/-- In the chart of a nested body nothing leaves the end, and every node
has a way to it. Any other node that is no decision has one edge, without
a label; a decision has two, labelled `si` and `no`. There is one edge
back for each loop: to the loop's own test for `mientras` and `para`, and
for `repetir` from its test to the first node in the loop. -/
theorem degrees_and_loops (b : Body) :
    let g := Chart.ofBody b.statements
    (g.outEdges (g.size - 1) = [] ∧ ∀ n < g.size, g.Reaches n (g.size - 1)) ∧
      (∀ n < g.size - 1, g.outline? n ≠ some .decision →
        (g.outEdges n).map (fun e => e.kind.label?) = [none]) ∧
      (∀ n, g.outline? n = some .decision →
        ((g.outEdges n).map fun e => e.kind.label?).Perm [some ("si" : Text), some ("no" : Text)]) ∧
      g.backEdges.length = b.statements.countP (fun s => s.kind.opensLoop) ∧
      List.Forall₂ (fun site e => site.ClosedBy g b.statements e) (b.loops 0) g.backEdges := by
  intro g
  have hclosed := Flow.loops_closed b
  refine ⟨⟨outEdges_end b, fun n hn => Flow.reaches_end b hn⟩, ?_, ?_, ?_, hclosed⟩
  · intro n hn hprocess
    have hlt : n < g.nodes.length := by
      have hsize : g.size = g.nodes.length := rfl
      omega
    have hnode : g.nodes[n]? = some g.nodes[n] := getElem?_eq_getElem hlt
    have hlabels := outEdges_labels hn hnode
    rw [if_neg (fun hd => hprocess (by rw [Chart.outline?, hnode, Option.map_some, hd]))] at hlabels
    exact perm_singleton.1 hlabels
  · intro n hdecision
    obtain ⟨node, hnode, houtline⟩ := Option.map_eq_some_iff.1 hdecision
    obtain ⟨hlt, -⟩ := List.getElem?_eq_some_iff.1 hnode
    -- The end is a terminal, so a decision stands before it.
    have hne : n ≠ g.size - 1 := by
      rintro rfl
      rw [ends_terminal b] at hdecision
      simp at hdecision
    have hn : n < g.size - 1 := by
      have hsize : g.size = g.nodes.length := rfl
      omega
    have hlabels := outEdges_labels hn hnode
    rw [if_pos houtline] at hlabels
    exact hlabels
  · rw [← hclosed.length_eq, Body.length_loops]

end Pseudocode
