import Pseudocode.Proofs.Flow.Wiring
import Pseudocode.Proofs.Results

/-!
# Walking through a chart

A walk starts at the first node. At a decision it takes the next of an
endless supply of answers and follows the edge of that kind; at any other
node it follows the only edge that leaves it. A walk that finds no such
edge, or more than one, stays where it is.

* `Chart.walk`: the walk after a number of steps, with the nodes it has
  visited that are no terminals.
* `Chart.Joins`: there is an edge from a port to a node. In the chart of a
  nested body a port has one edge at most (`nodup_ports`), and its kind
  fits the outline of the node it leaves (`fits_of_mem_edges`), so an edge
  from the right port is the one that a walk follows (`walkStep_of_joins`).

The ports are counted in `count_ports`: every node gives its ports to the
edges of the body, but the one that waits at the end.
-/

namespace Pseudocode

open List

namespace Flow

def Edge.port (e : Edge) : Port :=
  (e.source, e.kind)

/-- A walk: the node it is at, the number of answers it has used, and the
nodes it has visited, terminals left out. -/
structure Walker where
  node : Nat := 0
  used : Nat := 0
  visited : List Nat := []
deriving DecidableEq, Repr

namespace Chart

def outline? (g : Chart) (n : Nat) : Option Outline :=
  (g.nodes[n]?).map Node.outline

/-- The edges that a walk can follow from a node, given the next
answer. -/
def ways (g : Chart) (n : Nat) (answer : Bool) : List Edge :=
  if g.outline? n = some .decision then
    (g.outEdges n).filter fun e => e.kind == if answer then .yes else .no
  else g.outEdges n

def arrive (g : Chart) (w : Walker) (n used : Nat) : Walker :=
  ⟨n, used, if g.outline? n = some .terminal then w.visited else w.visited ++ [n]⟩

def walkStep (g : Chart) (answers : Nat → Bool) (w : Walker) : Walker :=
  match g.ways w.node (answers w.used) with
  | [e] => g.arrive w e.target (if g.outline? w.node = some .decision then w.used + 1 else w.used)
  | _ => w

def walk (g : Chart) (answers : Nat → Bool) : Nat → Walker
  | 0 => {}
  | m + 1 => g.walkStep answers (g.walk answers m)

def Joins (g : Chart) (p : Port) (target : Nat) : Prop :=
  ∃ e ∈ g.edges, e.port = p ∧ e.target = target

/-- A walk that comes to a node with `used` answers leaves it by the port
`p`, having used `used'`. -/
def Leaves (g : Chart) (answers : Nat → Bool) (n used : Nat) (p : Port) (used' : Nat) : Prop :=
  if g.outline? n = some .decision then
    p = (n, if answers used then .yes else .no) ∧ used' = used + 1
  else p = (n, .always) ∧ used' = used

end Chart

/-! ### The ports of a chart -/

def Outline.ports (n : Nat) : Outline → List Port
  | .decision => [(n, .yes), (n, .no)]
  | _ => [(n, .always)]

def portsFrom (n : Nat) : List Node → List Port
  | [] => []
  | node :: rest => node.outline.ports n ++ portsFrom (n + 1) rest

theorem portsFrom_append (n : Nat) (xs ys : List Node) :
    portsFrom n (xs ++ ys) = portsFrom n xs ++ portsFrom (n + xs.length) ys := by
  induction xs generalizing n with
  | nil => rfl
  | cons x xs ih => simp [portsFrom, ih, Nat.add_comm, Nat.add_left_comm]

theorem Outline.mem_ports_iff {o : Outline} {n : Nat} {p : Port} :
    p ∈ o.ports n ↔ p.1 = n ∧ (o = .decision ↔ p.2 ≠ .always) := by
  obtain ⟨k, kind⟩ := p
  cases o <;> cases kind <;> simp [Outline.ports]

theorem exists_node_of_mem_portsFrom {p : Port} {n : Nat} {nodes : List Node}
    (h : p ∈ portsFrom n nodes) :
    n ≤ p.1 ∧ ∃ node, nodes[p.1 - n]? = some node ∧ p ∈ node.outline.ports p.1 := by
  induction nodes generalizing n with
  | nil => simp [portsFrom] at h
  | cons node rest ih =>
    rw [portsFrom, mem_append] at h
    cases h with
    | inl hnode =>
      have hp : p.1 = n := (Outline.mem_ports_iff.1 hnode).1
      exact ⟨Nat.le_of_eq hp.symm, node, by simp [hp], hp ▸ hnode⟩
    | inr hrest =>
      obtain ⟨hle, found, hfound, hport⟩ := ih hrest
      refine ⟨by omega, found, ?_, hport⟩
      rw [show p.1 - n = (p.1 - (n + 1)) + 1 by omega]
      simpa using hfound

theorem nodup_portsFrom (n : Nat) (nodes : List Node) : (portsFrom n nodes).Nodup := by
  induction nodes generalizing n with
  | nil => exact nodup_nil
  | cons node rest ih =>
    rw [portsFrom, nodup_append]
    refine ⟨by cases node.outline <;> simp [Outline.ports], ih (n + 1), ?_⟩
    intro p hp q hq hpq
    have hle := (exists_node_of_mem_portsFrom hq).1
    have hn := (Outline.mem_ports_iff.1 hp).1
    rw [hpq] at hn
    omega

theorem count_ports_cons (p q : Port) (target : Nat) (back : Bool) (rest : List Edge) :
    ((Port.to p target back :: rest).map Edge.port).count q =
      [p].count q + (rest.map Edge.port).count q := by
  rw [map_cons, ← singleton_append, count_append]
  rfl

end Flow

namespace Body

open Pseudocode.Flow

/-- Every port of the nodes of a body, and the one that waits before it,
is the source of one edge of the body, but the one that waits after it. -/
theorem count_ports (b : Body) (n : Nat) (p q : Port) :
    ((b.edges n p).map Edge.port).count q + [b.exit n p].count q =
      [p].count q + (portsFrom n b.nodes).count q := by
  have htwo : ∀ k, k + 1 + 1 = k + 2 := fun _ => rfl
  have hdecision : ∀ k, (Outline.decision.ports k).count q = [(k, EdgeKind.yes)].count q +
      [(k, EdgeKind.no)].count q := by
    intro k
    rw [← count_append]
    rfl
  induction b generalizing n p with
  | nil => simp [edges, exit, nodes, portsFrom]
  | comment s rest ih => exact ih n p
  | plain s rest ih =>
    have hrest := ih (n + 1) (n, .always)
    simp only [edges, exit, nodes, portsFrom, count_ports_cons, count_append, Outline.ports]
    omega
  | pretest counted head body tail rest ihBody ihRest =>
    have hbody := ihBody (n + 2) (n, .yes)
    have hrest := ihRest (n + 2 + body.size) (n + 1, .always)
    simp only [edges, exit, nodes, portsFrom, portsFrom_append, count_ports_cons,
      map_append, count_append, hdecision, htwo, size] at hbody hrest ⊢
    simp only [Outline.ports]
    omega
  | posttest head body test rest ihBody ihRest =>
    have hbody := ihBody (n + 1) p
    have hrest := ihRest (n + 2 + body.size) (n, .always)
    have hafter : n + 1 + body.nodes.length + 1 = n + 2 + body.nodes.length := by omega
    simp only [edges, exit, nodes, portsFrom, portsFrom_append, count_ports_cons,
      map_append, count_append, hdecision, hafter, size] at hbody hrest ⊢
    simp only [Outline.ports]
    omega
  | choice head mark yes tail rest ihYes ihRest =>
    have hyes := ihYes (n + 2) (n, .yes)
    have hrest := ihRest (n + 2 + yes.size) (n + 1, .always)
    simp only [edges, exit, nodes, portsFrom, portsFrom_append, count_ports_cons,
      map_append, count_append, hdecision, htwo, size] at hyes hrest ⊢
    simp only [Outline.ports]
    omega
  | choiceElse head mark yes middle no tail rest ihYes ihNo ihRest =>
    have hyes := ihYes (n + 2) (n, .yes)
    have hno := ihNo (n + 2 + yes.size) (n, .no)
    have hrest := ihRest (n + 2 + yes.size + no.size) (n + 1, .always)
    simp only [edges, exit, nodes, portsFrom, portsFrom_append, count_ports_cons,
      map_append, count_append, hdecision, htwo, size] at hyes hno hrest ⊢
    simp only [Outline.ports]
    omega

end Body

namespace Flow

theorem ports_perm (b : Body) :
    (b.chart.edges.map Edge.port).Perm
      (portsFrom 0 (⟨"Inicio", .terminal⟩ :: b.nodes)) := by
  rw [perm_iff_count]
  intro q
  have hbody := b.count_ports 1 (0, .always) q
  rw [Body.chart_eq, portsFrom, count_append, map_append, count_append]
  exact hbody

theorem nodup_ports (b : Body) : (b.chart.edges.map Edge.port).Nodup :=
  (ports_perm b).nodup_iff.2 (nodup_portsFrom _ _)

theorem fits_of_mem_edges {b : Body} {e : Edge} (h : e ∈ b.chart.edges) :
    e.source < b.chart.size - 1 ∧
      (b.chart.outline? e.source = some .decision ↔ e.kind ≠ .always) := by
  have hmem : e.port ∈ portsFrom 0 (⟨"Inicio", .terminal⟩ :: b.nodes) :=
    (ports_perm b).mem_iff.1 (mem_map_of_mem h)
  obtain ⟨-, node, hnode, hport⟩ := exists_node_of_mem_portsFrom hmem
  obtain ⟨hlt, -⟩ := List.getElem?_eq_some_iff.1 hnode
  have hfound : b.chart.nodes[e.source]? = some node := by
    rw [Body.chart_eq]
    exact (getElem?_append_left hlt).trans hnode
  constructor
  · rw [Body.chart_eq]
    simp only [Chart.size, length_cons, length_append] at hlt ⊢
    exact hlt
  · rw [Chart.outline?, hfound, Option.map_some, Option.some_inj]
    exact (Outline.mem_ports_iff.1 hport).2

theorem ways_of_joins (b : Body) (answers : Nat → Bool) {w : Walker} {p : Port}
    {used target : Nat} (hleaves : b.chart.Leaves answers w.node w.used p used)
    (hjoins : b.chart.Joins p target) :
    ∃ e, b.chart.ways w.node (answers w.used) = [e] ∧ e.port = p ∧
      e.target = target := by
  obtain ⟨e, he, hport, rfl⟩ := hjoins
  refine ⟨e, ?_, hport, rfl⟩
  rw [Chart.ways]
  by_cases hd : b.chart.outline? w.node = some .decision
  · rw [Chart.Leaves, if_pos hd] at hleaves
    rw [if_pos hd, Chart.outEdges, filter_filter]
    refine filter_eq_singleton (nodup_ports b) he fun x _ => ?_
    rw [hport, hleaves.1]
    simp [Edge.port, and_comm]
  · rw [Chart.Leaves, if_neg hd] at hleaves
    rw [if_neg hd]
    refine filter_eq_singleton (nodup_ports b) he fun x hx => ?_
    rw [hport, hleaves.1]
    have hfits := (fits_of_mem_edges hx).2
    constructor
    · intro hsource
      have hs : x.source = w.node := by simpa using hsource
      rw [hs] at hfits
      have hkind : x.kind = .always := Decidable.not_not.1 fun h => hd (hfits.2 h)
      simp [Edge.port, hs, hkind]
    · intro h
      simp [(Prod.mk.inj h).1]

theorem walkStep_of_joins (b : Body) (answers : Nat → Bool) {w : Walker} {p : Port}
    {used target : Nat} (hleaves : b.chart.Leaves answers w.node w.used p used)
    (hjoins : b.chart.Joins p target) :
    b.chart.walkStep answers w =
      b.chart.arrive w target used := by
  obtain ⟨e, hways, -, rfl⟩ := ways_of_joins b answers hleaves hjoins
  rw [Chart.walkStep, hways]
  rw [Chart.Leaves] at hleaves
  split at hleaves
  · rw [if_pos ‹_›, hleaves.2]
  · rw [if_neg ‹_›, hleaves.2]

end Flow

end Pseudocode
