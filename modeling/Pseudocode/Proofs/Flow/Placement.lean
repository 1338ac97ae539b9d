import Mathlib.Data.List.Basic
import Mathlib.Logic.Relation
import Pseudocode.Proofs.Flow.Wiring

/-!
# The order in which nodes are placed

The pass over a body gives a node its position long before the node is
connected: the node after a loop and the join of a `si` exist from the
opening statement on and get their first edge at the closing one. So the
positions say nothing about the edges. The order that does is the one in
which nodes are placed, that is, get their first edge.

* `Chart.Reaches`: there is a way along edges from one node to another.
* `Chart.LeadsOn`: an edge that closes no loop.
* `Chart.Ordered`: an order of nodes that every such edge follows, and in
  which every node can be reached from the first one.
* `Builder.Sound`: what holds at every moment of the pass. The nodes are
  the placed ones in their order, those added a moment ago, and one for
  each open construct; everything that a construct remembers is placed.

Each operation of the pass has one lemma. An operation that places a node
moves it from the fresh ones to the end of the order; opening a construct
moves a fresh node to the construct, and closing takes it back.
-/

namespace Pseudocode

open List Relation.ReflTransGen

namespace Flow

variable {c : Open} {n a b : Nat}

namespace Chart

/-- An edge goes from one node to another. -/
def Leads (g : Chart) (a b : Nat) : Prop :=
  ∃ e ∈ g.edges, e.source = a ∧ e.target = b

def LeadsOn (g : Chart) (a b : Nat) : Prop :=
  ∃ e ∈ g.edges, e.back = false ∧ e.source = a ∧ e.target = b

def Reaches (g : Chart) : Nat → Nat → Prop :=
  Relation.ReflTransGen g.Leads

theorem Reaches.mono {g g' : Chart} (h : ∀ e ∈ g.edges, e ∈ g'.edges)
    (hab : g.Reaches a b) : g'.Reaches a b := by
  have hleads : g.Leads ≤ g'.Leads := by
    rintro x y ⟨e, he, hsource, htarget⟩
    exact ⟨e, h e he, hsource, htarget⟩
  exact Relation.ReflTransGen.mono hleads a b hab

theorem reaches_of_mem {g : Chart} {e : Edge} (h : e ∈ g.edges) : g.Reaches e.source e.target :=
  single ⟨e, h, rfl, rfl⟩

def addEdges (g : Chart) (es : List Edge) : Chart :=
  ⟨g.nodes, g.edges ++ es⟩

/-- The nodes of `order` are those that have an edge, the start included.
An edge that closes no loop goes to a later one. -/
structure Ordered (g : Chart) (order : List Nat) : Prop where
  ends : ∀ e ∈ g.edges, e.source ∈ order ∧ e.target ∈ order
  forward : ∀ e ∈ g.edges, e.back = false → order.idxOf e.source < order.idxOf e.target
  reaches : ∀ n ∈ order, g.Reaches 0 n

namespace Ordered

variable {g : Chart} {order : List Nat}

/-- A node is placed by edges from placed ones; with them may come edges
back to such. -/
theorem place (h : g.Ordered order) (hn : n ∉ order) (es : List Edge)
    (hsource : ∀ e ∈ es, e.source ∈ order)
    (htarget : ∀ e ∈ es, e.target = n ∨ e.back = true ∧ e.target ∈ order)
    (hplace : ∃ e ∈ es, e.target = n) : (g.addEdges es).Ordered (order ++ [n]) where
  ends := by
    intro e he
    rcases mem_append.1 he with hold | hnew
    · have hmem := h.ends e hold
      exact ⟨mem_append_left _ hmem.1, mem_append_left _ hmem.2⟩
    · refine ⟨mem_append_left _ (hsource e hnew), ?_⟩
      rcases htarget e hnew with heq | ⟨-, hmem⟩
      · simp [heq]
      · exact mem_append_left _ hmem
  forward := by
    intro e he hback
    rcases mem_append.1 he with hold | hnew
    · have hmem := h.ends e hold
      rw [idxOf_append_of_mem hmem.1, idxOf_append_of_mem hmem.2]
      exact h.forward e hold hback
    · rcases htarget e hnew with heq | ⟨htrue, -⟩
      · rw [idxOf_append_of_mem (hsource e hnew), heq, idxOf_append_of_notMem hn]
        have hlt := idxOf_lt_length_iff.2 (hsource e hnew)
        omega
      · exact nomatch htrue.symm.trans hback
  reaches := by
    intro m hm
    have hmono : ∀ e ∈ g.edges, e ∈ (g.addEdges es).edges :=
      fun e he => mem_append_left _ he
    rcases mem_append.1 hm with hold | hnew
    · exact (h.reaches m hold).mono hmono
    · obtain rfl : m = n := by simpa using hnew
      obtain ⟨e, he, rfl⟩ := hplace
      exact trans ((h.reaches _ (hsource e he)).mono hmono)
        (reaches_of_mem (mem_append_right _ he))

theorem idxOf_lt (h : g.Ordered order) (hab : Relation.TransGen g.LeadsOn a b) :
    order.idxOf a < order.idxOf b := by
  induction hab with
  | single hedge =>
    obtain ⟨e, he, hback, rfl, rfl⟩ := hedge
    exact h.forward e he hback
  | tail _ hedge ih =>
    obtain ⟨e, he, hback, rfl, rfl⟩ := hedge
    exact Nat.lt_trans ih (h.forward e he hback)

end Ordered

end Chart

/-! ### What an open construct remembers -/

namespace Open

variable {m : Nat} {cs : List Open}

/-- The node that the pass goes on from once the construct is closed. -/
def exit : Open → Nat
  | .branch _ join .. => join
  | .pretest _ _ after _ => after
  | .posttest after _ => after

/-- The nodes that the construct remembers for edges to come. -/
def anchors : Open → List Nat
  | .branch decision _ _ _ thenLast elseLast => decision :: (thenLast.toList ++ elseLast.toList)
  | .pretest _ decision _ _ => [decision]
  | .posttest _ entry => entry.toList

/-- The edges that closing the construct adds, with the current node
given. -/
def closing (current : Nat) : Open → List Edge
  | .branch decision join _ _ thenLast elseLast =>
    [Port.to (Builder.branchEnd (decision, .yes) thenLast) join,
      Port.to (Builder.branchEnd (decision, .no) elseLast) join]
  | .pretest _ decision after awaiting =>
    [Port.to (if awaiting then (decision, .yes) else (current, .always)) decision true,
      Port.to (decision, .no) after]
  | .posttest after _ => [Port.to (current, .always) after]

theorem of_mem_closing {current : Nat} {e : Edge} (h : e ∈ c.closing current) :
    (e.source = current ∨ e.source ∈ c.anchors) ∧
      (e.target = c.exit ∨ e.back = true ∧ e.target ∈ c.anchors) := by
  cases c with
  | branch decision join inElse awaiting thenLast elseLast =>
    have hend : ∀ (kind : EdgeKind) (last : Option Nat),
        (Builder.branchEnd (decision, kind) last).1 ∈ decision :: last.toList := by
      intro kind last
      cases last <;> simp [Builder.branchEnd]
    simp only [closing, mem_cons, not_mem_nil, or_false] at h
    rcases h with rfl | rfl
    · have hmem := hend .yes thenLast
      simp only [anchors, mem_cons, mem_append] at hmem ⊢
      tauto
    · have hmem := hend .no elseLast
      simp only [anchors, mem_cons, mem_append] at hmem ⊢
      tauto
  | pretest counted decision after awaiting =>
    simp only [closing, mem_cons, not_mem_nil, or_false] at h
    rcases h with rfl | rfl
    · refine ⟨?_, .inr ⟨rfl, mem_singleton.2 rfl⟩⟩
      cases awaiting with
      | true => exact .inr (mem_singleton.2 rfl)
      | false => exact .inl rfl
    · exact ⟨.inr (mem_singleton.2 rfl), .inl rfl⟩
  | posttest =>
    obtain rfl := mem_singleton.1 h
    exact ⟨.inl rfl, .inl rfl⟩

theorem exists_mem_closing (c : Open) (current : Nat) :
    ∃ e ∈ c.closing current, e.target = c.exit := by
  cases c with
  | branch | pretest => exact ⟨_, mem_cons_of_mem _ (mem_singleton.2 rfl), rfl⟩
  | posttest => exact ⟨_, mem_singleton.2 rfl, rfl⟩

@[simp] theorem exit_served (c : Open) : c.served.exit = c.exit := by
  cases c <;> rfl

@[simp] theorem exit_enter (n : Nat) (c : Open) : (c.enter n).exit = c.exit := by
  cases c with
  | branch | pretest => rfl
  | posttest after entry => cases entry <;> rfl

@[simp] theorem exit_record (n : Nat) (c : Open) : (c.record n).exit = c.exit := by
  cases c with
  | branch decision join inElse => cases inElse <;> rfl
  | pretest | posttest => rfl

@[simp] theorem anchors_served (c : Open) : c.served.anchors = c.anchors := by
  cases c <;> rfl

theorem mem_anchors_enter (h : m ∈ (c.enter n).anchors) : m = n ∨ m ∈ c.anchors := by
  cases c with
  | branch | pretest => exact .inr h
  | posttest after entry =>
    cases entry with
    | none => exact .inl (by simpa [enter, anchors] using h)
    | some => exact .inr h

theorem mem_anchors_record (h : m ∈ (c.record n).anchors) : m = n ∨ m ∈ c.anchors := by
  cases c with
  | branch decision join inElse =>
    cases inElse <;> simp only [record, anchors, Option.toList_some, mem_cons,
      mem_append, not_mem_nil, or_false] at h ⊢
    · rcases h with h | h | h
      · exact .inr (.inl h)
      · exact .inl h
      · exact .inr (.inr (.inr h))
    · rcases h with h | h | h
      · exact .inr (.inl h)
      · exact .inr (.inr (.inl h))
      · exact .inl h
  | pretest | posttest => exact .inr h

theorem pending?_mem_anchors {p : Port} (h : c.pending? = some p) : p.1 ∈ c.anchors := by
  cases c with
  | branch decision join inElse awaiting =>
    cases awaiting with
    | false => simp [pending?] at h
    | true =>
      obtain rfl : (decision, if inElse = true then EdgeKind.no else .yes) = p := by
        simpa [pending?] using h
      exact mem_cons_self ..
  | pretest counted decision after awaiting =>
    cases awaiting with
    | false => simp [pending?] at h
    | true =>
      obtain rfl : (decision, EdgeKind.yes) = p := by simpa [pending?] using h
      exact mem_cons_self ..
  | posttest => simp [pending?] at h

theorem serve?_source {p : Port} {cs' : List Open}
    (h : serve? cs = some (p, cs')) : ∃ c ∈ cs, c.pending? = some p := by
  induction cs generalizing cs' with
  | nil => simp [serve?] at h
  | cons c outer ih =>
    cases hc : c.pending? with
    | some q =>
      obtain ⟨rfl, -⟩ : q = p ∧ c.served :: outer = cs' := by simpa [serve?, hc] using h
      exact ⟨c, mem_cons_self .., hc⟩
    | none =>
      obtain ⟨a, outer', ho, heq⟩ : ∃ a outer', serve? outer = some (a, outer') ∧
          (a, c :: outer') = (p, cs') := by
        simpa [serve?, hc] using h
      obtain ⟨rfl, -⟩ := Prod.mk.inj heq
      obtain ⟨d, hd, hpending⟩ := ih ho
      exact ⟨d, mem_cons_of_mem c hd, hpending⟩

theorem map_servedAll {α : Type} (f : Open → α) (hf : ∀ c : Open, f c.served = f c)
    (cs : List Open) : (servedAll cs).map f = cs.map f := by
  induction cs with
  | nil => rfl
  | cons c outer ih =>
    cases hc : c.pending? with
    | none => rw [servedAll_cons_of_not_pending hc, map_cons, map_cons, ih]
    | some => rw [servedAll_cons_of_pending hc, map_cons, map_cons, hf]

@[simp] theorem map_exit_recordTop (n : Nat) (cs : List Open) :
    (recordTop n cs).map exit = cs.map exit := by
  cases cs with
  | nil => rfl
  | cons => simp [recordTop]

@[simp] theorem map_exit_advance (f l : Nat) (cs : List Open) :
    (advance f l cs).map exit = cs.map exit := by
  rw [advance, map_exit_recordTop, map_map, ← map_servedAll exit exit_served cs]
  exact map_congr_left fun c _ => exit_enter f c

theorem mem_anchors_recordTop (hc : c ∈ recordTop n cs)
    (hm : m ∈ c.anchors) : m = n ∨ ∃ d ∈ cs, m ∈ d.anchors := by
  cases cs with
  | nil => simp [recordTop] at hc
  | cons d =>
    rcases mem_cons.1 hc with rfl | hc
    · rcases mem_anchors_record hm with h | h
      · exact .inl h
      · exact .inr ⟨d, mem_cons_self .., h⟩
    · exact .inr ⟨c, mem_cons_of_mem d hc, hm⟩

theorem mem_anchors_advance {f l : Nat} (hc : c ∈ advance f l cs)
    (hm : m ∈ c.anchors) : m = f ∨ m = l ∨ ∃ d ∈ cs, m ∈ d.anchors := by
  rcases mem_anchors_recordTop hc hm with h | ⟨d, hd, hm'⟩
  · exact .inr (.inl h)
  obtain ⟨d', hd', rfl⟩ := mem_map.1 hd
  rcases mem_anchors_enter hm' with h | h
  · exact .inl h
  · have hmem : d'.anchors ∈ cs.map anchors := by
      rw [← map_servedAll anchors anchors_served cs]
      exact mem_map_of_mem hd'
    obtain ⟨d₀, hd₀, heq⟩ := mem_map.1 hmem
    exact .inr (.inr ⟨d₀, hd₀, heq ▸ h⟩)

end Open

/-! ### What holds throughout the pass -/

namespace Builder

theorem closeInnermost_eq {s : Builder} {outer : List Open} (hs : s.contexts = c :: outer) :
    s.closeInnermost =
      { s with contexts := outer }.leave [] (c.closing s.current) c.exit := by
  rw [closeInnermost, hs]
  cases c with
  | branch => exact joinBranch_eq ..
  | pretest counted decision after awaiting =>
    cases awaiting <;>
      simp [endPretest, settle_eq, edge, Chart.addEdge, leave, Open.closing, Open.exit, Port.to]
  | posttest => simp [settle_eq, edge, Chart.addEdge, leave, Open.closing, Open.exit, Port.to]

structure Sound (s : Builder) (order fresh : List Nat) : Prop where
  ordered : s.chart.Ordered order
  nodes : (order ++ (fresh ++ s.contexts.map Open.exit)).Perm (range s.chart.size)
  current : s.current ∈ order
  anchors : ∀ c ∈ s.contexts, ∀ n ∈ c.anchors, n ∈ order

namespace Sound

variable {s : Builder} {order fresh : List Nat} {n : Nat}

theorem start : Builder.start.Sound [0] [] where
  ordered := ⟨by simp [Builder.start], by simp [Builder.start], by
    intro n hn
    obtain rfl : n = 0 := by simpa using hn
    exact refl⟩
  nodes := Perm.refl _
  current := mem_singleton.2 rfl
  anchors := by simp [Builder.start]

section

variable (h : s.Sound order fresh)
include h

theorem mono_order (m : Nat) : ∀ c ∈ s.contexts, ∀ k ∈ c.anchors, k ∈ order ++ [m] :=
  fun c hc k hk => mem_append_left _ (h.anchors c hc k hk)

theorem source_mem : s.source.1 ∈ order := by
  rw [source]
  split
  · rename_i p cs' hserve
    obtain ⟨c, hc, hpending⟩ := Open.serve?_source hserve
    exact h.anchors c hc _ (Open.pending?_mem_anchors hpending)
  · exact h.current

theorem node (label : Text) (outline : Outline) :
    (s.node label outline).Sound order (s.chart.size :: fresh) where
  ordered := ⟨h.ordered.ends, h.ordered.forward, h.ordered.reaches⟩
  nodes := by
    have hsize : (s.node label outline).chart.size = s.chart.size + 1 := by
      simp [Builder.node, Chart.addNode, Chart.size]
    rw [hsize, range_succ]
    refine List.Perm.trans ?_ (List.Perm.append_right [s.chart.size] h.nodes)
    exact perm_middle.trans (perm_append_singleton _ _).symm
  current := h.current
  anchors := h.anchors

theorem pop {outer : List Open} (hs : s.contexts = c :: outer) :
    { s with contexts := outer }.Sound order (c.exit :: fresh) where
  ordered := h.ordered
  nodes := by
    have hnodes := h.nodes
    rw [hs] at hnodes
    exact Perm.trans (Perm.append_left order perm_middle.symm) hnodes
  current := h.current
  anchors := fun d hd => h.anchors d (hs ▸ mem_cons_of_mem c hd)

end

section

variable (h : s.Sound order (n :: fresh))
include h

theorem not_mem : n ∉ order := by
  have hnodup := h.nodes.nodup_iff.2 nodup_range
  rw [nodup_append] at hnodup
  intro hn
  exact hnodup.2.2 n hn n (by simp) rfl

theorem nodes_place :
    ((order ++ [n]) ++ (fresh ++ s.contexts.map Open.exit)).Perm (range s.chart.size) := by
  have hnodes := h.nodes
  rw [append_assoc]
  exact hnodes

theorem connect : (s.connect n).Sound (order ++ [n]) fresh := by
  rw [connect_eq]
  refine ⟨?_, ?_, ?_, ?_⟩
  · have hplace := h.ordered.place h.not_mem [s.source.to n]
      (forall_mem_singleton.2 h.source_mem) (forall_mem_singleton.2 (.inl rfl))
      ⟨_, mem_singleton.2 rfl, rfl⟩
    simpa [grow, Chart.addEdges] using hplace
  · have hsize : (s.grow [] [s.source.to n] n n).chart.size = s.chart.size := by simp
    rw [hsize]
    simpa [grow] using h.nodes_place
  · exact mem_append_right _ (mem_singleton.2 rfl)
  · intro c hc k hk
    rcases Open.mem_anchors_advance hc hk with rfl | rfl | ⟨d, hd, hkd⟩
    · exact mem_append_right _ (mem_singleton.2 rfl)
    · exact mem_append_right _ (mem_singleton.2 rfl)
    · exact h.mono_order n d hd k hkd

theorem push (hexit : c.exit = n)
    (hanchors : ∀ k ∈ c.anchors, k ∈ order) : (s.push c).Sound order fresh where
  ordered := h.ordered
  nodes := by
    refine List.Perm.trans (List.Perm.append_left order ?_) h.nodes
    show (fresh ++ c.exit :: s.contexts.map Open.exit).Perm _
    rw [hexit]
    exact perm_middle
  current := h.current
  anchors := by
    intro d hd k hk
    rcases mem_cons.1 hd with rfl | hd
    · exact hanchors k hk
    · exact h.anchors d hd k hk

theorem leave (es : List Edge) (hsource : ∀ e ∈ es, e.source ∈ order)
    (htarget : ∀ e ∈ es, e.target = n ∨ e.back = true ∧ e.target ∈ order)
    (hplace : ∃ e ∈ es, e.target = n) : (s.leave [] es n).Sound (order ++ [n]) fresh := by
  have hn : n ∈ order ++ [n] := mem_append_right _ (mem_singleton.2 rfl)
  refine ⟨?_, ?_, hn, ?_⟩
  · have hordered := h.ordered.place h.not_mem es hsource htarget hplace
    simpa [Builder.leave, Chart.addEdges] using hordered
  · simpa [Builder.leave, Chart.size] using h.nodes_place
  · intro c hc k hk
    rcases Open.mem_anchors_recordTop hc hk with rfl | ⟨d, hd, hkd⟩
    · exact hn
    · exact h.mono_order n d hd k hkd

end

/-! ### Closing constructs -/

variable (h : s.Sound order [])
include h

theorem closeInnermost : ∃ order', s.closeInnermost.Sound order' [] := by
  cases hs : s.contexts with
  | nil =>
    rw [closeInnermost_of_nil hs]
    exact ⟨order, h⟩
  | cons c outer =>
    have hanchors : ∀ k ∈ c.anchors, k ∈ order := h.anchors c (hs ▸ mem_cons_self ..)
    rw [closeInnermost_eq hs]
    refine ⟨_, (h.pop hs).leave _ (fun e he => ?_) (fun e he => ?_) (c.exists_mem_closing _)⟩
    · rcases (Open.of_mem_closing he).1 with heq | hmem
      · exact heq ▸ h.current
      · exact hanchors _ hmem
    · exact (Open.of_mem_closing he).2.imp_right (.imp_right (hanchors _))

theorem closePosttest (label : Text) : ∃ order', (s.closePosttest label).Sound order' [] := by
  have hconnect := (h.node label .decision).connect
  rw [Builder.closePosttest]
  split
  · rename_i after entry outer hs
    have htest : s.chart.size ∈ order ++ [s.chart.size] :=
      mem_append_right _ (mem_singleton.2 rfl)
    have hentry : entry.getD s.chart.size ∈ order ++ [s.chart.size] := by
      cases entry with
      | none => exact htest
      | some first =>
        exact hconnect.anchors _ (hs ▸ mem_cons_self ..) first (by simp [Open.anchors])
    have hleave := (hconnect.pop hs).leave
      [⟨s.chart.size, entry.getD s.chart.size, .no, true⟩, ⟨s.chart.size, after, .yes, false⟩]
      (by simp) (forall_mem_cons.2 ⟨.inr ⟨rfl, hentry⟩, forall_mem_singleton.2 (.inl rfl)⟩)
      (by simp [Open.exit])
    exact ⟨_, by simpa [settle_eq, edge, Chart.addEdge, Builder.leave, Open.exit] using hleave⟩
  · exact ⟨_, hconnect⟩

theorem startElse : s.startElse.Sound order [] := by
  rw [Builder.startElse]
  split
  · rename_i decision join inElse awaiting thenLast elseLast outer hs
    have hanchors := h.anchors _ (hs ▸ mem_cons_self ..)
    refine ⟨h.ordered, ?_, hanchors decision (mem_cons_self ..), ?_⟩
    · have hnodes := h.nodes
      rw [hs] at hnodes
      exact hnodes
    · intro c hc k hk
      rcases mem_cons.1 hc with rfl | hc
      · exact hanchors k hk
      · exact h.anchors c (hs ▸ mem_cons_of_mem _ hc) k hk
  · exact h

/-! ### One statement and the whole pass -/

theorem openDecision (label after : Text)
    (hexit : c.exit = s.chart.size + 1) (hanchors : c.anchors = [s.chart.size]) :
    { (((s.node label .decision).node after .terminal).connect s.chart.size).push c with
      current := s.chart.size }.Sound (order ++ [s.chart.size]) [] := by
  have hsize : (s.node label .decision).chart.size = s.chart.size + 1 := by
    simp [Builder.node, Chart.addNode, Chart.size]
  have htwo := (h.node label .decision).node after .terminal
  rw [hsize] at htwo
  -- The decision is placed first; the order of the fresh nodes does not matter.
  have hswap : ((s.node label .decision).node after .terminal).Sound order
      [s.chart.size, s.chart.size + 1] :=
    ⟨htwo.ordered, (Perm.append_left order (Perm.append_right _
      (Perm.swap ..))).trans htwo.nodes, htwo.current, htwo.anchors⟩
  have hmem : s.chart.size ∈ order ++ [s.chart.size] :=
    mem_append_right _ (mem_singleton.2 rfl)
  have hpush := hswap.connect.push hexit (by
    intro k hk
    rw [hanchors, mem_singleton] at hk
    exact hk ▸ hmem)
  exact ⟨hpush.ordered, hpush.nodes, hmem, hpush.anchors⟩

theorem visit (stmt : Statement) : ∃ order', (s.visit stmt).Sound order' [] := by
  have hinner : ∀ t : Builder, (∃ o, t.Sound o []) → ∃ o, t.closeInnermost.Sound o [] :=
    fun _ ⟨_, ht⟩ => ht.closeInnermost
  have hignored : ∀ ignored, ∃ o, { s with ignored }.Sound o [] :=
    fun _ => ⟨order, h.ordered, h.nodes, h.current, h.anchors⟩
  rw [Builder.visit]
  split
  · exact ⟨order, h⟩
  · exact ⟨order, h⟩
  · exact ⟨_, h.openDecision _ _ rfl rfl⟩
  · exact ⟨_, h.openDecision _ _ rfl rfl⟩
  · exact ⟨order, (h.node _ _).push rfl (by simp [Open.anchors])⟩
  · exact closeLoop_induction hinner ⟨order, h⟩ hinner _ _ hignored
  · exact closeLoop_induction hinner ⟨order, h⟩ hinner _ _ hignored
  · exact closeLoop_induction hinner ⟨order, h⟩ (fun _ ⟨_, ht⟩ => ht.closePosttest _) _ _ hignored
  · exact ⟨_, h.openDecision _ _ rfl rfl⟩
  · exact withBranch_induction hinner ⟨order, h⟩ fun _ ⟨_, ht⟩ => ⟨_, ht.startElse⟩
  · exact withBranch_induction hinner ⟨order, h⟩ hinner
  · exact ⟨_, (h.node _ _).connect⟩

theorem foldl_visit (body : List Statement) :
    ∃ order', (body.foldl Builder.visit s).Sound order' [] := by
  induction body generalizing s order with
  | nil => exact ⟨order, h⟩
  | cons stmt rest ih =>
    obtain ⟨order', h'⟩ := h.visit stmt
    exact ih h'

end Sound

theorem contexts_closeInnermost_length (s : Builder) :
    s.closeInnermost.contexts.length = s.contexts.length - 1 := by
  cases hs : s.contexts with
  | nil => rw [closeInnermost_of_nil hs, hs, length_nil]
  | cons c outer =>
    rw [closeInnermost_eq hs]
    cases outer <;> rfl

theorem contexts_closeMany (s : Builder) : (s.closeMany s.contexts.length).contexts = [] := by
  suffices ∀ (k : Nat) (t : Builder), t.contexts.length = k → (t.closeMany k).contexts = [] from
    this _ s rfl
  intro k
  induction k with
  | zero => exact fun t ht => length_eq_zero_iff.1 ht
  | succ k ih =>
    intro t ht
    refine ih _ ?_
    rw [contexts_closeInnermost_length, ht, Nat.add_sub_cancel]

end Builder

theorem Chart.exists_ordered (body : List Statement) :
    ∃ order, (Chart.ofBody body).Ordered order ∧
      order.Perm (range (Chart.ofBody body).size) := by
  obtain ⟨order, h⟩ := Builder.Sound.start.foldl_visit body
  obtain ⟨order', h'⟩ := Builder.closeMany_induction (P := fun t => ∃ o, t.Sound o [])
    (fun _ ⟨_, ht⟩ => ht.closeInnermost) ⟨order, h⟩
    (body.foldl Builder.visit Builder.start).contexts.length
  have hnil := Builder.contexts_closeMany (body.foldl Builder.visit Builder.start)
  have hend := (h'.node "Fin" .terminal).leave [⟨_, _, .always, false⟩]
    (forall_mem_singleton.2 h'.current) (forall_mem_singleton.2 (.inl rfl))
    ⟨_, mem_singleton.2 rfl, rfl⟩
  rw [Builder.leave, append_nil] at hend
  refine ⟨_, hend.ordered, ?_⟩
  have hnodes := hend.nodes
  rw [Builder.node, hnil] at hnodes
  rwa [nil_append, Open.recordTop, map_nil, append_nil] at hnodes

/-- In the chart of any list of statements, nested or not, every node can
be reached from the start, every edge joins two nodes, and without the
edges that close loops there is no cycle. -/
theorem reachable_and_acyclic (body : List Statement) :
    (∀ n < (Chart.ofBody body).size, (Chart.ofBody body).Reaches 0 n) ∧
      (∀ e ∈ (Chart.ofBody body).edges,
        e.source < (Chart.ofBody body).size ∧ e.target < (Chart.ofBody body).size) ∧
      ∀ n, ¬ Relation.TransGen (Chart.ofBody body).LeadsOn n n := by
  obtain ⟨order, hordered, hperm⟩ := Chart.exists_ordered body
  have hmem : ∀ n, n ∈ order ↔ n < (Chart.ofBody body).size := by
    intro n
    rw [hperm.mem_iff, mem_range]
  refine ⟨?_, ?_, ?_⟩
  · intro n hn
    exact hordered.reaches n ((hmem n).2 hn)
  · intro e he
    have hends := hordered.ends e he
    exact ⟨(hmem _).1 hends.1, (hmem _).1 hends.2⟩
  · intro n hcycle
    exact Nat.lt_irrefl _ (hordered.idxOf_lt hcycle)

end Flow

end Pseudocode
