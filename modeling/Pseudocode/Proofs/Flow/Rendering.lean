import Pseudocode.Proofs.Flow.Search
import Pseudocode.Proofs.Program.Lines

/-!
# What the text form of a chart tells

A label is any text: it may look like an entity, like another node or like
an edge. Making it safe leaves no character in it that the text form uses to
delimit labels, so a line of the text form can be cut in one way only.

* `readEntities`, `readEntities_safeLabel`: a safe label read back, up to the
  two sorts of brackets that become parentheses.
* `Node.shown_of_render_eq`, `Edge.shown_of_render_eq`: what one line tells.
* `render_tells_chart`: what the text form tells of a chart.
-/

namespace Pseudocode.Flow

open List

/-! ### Labels -/

/-- The entities of a text replaced by what they stand for, in one pass from
left to right. -/
def readEntities : Text → Text
  | '&' :: 'a' :: 'm' :: 'p' :: ';' :: t => '&' :: readEntities t
  | '&' :: 'l' :: 't' :: ';' :: t => '<' :: readEntities t
  | '&' :: 'g' :: 't' :: ';' :: t => '>' :: readEntities t
  | '&' :: 'q' :: 'u' :: 'o' :: 't' :: ';' :: t => '"' :: readEntities t
  | c :: t => c :: readEntities t
  | [] => []

/-- Square brackets and braces as parentheses. -/
def rounded (c : Char) : Char :=
  if c = '[' ∨ c = '\x7b' then '(' else if c = ']' ∨ c = '\x7d' then ')' else c

/-- The characters that delimit labels in the text form, or that its readers
take for markup. -/
def delimiters : Text := "<>[]\x7b\x7d\""

theorem readEntities_cons {c : Char} (h : c ≠ '&') (t : Text) :
    readEntities (c :: t) = c :: readEntities t := by
  rw [readEntities] <;> intros <;> contradiction

theorem readEntities_safeChar (c : Char) (t : Text) :
    readEntities (safeChar c ++ t) = rounded c :: readEntities t := by
  unfold safeChar
  split_ifs with hamp hlt hgt hquote hopen hclose
  · rw [hamp]
    rfl
  · rw [hlt]
    rfl
  · rw [hgt]
    rfl
  · rw [hquote]
    rfl
  · rw [rounded, if_pos hopen]
    exact readEntities_cons (by decide) t
  · rw [rounded, if_neg hopen, if_pos hclose]
    exact readEntities_cons (by decide) t
  · rw [rounded, if_neg hopen, if_neg hclose]
    exact readEntities_cons hamp t

theorem readEntities_safeLabel (label : Text) :
    readEntities (safeLabel label) = label.map rounded := by
  induction label with
  | nil => rfl
  | cons c label ih =>
    show readEntities (safeChar c ++ safeLabel label) = _
    rw [readEntities_safeChar, ih, map_cons]

theorem not_mem_delimiters {c : Char} {label : Text} (h : c ∈ safeLabel label) :
    c ∉ delimiters := by
  let put : List Text := ["&amp;", "&lt;", "&gt;", "&quot;", "(", ")"]
  have hput : put.all (fun t => t.all (· ∉ delimiters)) = true := by decide
  have hchanged : delimiters.all (fun x => safeChar x ≠ [x]) = true := by decide
  obtain ⟨d, -, hc⟩ := mem_flatMap.mp h
  have hcases : safeChar d = [d] ∨ safeChar d ∈ put := by
    unfold safeChar
    split_ifs <;> simp [put]
  rcases hcases with hsame | hother
  · obtain rfl := mem_singleton.mp (hsame ▸ hc)
    exact fun hmem => of_decide_eq_true (all_eq_true.mp hchanged c hmem) hsame
  · exact of_decide_eq_true (all_eq_true.mp (all_eq_true.mp hput _ hother) c hc)

/-! ### Lines -/

/-- What a line tells of a node at a position: its name, its outline and its
label made safe. -/
def Node.shown (position : Nat) (n : Node) : Text × Outline × Text :=
  (nodeName position, n.outline, safeLabel n.label)

/-- What a line tells of an edge: the names of its ends and when it is
followed. -/
def Edge.shown (e : Edge) : Text × Text × EdgeKind :=
  (nodeName e.source, nodeName e.target, e.kind)

theorem Node.shown_of_render_eq {i : Nat} {n m : Node} (h : n.render i = m.render i) :
    n.shown i = m.shown i := by
  have hrest := append_cancel_left h
  cases hn : n.outline <;> cases hm : m.outline <;> simp [hn, hm] at hrest <;>
    simp [shown, hn, hm, hrest]

theorem not_mem_nodeName {n : Nat} {c : Char} (hN : c ≠ 'N') (hdigit : c.isDigit = false) :
    c ∉ nodeName n := fun h => by
  rcases mem_cons.mp h with h | h
  · exact hN h
  · rw [Nat.isDigit_of_mem_toDigits (by decide) (by decide) h] at hdigit
    cases hdigit

/-- The arrow of an edge, after the blank that ends the name of its source. -/
def EdgeKind.arrow (kind : EdgeKind) : Text :=
  kind.label?.elim "--> " fun label => "-- " ++ label ++ " --> "

theorem Edge.render_eq (e : Edge) :
    e.render = nodeName e.source ++ ' ' :: (e.kind.arrow ++ nodeName e.target) := by
  unfold render EdgeKind.arrow
  cases e.kind.label? <;> simp

theorem EdgeKind.arrow_inj {kind kind' : EdgeKind} {s t : Text}
    (h : kind.arrow ++ s = kind'.arrow ++ t) : s = t ∧ kind = kind' := by
  cases kind <;> cases kind' <;> simp [arrow, label?] at h <;> simp [h]

theorem Edge.shown_of_render_eq {e f : Edge} (h : e.render = f.render) : e.shown = f.shown := by
  rw [render_eq, render_eq] at h
  have hblank (n : Nat) : ∀ c ∈ nodeName n, (c == ' ') = false := fun c hc =>
    beq_false_of_ne fun he => not_mem_nodeName (by decide) (by decide) (he ▸ hc)
  -- The name of the source ends at the first blank.
  have hsource : nodeName e.source = nodeName f.source := by
    have hcut := congrArg (Text.cutAt (· == ' ')) h
    rw [Text.cutAt_append_cons (hblank _) rfl, Text.cutAt_append_cons (hblank _) rfl] at hcut
    exact (cons.inj hcut).1
  rw [hsource] at h
  obtain ⟨htarget, hkind⟩ := EdgeKind.arrow_inj (cons.inj (append_cancel_left h)).2
  rw [shown, hsource, htarget, hkind, shown]

/-- Only a node has quotes in its line. -/
theorem quote_mem_render (n : Node) (i : Nat) : '"' ∈ n.render i := by
  unfold Node.render
  cases n.outline <;> simp

theorem Edge.not_mem_render {c : Char} (hc : c = '\n' ∨ c = '"') (e : Edge) : c ∉ e.render := by
  have hname (n : Nat) : c ∉ nodeName n := by
    rcases hc with rfl | rfl <;> exact not_mem_nodeName (by decide) (by decide)
  rw [render_eq]
  rcases hc with rfl | rfl <;> cases e.kind <;> simp [hname, EdgeKind.arrow, EdgeKind.label?]

theorem newline_not_mem_render {n : Node} (h : '\n' ∉ n.label) (i : Nat) : '\n' ∉ n.render i := by
  have hlabel : '\n' ∉ safeLabel n.label := by
    intro hmem
    obtain ⟨d, hd, hmem⟩ := mem_flatMap.mp hmem
    unfold safeChar at hmem
    split_ifs at hmem <;> simp at hmem
    exact h (hmem ▸ hd)
  have hname : '\n' ∉ nodeName i := not_mem_nodeName (by decide) (by decide)
  unfold Node.render
  cases n.outline <;> simp [hlabel, hname]

/-! ### Charts -/

namespace Chart

theorem append_inj_of_forall {α : Type} {p : α → Bool} {xs ys xs' ys' : List α}
    (hxs : ∀ x ∈ xs, p x = true) (hys : ∀ y ∈ ys, ¬p y = true) (hxs' : ∀ x ∈ xs', p x = true)
    (hys' : ∀ y ∈ ys', ¬p y = true) (h : xs ++ ys = xs' ++ ys') : xs = xs' ∧ ys = ys' := by
  have hcut := congrArg (filter p) h
  rw [filter_append, filter_append, filter_eq_self.mpr hxs, filter_eq_self.mpr hxs',
    filter_eq_nil_iff.mpr hys, filter_eq_nil_iff.mpr hys', append_nil, append_nil] at hcut
  exact ⟨hcut, append_cancel_left (hcut ▸ h)⟩

theorem mapIdx_eq_of_factors {α β γ : Type} {f : Nat → α → β} {g : Nat → α → γ} {xs ys : List α}
    (hg : ∀ i, (g i).FactorsThrough (f i)) (h : xs.mapIdx f = ys.mapIdx f) :
    xs.mapIdx g = ys.mapIdx g := by
  induction xs generalizing f g ys with
  | nil => simpa using h
  | cons x xs ih =>
    cases ys with
    | nil => simp at h
    | cons y ys =>
      simp only [mapIdx_cons, cons.injEq] at h ⊢
      exact ⟨hg 0 h.1, ih (fun i => hg (i + 1)) h.2⟩

theorem cutAt_render {g : Chart} (h : ∀ n ∈ g.nodes, '\n' ∉ n.label) :
    Text.cutAt (· == '\n') g.render = g.lines := by
  refine Text.cutAt_join (by simp [lines]) ?_
  intro line hline
  rcases mem_cons.mp hline with rfl | hline
  · decide
  rcases mem_append.mp hline with hnode | hedge
  · obtain ⟨i, hi, rfl⟩ := mem_mapIdx.mp hnode
    exact newline_not_mem_render (h _ (getElem_mem hi)) i
  · obtain ⟨e, -, rfl⟩ := mem_map.mp hedge
    exact e.not_mem_render (.inl rfl)

end Chart

/-- The text forms of two charts are the same only if the charts have the same
nodes, by name, outline and safe label, and the same edges, by their ends and
kinds, in the same order. A safe label has no delimiter in it, and its entities
read back give the label with its brackets and braces as parentheses. -/
theorem render_tells_chart :
    (∀ g h : Chart, (∀ n ∈ g.nodes, '\n' ∉ n.label) → (∀ n ∈ h.nodes, '\n' ∉ n.label) →
      g.render = h.render →
        g.nodes.mapIdx Node.shown = h.nodes.mapIdx Node.shown ∧
        g.edges.map Edge.shown = h.edges.map Edge.shown) ∧
    ∀ label, (∀ c ∈ safeLabel label, c ∉ delimiters) ∧
      readEntities (safeLabel label) = label.map rounded := by
  refine ⟨fun g h hg hh heq => ?_,
    fun label => ⟨fun c hc => not_mem_delimiters hc, readEntities_safeLabel label⟩⟩
  have hlines := congrArg (Text.cutAt (· == '\n')) heq
  rw [Chart.cutAt_render hg, Chart.cutAt_render hh] at hlines
  have hnode (g : Chart) : ∀ line ∈ g.nodes.mapIdx Node.render, line.contains '"' = true := by
    intro line hline
    obtain ⟨i, -, rfl⟩ := mem_mapIdx.mp hline
    simpa using quote_mem_render _ i
  have hedge (g : Chart) : ∀ line ∈ g.edges.map Edge.render, ¬line.contains '"' = true := by
    simp [Edge.not_mem_render]
  obtain ⟨hnodes, hedges⟩ := Chart.append_inj_of_forall (hnode g) (hedge g) (hnode h) (hedge h)
    (cons.inj hlines).2
  have hmap {β : Type} (f : Edge → β) (es : List Edge) : es.map f = es.mapIdx fun _ => f :=
    ext_getElem? (by simp)
  rw [hmap, hmap] at hedges ⊢
  exact ⟨Chart.mapIdx_eq_of_factors (fun i _ _ => Node.shown_of_render_eq) hnodes,
    Chart.mapIdx_eq_of_factors (fun _ _ _ => Edge.shown_of_render_eq) hedges⟩

/-- A test of a cell, whose brackets may be written in two ways, before a node
whose label looks like an edge. -/
def cellTest (cell : Text) : Chart :=
  { nodes := [⟨cell, .decision⟩, ⟨"N0 --> N1 &lt;", .process⟩]
    edges := [{ source := 0, target := 1, kind := .yes }] }

theorem render_tells_cellTest :
    (cellTest "v[1] < 2").render = (cellTest "v\x7b1) < 2").render ∧
      (cellTest "v[1] < 2").nodes.mapIdx Node.shown =
        (cellTest "v\x7b1) < 2").nodes.mapIdx Node.shown := by
  have heq : (cellTest "v[1] < 2").render = (cellTest "v\x7b1) < 2").render := by decide +kernel
  exact ⟨heq, (render_tells_chart.1 _ _ (by decide) (by decide) heq).1⟩

end Pseudocode.Flow
