import Pseudocode.Proofs.Course
import Pseudocode.Proofs.Flow.Placement
import Pseudocode.Proofs.Flow.Reading

/-!
# The steps that a walk meets

A walk meets the declarations, inputs and outputs whose nodes it comes
to, and a round of a counted loop whenever it leaves the loop's test by
its `si`.

* `met`: the lines of the steps that a walk through the chart of a body
  has met.
* `exists_walk_met`: what comes on a way through a nested body to its end is
  met by a walk that comes to the end.
* `exists_walk_left`: what comes on a way to a `volver` is met by a walk
  that comes to its node.

The node of a step is its own: the pass over the body adds a node for it,
and never takes one away (`nodeOf_le`), so no other step has the same
(`linesAt_eq`). A `Path` is a piece of a walk between two ports, with the
answers that it takes.
-/

namespace Pseudocode

open Pseudocode.Flow List Chart Kind

variable {ls : List Nat}
variable {i n : Nat} {s : Statement}

/-! ### What is met -/

def linesAt (body : List Statement) (select : Kind → Bool) (n : Nat) : List Nat :=
  (body.zipIdx.filter fun p => select p.1.kind && nodeOf body p.2 == n).map (·.1.line)

/-- The rounds that begin when a walk leaves by a port. -/
def roundsAt (body : List Statement) (p : Port) : List Nat :=
  if p.2 = .yes then linesAt body (· == .forLoop) p.1 else []

def edgeSteps (body : List Statement) (e : Edge) : List Nat :=
  roundsAt body e.port ++ linesAt body Kind.isStep e.target

def met (body : List Statement) (answers : Nat → Bool) : Nat → List Nat
  | 0 => []
  | m + 1 =>
    let w := (Chart.ofBody body).walk answers m
    met body answers m ++ match (Chart.ofBody body).ways w.node (answers w.used) with
      | [e] => edgeSteps body e
      | _ => []

theorem met_prefix_met_add (body : List Statement) (answers : Nat → Bool) (m n : Nat) :
    met body answers m <+: met body answers (m + n) := by
  induction n with
  | zero => exact prefix_rfl
  | succ n ih => exact ih.trans (prefix_append _ _)

theorem met_add_of_ways_eq_nil {body : List Statement} {answers : Nat → Bool} {m : Nat}
    (h : (ofBody body).ways ((ofBody body).walk answers m).node
      (answers ((ofBody body).walk answers m).used) = []) (n : Nat) :
    met body answers (m + n) = met body answers m := by
  have hstays : ∀ n, (ofBody body).walk answers (m + n) =
      (ofBody body).walk answers m := by
    intro n
    induction n with
    | zero => rfl
    | succ n ih => rw [← Nat.add_assoc, walk, ih, walkStep, h]
  induction n with
  | zero => rfl
  | succ n ih =>
    rw [← Nat.add_assoc, met, hstays, h, ih]
    exact append_nil _

theorem Flow.Chart.ways_eq_outEdges {g : Chart} (h : g.decisions = []) (n : Nat)
    (answer : Bool) : g.ways n answer = g.outEdges n := by
  refine if_neg fun hn => ?_
  have hlt : n < g.size := by
    obtain ⟨node, hnode, -⟩ := Option.map_eq_some_iff.mp hn
    exact (List.getElem?_eq_some_iff.mp hnode).1
  have hnone := List.filter_eq_nil_iff.mp h n (List.mem_range.mpr hlt)
  exact hnone (beq_iff_eq.mpr hn)

theorem met_eq_of_no_decision {body : List Statement} (h : (ofBody body).decisions = [])
    (answers answers' : Nat → Bool) (m : Nat) : met body answers m = met body answers' m := by
  have hwalk : ∀ m, (ofBody body).walk answers m = (ofBody body).walk answers' m := by
    intro m
    induction m with
    | zero => rfl
    | succ m ih => simp only [walk, walkStep, ih, ways_eq_outEdges h]
  induction m with
  | zero => rfl
  | succ m ih => simp only [met, ih, hwalk, ways_eq_outEdges h]

/-! ### The node of a step -/

namespace Flow.Builder

@[simp] theorem size_node (b : Builder) (label : Text) (outline : Outline) :
    (b.node label outline).chart.size = b.chart.size + 1 := by
  simp [node, addNode, size]

@[simp] theorem size_connect (b : Builder) (n : Nat) : (b.connect n).chart.size = b.chart.size := by
  rw [connect_eq, size_grow]
  rfl

theorem size_closePosttest (b : Builder) (label : Text) :
    b.chart.size ≤ (b.closePosttest label).chart.size := by
  have hconnect : ((b.node label .decision).connect b.chart.size).chart.size = b.chart.size + 1 :=
    (size_connect _ _).trans (size_node _ _ _)
  unfold closePosttest
  dsimp only
  split
  · show b.chart.size ≤ ((b.node label .decision).connect b.chart.size).chart.size
    omega
  · omega

theorem size_startElse (b : Builder) : b.chart.size ≤ b.startElse.chart.size := by
  unfold startElse
  split <;> exact Nat.le_refl _

theorem size_closeInnermost (b : Builder) : b.closeInnermost.chart.size = b.chart.size := by
  cases hb : b.contexts with
  | nil => rw [closeInnermost_of_nil hb]
  | cons => simp [closeInnermost_eq hb, leave, size]

theorem size_visit (b : Builder) (s : Statement) : b.chart.size ≤ (b.visit s).chart.size := by
  have hinner : ∀ t : Builder, b.chart.size ≤ t.chart.size →
      b.chart.size ≤ t.closeInnermost.chart.size :=
    fun t ht => (size_closeInnermost t).symm ▸ ht
  have hself := Nat.le_refl b.chart.size
  have hopen : ∀ loop label, b.chart.size ≤ (b.openPretest loop label).chart.size := by
    intro loop label
    simp only [openPretest, size_connect, size_node]
    omega
  obtain ⟨text, line, form⟩ := s
  cases form with
  | comment _ | thenBranch => exact Nat.le_refl _
  | whileLoop | forLoop => exact hopen _ _
  | repeatLoop => simp [visit, openPosttest]
  | endWhile | endFor => exact closeLoop_induction hinner hself hinner _ _ fun _ => hself
  | untilTest =>
    exact closeLoop_induction hinner hself (fun t ht => Nat.le_trans ht (size_closePosttest t _)) _ _
      fun _ => hself
  | ifTest =>
    simp only [visit, openBranch, size_connect, size_node]
    omega
  | elseBranch =>
    exact withBranch_induction hinner hself fun t ht => Nat.le_trans ht (size_startElse t)
  | endIf => exact withBranch_induction hinner hself hinner
  | _ => simp [visit]

theorem size_lt_visit (b : Builder)
    (h : s.kind.isStep = true ∨ s.kind = .forLoop) : b.chart.size < (b.visit s).chart.size := by
  rcases h with h | h
  · have hplain : s.kind.isPlain = true := by
      revert h
      cases s.kind <;> simp [isStep, isPlain]
    rw [visit_plain b ⟨s, hplain⟩, size_grow]
    exact Nat.lt_succ_self _
  · rw [visit_pretestHead b true ⟨s, h⟩, chart_push, size_grow]
    exact Nat.lt_add_of_pos_right Nat.two_pos

end Flow.Builder

section Places

variable {body : List Statement}

theorem stateAt_succ_of_getElem? (h : body[i]? = some s) :
    stateAt body (i + 1) = (stateAt body i).visit s := by
  rw [stateAt, take_add_one, h, foldl_append]
  rfl

theorem nodeOf_le {j : Nat} (h : i ≤ j) : nodeOf body i ≤ nodeOf body j := by
  induction h with
  | refl => exact Nat.le_refl _
  | @step j _ ih =>
    refine Nat.le_trans ih ?_
    cases hj : body[j]? with
    | none =>
      have hlength := getElem?_eq_none_iff.mp hj
      refine Nat.le_of_eq ?_
      rw [nodeOf, nodeOf, stateAt, stateAt, take_of_length_le hlength,
        take_of_length_le (Nat.le_succ_of_le hlength)]
    | some s =>
      rw [nodeOf, nodeOf, stateAt_succ_of_getElem? hj]
      exact Builder.size_visit _ s

/-- The kinds of the statements that a walk can meet. -/
def Selects (select : Kind → Bool) : Prop :=
  ∀ k, select k = true → k.isStep = true ∨ k = .forLoop

theorem selects_isStep : Selects isStep :=
  fun _ h => .inl h

theorem selects_forLoop : Selects (· == .forLoop) :=
  fun _ h => .inr (eq_of_beq h)

variable {select : Kind → Bool} {n : Nat}

theorem nodeOf_lt_of_selects (hselect : Selects select) (hs : body[i]? = some s)
    (h : select s.kind = true) : nodeOf body i < nodeOf body (i + 1) := by
  rw [nodeOf, nodeOf, stateAt_succ_of_getElem? hs]
  exact Builder.size_lt_visit _ (hselect _ h)

theorem linesAt_eq_nil (h : ∀ i s, body[i]? = some s → select s.kind = true → nodeOf body i ≠ n) :
    linesAt body select n = [] := by
  rw [linesAt, map_eq_nil_iff, filter_eq_nil_iff]
  rintro ⟨s, i⟩ hmem hp
  simp only [Bool.and_eq_true, beq_iff_eq] at hp
  exact h i s (mk_mem_zipIdx_iff_getElem?.mp hmem) hp.1 hp.2

/-- The nodes that a statement adds: if it is selected, it is found at the
first of them and nothing is found at the others. -/
theorem linesAt_eq (hselect : Selects select) (hs : body[i]? = some s) (hle : nodeOf body i ≤ n)
    (hlt : n < nodeOf body (i + 1)) :
    linesAt body select n =
      if select s.kind = true ∧ nodeOf body i = n then [s.line] else [] := by
  -- No other statement has this node.
  have hother : ∀ j t, body[j]? = some t → select t.kind = true → nodeOf body j = n → j = i := by
    intro j t ht hsel hn
    rcases Nat.lt_trichotomy j i with h | h | h
    · have hnext := nodeOf_lt_of_selects hselect ht hsel
      have hmono : nodeOf body (j + 1) ≤ nodeOf body i := nodeOf_le h
      omega
    · exact h
    · have hmono : nodeOf body (i + 1) ≤ nodeOf body j := nodeOf_le h
      omega
  split
  · next h =>
    have hkeys : (body.zipIdx.map Prod.snd).Nodup := by
      rw [zipIdx_map_snd]
      exact nodup_range'
    have hmem : (s, i) ∈ body.zipIdx := mk_mem_zipIdx_iff_getElem?.mpr hs
    rw [linesAt, filter_eq_singleton hkeys hmem]
    · rfl
    · rintro ⟨t, j⟩ ht
      have ht := mk_mem_zipIdx_iff_getElem?.mp ht
      simp only [Bool.and_eq_true, beq_iff_eq]
      constructor
      · rintro ⟨hsel, hn⟩
        exact hother j t ht hsel hn
      · rintro rfl
        rw [hs] at ht
        cases ht
        exact h
  · next h =>
    refine linesAt_eq_nil fun j t ht hsel hn => ?_
    obtain rfl := hother j t ht hsel hn
    rw [hs] at ht
    cases ht
    exact h ⟨hsel, hn⟩

section Owner

variable {i : Nat} {s : Statement} (hs : body[i]? = some s)
  (hlt : nodeOf body i < nodeOf body (i + 1))
include hs hlt

theorem linesAt_isStep : linesAt body isStep (nodeOf body i) = s.steps := by
  rw [linesAt_eq selects_isStep hs (Nat.le_refl _) hlt, Statement.steps]
  simp

theorem roundsAt_yes :
    roundsAt body (nodeOf body i, .yes) = Body.roundSteps (s.kind == .forLoop) s := by
  rw [roundsAt, linesAt_eq selects_forLoop hs (Nat.le_refl _) hlt, Body.roundSteps]
  simp

end Owner

theorem linesAt_between (hs : body[i]? = some s) (hlt : nodeOf body i < n)
    (hlt' : n < nodeOf body (i + 1)) : linesAt body isStep n = [] := by
  rw [linesAt_eq selects_isStep hs (Nat.le_of_lt hlt) hlt', if_neg (by omega)]

theorem roundsAt_of_ne {p : Port} (h : p.2 ≠ .yes) : roundsAt body p = [] :=
  if_neg h

end Places

/-! ### Pieces of a walk -/

def answerKind (answer : Bool) : EdgeKind :=
  if answer then .yes else .no

/-- A walk that leaves by the first port can come to leave by the second
and meets some steps on the way. A round is met when the answer is given
that begins it. -/
inductive Path (g : Chart) (body : List Statement) : Port → List Nat → Port → Prop
  | refl (p : Port) : Path g body p [] p
  | pass {p q : Port} {n : Nat} {ls : List Nat} : g.Joins p n → g.outline? n ≠ some .decision →
      Path g body (n, .always) ls q → Path g body p (linesAt body Kind.isStep n ++ ls) q
  | ask {p q : Port} {n : Nat} {ls : List Nat} (answer : Bool) : g.Joins p n →
      g.outline? n = some .decision → Path g body (n, answerKind answer) ls q →
        Path g body p
          (linesAt body Kind.isStep n ++ (roundsAt body (n, answerKind answer) ++ ls)) q

section Paths

variable {g : Chart} {body : List Statement} {p q r : Port}

theorem Path.append {ls' : List Nat} (h : Path g body p ls q) (h' : Path g body q ls' r) :
    Path g body p (ls ++ ls') r := by
  induction h with
  | refl => exact h'
  | pass hjoins hn _ ih =>
    rw [append_assoc]
    exact .pass hjoins hn (ih h')
  | ask answer hjoins hn _ ih =>
    rw [append_assoc, append_assoc]
    exact .ask answer hjoins hn (ih h')

theorem Path.terminal (hjoins : g.Joins p n) (hn : g.outline? n = some .terminal)
    (hnone : linesAt body isStep n = [])
    (h : Path g body (n, .always) ls q) : Path g body p ls q := by
  have hpass := Path.pass hjoins (by simp [hn]) h
  rwa [hnone] at hpass

theorem Path.decide (answer : Bool) (hjoins : g.Joins p (nodeOf body i))
    (hshows : Shows g body i .decision) (hs : body[i]? = some s)
    (hlt : nodeOf body i < nodeOf body (i + 1)) (hstep : s.kind.isStep = false)
    (h : Path g body (nodeOf body i, answerKind answer) ls q) :
    Path g body p
      ((if answer then Body.roundSteps (s.kind == .forLoop) s else []) ++ ls) q := by
  have hask := Path.ask answer hjoins hshows.outline? h
  rw [linesAt_isStep hs hlt, Statement.steps, if_neg (by simp [hstep])] at hask
  cases answer with
  | false => rwa [roundsAt_of_ne (by simp [answerKind])] at hask
  | true => rwa [answerKind, if_pos rfl, roundsAt_yes hs hlt] at hask

theorem Path.choose (hjoins : g.Joins p (nodeOf body i)) (hshows : Shows g body i .decision)
    (hs : body[i]? = some s) (hlt : nodeOf body i < nodeOf body (i + 1))
    (hkind : s.kind = .ifTest) (answer : Bool) :
    Path g body p [] (nodeOf body i, answerKind answer) := by
  have hdecide := Path.decide answer hjoins hshows hs hlt (by rw [hkind]; rfl) (.refl _)
  rw [hkind] at hdecide
  cases answer <;> exact hdecide

/-- A walk that leaves by a port can come to a `volver` and meets some steps
on the way. -/
def Returns (g : Chart) (body : List Statement) (p : Port) (ls : List Nat) : Prop :=
  ∃ i s, body[i]? = some s ∧ s.kind = .returnScope ∧ Path g body p ls (nodeOf body i, .always)

/-- All of some ways can be taken between two ports. -/
structure Offers (g : Chart) (body : List Statement) (p : Port) (W : Ways) (q : Port) :
    Prop where
  whole : ∀ ls, W.whole ls → Path g body p ls q
  left : ∀ ls, W.left ls → Returns g body p ls

namespace Offers

variable {V W : Ways}

theorem only (h : Path g body p ls q) : Offers g body p (.only ls) q := by
  refine ⟨?_, fun _ h => h.elim⟩
  rintro _ rfl
  exact h

theorem le (h : Offers g body p W q) (hle : V.Le W) : Offers g body p V q :=
  ⟨fun ls hls => h.whole ls (hle.whole ls hls), fun ls hls => h.left ls (hle.left ls hls)⟩

theorem seq (h : Offers g body p V q) (h' : Offers g body q W r) : Offers g body p (V.seq W) r := by
  refine ⟨?_, ?_⟩
  · rintro _ ⟨xs, ys, hxs, hys, rfl⟩
    exact (h.whole xs hxs).append (h'.whole ys hys)
  · rintro ls (hls | ⟨xs, ys, hxs, hys, rfl⟩)
    · exact h.left ls hls
    · obtain ⟨i, s, hs, hkind, hpath⟩ := h'.left ys hys
      exact ⟨i, s, hs, hkind, (h.whole xs hxs).append hpath⟩

theorem or (h : Offers g body p V q) (h' : Offers g body p W q) : Offers g body p (V.or W) q :=
  ⟨fun ls => Or.rec (h.whole ls) (h'.whole ls), fun ls => Or.rec (h.left ls) (h'.left ls)⟩

theorem after (h : Path g body p [] q) (h' : Offers g body q W r) : Offers g body p W r :=
  ((only h).seq h').le Ways.le_nil_seq

theorem before (h : Offers g body p W q) (h' : Path g body q [] r) : Offers g body p W r :=
  (h.seq (only h')).le Ways.le_seq_nil

end Offers

theorem LaidLoop.offers_rounds (again : Bool) {j : Nat} {inner : Body} {W : Ways}
    (hloop : LaidLoop g body i (answerKind again) j inner) (hs : body[i]? = some s)
    (hlt : nodeOf body i < nodeOf body (i + 1)) (hstep : s.kind.isStep = false)
    (hcounted : s.kind = .forLoop → again = true)
    (hinner : Offers g body (nodeOf body i, answerKind again) W
      (inner.exit (nodeOf body j) (nodeOf body i, answerKind again)))
    (hjoins : g.Joins p (nodeOf body i)) :
    Offers g body p ((Ways.only (Body.roundSteps (s.kind == .forLoop) s)).seq W).rounds
      (nodeOf body i, answerKind !again) := by
  have hdecide : ∀ {p : Port}, g.Joins p (nodeOf body i) → ∀ (answer : Bool) {q : Port}
      {ls : List Nat}, Path g body (nodeOf body i, answerKind answer) ls q → Path g body p
        ((if answer then Body.roundSteps (s.kind == .forLoop) s else []) ++ ls) q :=
    fun hjoins answer _ _ => .decide answer hjoins hloop.shows hs hlt hstep
  have hnone : again = false → Body.roundSteps (s.kind == .forLoop) s = [] := by
    intro hagain
    have hkind : s.kind ≠ .forLoop := fun h => nomatch (hcounted h).symm.trans hagain
    simp [Body.roundSteps, hkind]
  -- What is met when the body is entered again, and when it is not.
  have hfront : (if again then Body.roundSteps (s.kind == .forLoop) s else []) =
      Body.roundSteps (s.kind == .forLoop) s := by
    cases again with
    | true => rfl
    | false => exact (hnone rfl).symm
  have hout : (if !again then Body.roundSteps (s.kind == .forLoop) s else []) = [] := by
    cases again with
    | true => rfl
    | false => exact hnone rfl
  have hrounds : ∀ (ls zs : List Nat) {p q : Port}, g.Joins p (nodeOf body i) →
      (∀ p, g.Joins p (nodeOf body i) → Path g body p zs q) →
      Rounds ((Ways.only (Body.roundSteps (s.kind == .forLoop) s)).seq W).whole ls →
      Path g body p (ls ++ zs) q := by
    intro ls zs p q hjoins hlast h
    induction h generalizing p with
    | nil => exact hlast p hjoins
    | cons hround _ ih =>
      obtain ⟨_, xs, rfl, hxs, rfl⟩ := hround
      have hround := hdecide hjoins again ((hinner.whole xs hxs).append (ih hloop.back))
      rwa [hfront, ← append_assoc, ← append_assoc] at hround
  refine ⟨fun ls hls => ?_, ?_⟩
  · rw [← append_nil ls]
    refine hrounds ls [] hjoins (fun p hjoins => ?_) hls
    have hlast := hdecide hjoins (!again) (.refl _)
    rwa [hout] at hlast
  · rintro _ ⟨ls, zs, hls, hzs, rfl⟩
    rcases hzs with hzs | ⟨_, zs, rfl, hzs, rfl⟩
    · exact hzs.elim
    · obtain ⟨t, s', hs', hkind, hpath⟩ := hinner.left zs hzs
      refine ⟨t, s', hs', hkind, hrounds ls _ hjoins (fun p hjoins => ?_) hls⟩
      have hlast := hdecide hjoins again hpath
      rwa [hfront] at hlast

theorem nodeOf_succ_choice {head : StatementOf .ifTest} {xs : List Statement}
    (h : head.1 :: xs <+: body.drop i) : nodeOf body (i + 1) = nodeOf body i + 2 := by
  rw [nodeOf, stateAt_succ h, Builder.visit_choiceHead, Builder.chart_push, Builder.size_grow]
  rfl

theorem Laid.offers {b : Body} (h : Laid g body i p b) :
    Offers g body p b.ways (b.exit (nodeOf body i) p) := by
  induction b generalizing i p with
  | nil => exact .only (.refl _)
  | comment s rest ih =>
    rw [← h.toStands.comment.2]
    exact ih h.comment
  | plain s rest ih =>
    obtain ⟨hjoins, hshows, hrest⟩ := h.plain
    have hn := h.toStands.plain.2
    have hs := (prefix_drop_succ h.found).1
    have hpast : Path g body p s.1.steps (nodeOf body i, .always) := by
      rw [← linesAt_isStep hs (by omega), ← append_nil (linesAt ..)]
      exact .pass hjoins (by simp [hshows.outline?]) (.refl _)
    rw [Body.exit, ← hn]
    refine Offers.seq ⟨?_, ?_⟩ (ih hrest)
    · rintro _ rfl
      exact hpast
    · rintro _ ⟨hkind, rfl⟩
      have hsteps : s.1.steps = [] := by simp [Statement.steps, hkind, isStep]
      exact ⟨i, s.1, hs, hkind, hsteps ▸ hpast⟩
  | pretest counted head inner tail rest ihInner ihRest =>
    obtain ⟨hjoins, hloop, hout, hterminal, hrest⟩ := h.pretest
    obtain ⟨⟨-, hn⟩, -, hn'⟩ := h.toStands.pretest
    have hs := (prefix_drop_succ h.found).1
    have hkind : (head.1.kind == .forLoop) = counted ∧ head.1.kind.isStep = false := by
      rw [head.2]
      cases counted <;> exact ⟨rfl, rfl⟩
    have hbetween := linesAt_between hs (n := nodeOf body i + 1) (by omega) (by omega)
    have hrounds := LaidLoop.offers_rounds true hloop hs (by omega) hkind.2 (fun _ => rfl)
      (ihInner hloop.laid) hjoins
    rw [hkind.1] at hrounds
    rw [Body.exit, ← hn']
    exact hrounds.seq (.after (.terminal hout hterminal hbetween (.refl _)) (ihRest hrest))
  | posttest head inner test rest ihInner ihRest =>
    obtain ⟨hinner, hjoins, hloop, hout, hterminal, hrest⟩ := h.posttest
    obtain ⟨⟨-, hn⟩, ⟨hn', hs'⟩, -, hn''⟩ := h.toStands.posttest
    have hs := (prefix_drop_succ h.found).1
    have hnone : linesAt body isStep (nodeOf body i) = [] := by
      rw [linesAt_isStep hs (by omega), Statement.steps, head.2]
      rfl
    have hrounds := LaidLoop.offers_rounds false hloop hs' (by omega) (by rw [test.2]; rfl)
      (fun hfor => absurd (test.2.symm.trans hfor) (by decide)) (ihInner hloop.laid) hjoins
    have hsteps : Body.roundSteps (test.1.kind == .forLoop) test.1 = [] := by
      rw [test.2]
      rfl
    rw [hsteps] at hrounds
    rw [Body.exit, ← hn'']
    exact ((ihInner hinner).seq (hrounds.le (Ways.rounds_le Ways.le_nil_seq))).seq
      (.after (.terminal hout hterminal hnone (.refl _)) (ihRest hrest))
  | choice head mark yes tail rest ihYes ihRest =>
    obtain ⟨hjoins, hshows, hterminal, hyes, hexit, hout, hrest⟩ := h.choice
    have hn := nodeOf_succ_choice h.found
    have hs := (prefix_drop_succ h.found).1
    have hbetween := linesAt_between hs (n := nodeOf body i + 1) (by omega) (by omega)
    have hchoose := Path.choose hjoins hshows hs (by omega) head.2
    rw [Body.exit, ← h.toStands.choice.2.2]
    refine Offers.seq (.or ?_ ?_) (ihRest hrest)
    · exact .after (hchoose true)
        ((ihYes hyes).before (.terminal hexit hterminal hbetween (.refl _)))
    · exact .only ((hchoose false).append (.terminal hout hterminal hbetween (.refl _)))
  | choiceElse head mark yes middle no tail rest ihYes ihNo ihRest =>
    obtain ⟨hjoins, hshows, hterminal, hyes, hexit, hno, hexit', hrest⟩ := h.choiceElse
    have hn := nodeOf_succ_choice h.found
    have hs := (prefix_drop_succ h.found).1
    have hbetween := linesAt_between hs (n := nodeOf body i + 1) (by omega) (by omega)
    have hchoose := Path.choose hjoins hshows hs (by omega) head.2
    rw [Body.exit, ← h.toStands.choiceElse.2.2.2]
    refine Offers.seq (.or ?_ ?_) (ihRest hrest)
    · exact .after (hchoose true)
        ((ihYes hyes).before (.terminal hexit hterminal hbetween (.refl _)))
    · exact .after (hchoose false)
        ((ihNo hno).before (.terminal hexit' hterminal hbetween (.refl _)))

end Paths

/-! ### Whole walks -/

section Walks

variable {b : Body} {p q : Port}

theorem met_succ {answers : Nat → Bool} {m used : Nat} (hleaves : b.chart.Leaves answers
      (b.chart.walk answers m).node
      (b.chart.walk answers m).used p used) (hjoins : b.chart.Joins p n) :
    met b.statements answers (m + 1) = met b.statements answers m ++
      (roundsAt b.statements p ++ linesAt b.statements isStep n) := by
  obtain ⟨e, hways, rfl, rfl⟩ := ways_of_joins b answers hleaves hjoins
  rw [met, hways]
  rfl

theorem Path.exists_walk (h : Path b.chart b.statements p ls q) :
    ∃ bits : List Bool, ∀ answers m used, (∀ j a, bits[j]? = some a → answers (used + j) = a) →
      b.chart.Leaves answers
        (b.chart.walk answers m).node
        (b.chart.walk answers m).used p used →
      ∃ m' used', b.chart.Leaves answers
          (b.chart.walk answers m').node
          (b.chart.walk answers m').used q used' ∧
        met b.statements answers m' ++ roundsAt b.statements q =
          met b.statements answers m ++ (roundsAt b.statements p ++ ls) := by
  induction h with
  | refl => exact ⟨[], fun answers m used _ hleaves => ⟨m, used, hleaves, by simp⟩⟩
  | @pass p q n ls hjoins hn _ ih =>
    obtain ⟨bits, ih⟩ := ih
    refine ⟨bits, fun answers m used hbits hleaves => ?_⟩
    have hwalk : b.chart.walk answers (m + 1) =
        b.chart.arrive _ n used := walkStep_of_joins b answers hleaves hjoins
    obtain ⟨m', used', hleaves', hmet⟩ := ih answers (m + 1) used hbits (by
      rw [hwalk, Leaves, arrive, if_neg hn]
      exact ⟨rfl, rfl⟩)
    have hnone : roundsAt b.statements (n, .always) = [] := roundsAt_of_ne (by simp)
    refine ⟨m', used', hleaves', ?_⟩
    rw [hmet, met_succ hleaves hjoins, hnone]
    simp only [append_assoc, nil_append]
  | @ask p q n ls answer hjoins hn _ ih =>
    obtain ⟨bits, ih⟩ := ih
    refine ⟨answer :: bits, fun answers m used hbits hleaves => ?_⟩
    have hanswer : answers used = answer := hbits 0 answer rfl
    have hwalk : b.chart.walk answers (m + 1) =
        b.chart.arrive _ n used := walkStep_of_joins b answers hleaves hjoins
    obtain ⟨m', used', hleaves', hmet⟩ := ih answers (m + 1) (used + 1)
      (fun j a ha => by
        rw [Nat.add_assoc, Nat.add_comm 1 j]
        exact hbits (j + 1) a ha)
      (by
        rw [hwalk, Leaves, arrive, if_pos hn]
        exact ⟨by rw [hanswer]; rfl, rfl⟩)
    refine ⟨m', used', hleaves', ?_⟩
    rw [hmet, met_succ hleaves hjoins]
    simp only [append_assoc]

theorem linesAt_end (b : Body) : linesAt b.statements isStep (b.chart.size - 1) = [] := by
  have hend : nodeOf b.statements b.length = b.chart.size - 1 := by
    have hfound : b.statements ++ [] <+: b.statements.drop 0 := by simp
    have hstate := stateAt_length hfound rfl
    rw [Nat.zero_add] at hstate
    rw [nodeOf, hstate, Builder.size_after, Body.chart_eq]
    simp only [size, length_cons, length_append, length_nil]
    show 1 + b.nodes.length = _
    omega
  refine linesAt_eq_nil fun i s hs hstep hn => ?_
  have hlt := nodeOf_lt_of_selects selects_isStep hs hstep
  have hle : nodeOf b.statements (i + 1) ≤ nodeOf b.statements b.length :=
    nodeOf_le (List.getElem?_eq_some_iff.mp hs).1
  omega

theorem Path.exists_walk_start (h : Path b.chart b.statements (0, .always) ls (n, .always)) :
    ∃ answers m used, met b.statements answers m = ls ∧
      b.chart.Leaves answers
        (b.chart.walk answers m).node
        (b.chart.walk answers m).used (n, .always) used := by
  obtain ⟨bits, hwalk⟩ := h.exists_walk
  obtain ⟨m, used, hleaves, hmet⟩ := hwalk (fun j => bits.getD j false) 0 0
    (fun j a ha => by simp [ha]) (leaves_start b _)
  refine ⟨_, m, used, ?_, hleaves⟩
  rwa [roundsAt_of_ne (by simp), append_nil] at hmet

theorem exists_walk_met (h : b.ways.whole ls) :
    ∃ answers m, met b.statements answers m = ls ∧
      (b.chart.walk answers m).node =
        b.chart.size - 1 := by
  have hexit : b.exit (nodeOf b.statements 0) (0, .always) =
      ((b.exit (nodeOf b.statements 0) (0, .always)).1, .always) :=
    Prod.ext rfl (b.exit_kind_always ..)
  have hpath := (laid_start b).offers.whole ls h
  rw [hexit] at hpath
  obtain ⟨answers, m, used, hmet, hleaves⟩ := hpath.exists_walk_start
  have hjoins : b.chart.Joins (b.exit (nodeOf b.statements 0) (0, .always))
      (b.chart.size - 1) := joins_end b
  rw [hexit] at hjoins
  refine ⟨answers, m + 1, ?_, ?_⟩
  · rw [met_succ hleaves hjoins, roundsAt_of_ne (by simp), linesAt_end, hmet]
    simp
  · rw [walk, walkStep_of_joins b _ hleaves hjoins]
    rfl

theorem exists_walk_left (h : b.ways.left ls) :
    ∃ answers m i s, met b.statements answers m = ls ∧ b.statements[i]? = some s ∧
      s.kind = .returnScope ∧
        (b.chart.walk answers m).node = nodeOf b.statements i := by
  obtain ⟨i, s, hs, hkind, hpath⟩ := (laid_start b).offers.left ls h
  obtain ⟨answers, m, used, hmet, hleaves⟩ := hpath.exists_walk_start
  refine ⟨answers, m, i, s, hmet, hs, hkind, ?_⟩
  unfold Leaves at hleaves
  split at hleaves
  · have hway := congrArg Prod.snd hleaves.1
    split at hway <;> cases hway
  · exact (congrArg Prod.fst hleaves.1).symm

end Walks

end Pseudocode
