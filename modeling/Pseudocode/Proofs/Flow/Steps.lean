import Mathlib.Data.List.Perm.Subperm
import Pseudocode.Flow.Steps
import Pseudocode.Proofs.Flow.Wiring

/-!
# The steps of a body and their loops

A statement that closes a loop takes the innermost open loop of its sort out
of the open ones, wherever it stands there, and remembers its position.
Positions count steps, so comments are left out.

* `StepList.Linked`: what holds after any statements. Open loops and
  remembered positions are those of statements that open a loop, each once.
* `Body.listed`: the steps of a nested body, block by block.
-/

namespace Pseudocode

open Flow List

/-- The sort of the loop that a statement opens, with `true`, or closes. -/
def Kind.loop? : Kind → Option (Loop × Bool)
  | .whileLoop => some (.whileLoop, true)
  | .forLoop => some (.forLoop, true)
  | .repeatLoop => some (.repeatLoop, true)
  | .endWhile => some (.whileLoop, false)
  | .endFor => some (.forLoop, false)
  | .untilTest => some (.repeatLoop, false)
  | _ => none

def Statement.stepLabel (s : Statement) : Text :=
  match s.form with
  | .repeatLoop => "Repetir"
  | .endWhile => "Fin mientras"
  | .endFor => "Fin para"
  | .thenBranch => "Entonces"
  | .elseBranch => "Sino"
  | .endIf => "Fin si"
  | _ => nodeLabel s

/-- The statements that have a step. -/
def shown (body : List Statement) : List Statement :=
  body.filter (·.kind ≠ .comment)

/-- What the statement of the step at a position does to a loop. -/
def loopAt (xs : List Statement) (k : Nat) : Option (Loop × Bool) :=
  (none :: xs.map (·.kind.loop?))[k]?.join

/-- The position that the step at a position leads back to. -/
def backAt (steps : List Step) (j : Nat) : Option Nat :=
  steps[j]?.bind Step.backTo

variable {xs : List Statement} {s : Statement} {j k : Nat}

theorem loopAt_concat {role : Loop × Bool} (h : loopAt xs k = some role) (s : Statement) :
    loopAt (xs ++ [s]) k = some role := by
  have hlt := (List.getElem?_eq_some_iff.1 (Option.join_eq_some_iff.1 h)).1
  rw [loopAt, map_append, ← cons_append, getElem?_append_left hlt]
  exact h

theorem perm_cons_eraseP {α : Type} {p : α → Bool} {l : List α} {a : α} (h : l.find? p = some a) :
    l ~ a :: l.eraseP p := by
  obtain ⟨ha, before, after, rfl, hbefore⟩ := find?_eq_some_iff_append.1 h
  rw [eraseP_append_right _ (by simpa using hbefore), eraseP_cons_of_pos ha]
  exact perm_middle

theorem backAt_concat {steps : List Step} {step : Step}
    (h : backAt (steps ++ [step]) j = some k) :
    backAt steps j = some k ∨ j = steps.length ∧ step.backTo = some k := by
  rw [backAt, getElem?_append] at h
  split at h
  · exact .inl h
  · rw [getElem?_singleton] at h
    split at h
    · exact .inr ⟨by omega, h⟩
    · cases h

namespace Flow.StepList

variable {l : StepList}

theorem visit_of {k : Kind} (s : StatementOf k) :
    l.visit s.1 = if k = .comment then l else match k.loop? with
      | some (sort, true) => l.openLoop sort s.1.stepLabel
      | some (sort, false) => l.closeLoop sort s.1.stepLabel
      | none => l.push s.1.stepLabel := by
  obtain ⟨⟨text, line, form⟩, rfl⟩ := s
  cases form <;> rfl

/-! ### Any statements -/

/-- The positions of open loops and those that steps lead back to. -/
def known (l : StepList) : List Nat :=
  l.loops.map Prod.snd ++ l.steps.filterMap Step.backTo

/-- What the listing holds after statements that have steps. -/
structure Linked (l : StepList) (xs : List Statement) : Prop where
  labels : l.steps.map Step.label = ("Inicio" : Text) :: xs.map Statement.stepLabel
  opened : ∀ o ∈ l.loops, loopAt xs o.2 = some (o.1, true)
  back : ∀ j k, backAt l.steps j = some k →
    k < j ∧ ∃ sort, loopAt xs k = some (sort, true) ∧ loopAt xs j = some (sort, false)
  apart : l.known <+~ range l.steps.length

namespace Linked

theorem loopAt_length (h : l.Linked xs) (s : Statement) :
    loopAt (xs ++ [s]) l.steps.length = s.kind.loop? := by
  have hlength : l.steps.length = xs.length + 1 := by simpa using congrArg List.length h.labels
  simp [loopAt, hlength]

/-- One more step, with the open loops that remain. -/
theorem push (h : l.Linked xs) {l' : StepList} {back : Option Nat}
    (hsteps : l'.steps = l.steps ++ [⟨s.stepLabel, back⟩])
    (hopened : ∀ o ∈ l'.loops, loopAt (xs ++ [s]) o.2 = some (o.1, true))
    (hback : ∀ k, back = some k → k ∈ l.known ∧ ∃ sort, loopAt xs k = some (sort, true) ∧
      s.kind.loop? = some (sort, false))
    (hknown : l'.known <+~ l.steps.length :: l.known) : l'.Linked (xs ++ [s]) where
  labels := by
    rw [hsteps, map_append, h.labels, map_append]
    rfl
  opened := hopened
  back := by
    intro j k hj
    rcases backAt_concat (hsteps ▸ hj) with hold | ⟨rfl, hnew⟩
    · obtain ⟨hlt, sort, hopens, hcloses⟩ := h.back j k hold
      exact ⟨hlt, sort, loopAt_concat hopens s, loopAt_concat hcloses s⟩
    · obtain ⟨hk, sort, hopens, hcloses⟩ := hback k hnew
      exact ⟨mem_range.1 (h.apart.subset hk), sort, loopAt_concat hopens s,
        (h.loopAt_length s).trans hcloses⟩
  apart := by
    rw [hsteps, length_append, length_singleton, range_succ]
    exact (hknown.trans ((subperm_cons _).2 h.apart)).trans (perm_append_singleton ..).symm.subperm

theorem visit (h : l.Linked xs) (hs : s.kind ≠ .comment) : (l.visit s).Linked (xs ++ [s]) := by
  have hopened : ∀ o ∈ l.loops, loopAt (xs ++ [s]) o.2 = some (o.1, true) :=
    fun o ho => loopAt_concat (h.opened o ho) s
  have hnone : (l.push s.stepLabel).Linked (xs ++ [s]) := by
    refine h.push rfl hopened (by simp) ?_
    rw [show (l.push s.stepLabel).known = l.known by simp [known, StepList.push]]
    exact .cons_self
  rw [show l.visit s = _ from visit_of ⟨s, rfl⟩, if_neg hs]
  rcases hrole : s.kind.loop? with _ | ⟨sort, _ | _⟩
  · exact hnone
  · cases hfind : l.loops.find? fun o => o.1 == sort with
    | none =>
      simp only [closeLoop, hfind, eraseP_of_forall_not (find?_eq_none.1 hfind)]
      exact hnone
    | some o =>
      -- The loop that is found leaves the open ones, and its position is remembered.
      have ho := mem_of_find?_eq_some hfind
      have hsort : o.1 = sort := by simpa using find?_some hfind
      simp only [closeLoop, hfind]
      refine h.push rfl (fun x hx => hopened x (mem_of_mem_eraseP hx)) ?_ ?_
      · rintro k ⟨⟩
        exact ⟨mem_append_left _ (mem_map_of_mem ho), sort, hsort ▸ h.opened o ho, hrole⟩
      · have hperm := ((perm_cons_eraseP hfind).map Prod.snd).append_right
          (l.steps.filterMap Step.backTo)
        refine (Perm.trans ?_ hperm.symm).subperm.trans .cons_self
        simp only [known, StepList.push, filterMap_append, ← append_assoc]
        exact perm_append_comm
  · refine h.push rfl (forall_mem_cons.2 ⟨(h.loopAt_length s).trans hrole, hopened⟩) (by simp) ?_
    simp [known, openLoop, StepList.push, Subperm.refl]

theorem foldl_visit (h : l.Linked xs) (body : List Statement) :
    (body.foldl StepList.visit l).Linked (xs ++ shown body) := by
  induction body generalizing l xs with
  | nil => simpa [shown] using h
  | cons s rest ih =>
    by_cases hs : s.kind = .comment
    · rw [foldl_cons, show l.visit s = _ from visit_of ⟨s, rfl⟩, if_pos hs]
      simpa [shown, hs] using ih h
    · simpa [shown, hs] using ih (h.visit hs)

theorem start : Linked {} [] where
  labels := rfl
  opened := by simp
  back := by
    intro j k hj
    obtain h | ⟨-, h⟩ := @backAt_concat j k [] _ hj <;> cases h
  apart := nil_subperm

end Linked

end Flow.StepList

/-! ### Nested bodies -/

namespace Body

open StepList

/-- Some steps and those of a nested body after them. The last step of a loop
leads back to the position of its first one. -/
def listed (steps : List Step) : Body → List Step
  | .nil => steps
  | .comment _ rest => rest.listed steps
  | .plain s rest => rest.listed (steps ++ [⟨s.1.stepLabel, none⟩])
  | .pretest _ head body tail rest | .posttest head body tail rest =>
    rest.listed (body.listed (steps ++ [⟨head.1.stepLabel, none⟩]) ++
      [⟨tail.1.stepLabel, some steps.length⟩])
  | .choice head mark yes tail rest =>
    let entered := steps ++ (head.1 :: markStatements mark).map (⟨·.stepLabel, none⟩)
    rest.listed (yes.listed entered ++ [⟨tail.1.stepLabel, none⟩])
  | .choiceElse head mark yes middle no tail rest =>
    let entered := steps ++ (head.1 :: markStatements mark).map (⟨·.stepLabel, none⟩)
    rest.listed (no.listed (yes.listed entered ++ [⟨middle.1.stepLabel, none⟩]) ++
      [⟨tail.1.stepLabel, none⟩])

theorem foldl_visit_statements (b : Body) (l : StepList) :
    b.statements.foldl StepList.visit l = ⟨b.listed l.steps, l.loops⟩ := by
  induction b generalizing l with
  | nil => rfl
  | comment => simp [statements, listed, visit_of, *]
  | plain s rest ih =>
    obtain ⟨s, hs⟩ := s
    have hrole : s.kind ≠ .comment ∧ s.kind.loop? = none := by
      revert hs
      cases s.kind <;> simp [Kind.isPlain, Kind.loop?]
    have hvisit := visit_of (l := l) ⟨s, rfl⟩
    rw [if_neg hrole.1, hrole.2] at hvisit
    rw [statements, foldl_cons, hvisit, ih]
    rfl
  | pretest counted =>
    cases counted <;>
      simp [statements, listed, visit_of, openLoop, closeLoop, push, Kind.pretestHead,
        Kind.pretestTail, Kind.loop?, *]
  | posttest => simp [statements, listed, visit_of, openLoop, closeLoop, push, Kind.loop?, *]
  | choice _ mark | choiceElse _ mark =>
    cases mark <;> simp [statements, markStatements, listed, visit_of, push, Kind.loop?, *]

end Body

/-- The steps of a body are those of its statements without the comments,
between a first and a last one. Only a statement that closes a loop leads
back, to the earlier step of one that opens a loop of its sort, and no two to
the same. In a nested body each of them leads back to its own. -/
theorem stepsOfBody_loops (body : List Statement) :
    (stepsOfBody body).map Step.label =
      ("Inicio" : Text) :: (shown body).map Statement.stepLabel ++ [("Fin" : Text)] ∧
    (∀ j k, backAt (stepsOfBody body) j = some k → k < j ∧ ∃ sort,
      loopAt (shown body) k = some (sort, true) ∧ loopAt (shown body) j = some (sort, false)) ∧
    ((stepsOfBody body).filterMap Step.backTo).Nodup ∧
    ∀ b : Body, stepsOfBody b.statements = b.listed [⟨"Inicio", none⟩] ++ [⟨"Fin", none⟩] := by
  have hlinked := StepList.Linked.start.foldl_visit body
  have hsteps (xs : List Statement) :
      stepsOfBody xs = (xs.foldl StepList.visit {}).steps ++ [⟨"Fin", none⟩] := rfl
  refine ⟨?_, fun j k h => ?_, ?_, ?_⟩
  · rw [hsteps, map_append, hlinked.labels]
    rfl
  · -- The last step leads nowhere.
    obtain h | ⟨-, h⟩ := backAt_concat (hsteps body ▸ h)
    · exact hlinked.back j k h
    · cases h
  · rw [hsteps, filterMap_append]
    obtain ⟨ks, hperm, hsub⟩ := hlinked.apart
    have hnodup := hperm.nodup_iff.1 (nodup_range.sublist hsub)
    simpa using (nodup_append.1 hnodup).2.1
  · intro b
    rw [hsteps, b.foldl_visit_statements]

end Pseudocode
