import Mathlib.Data.List.Nodup
import Pseudocode.Listing
import Pseudocode.Proofs.Program.Numbering

/-!
# The lines of a listing and where they come from

A generated listing is written statement by statement. Every line keeps the
number of the statement it comes from, so the lines of one statement can be
told from all others as long as no two statements have one number.

* `Listing.coded`: the lines of a listing with their origins.
  `Listing.codesFrom` are those of one origin.
* `Listing.Extends`: some lines were added, all from the place the listing
  is at.
* `foldlM_view`, `exists_of_foldlM_mem`: what a pass over elements with lines
  of their own does to the view of one line, it does at one element.
* `exists_written`: a pass over a program, function by function and then the
  main body, writes each statement once.
-/

namespace Pseudocode

open List

namespace Listing

variable {α : Type} {l l' l'' : Listing α Nat} {cs cs' : List α}

theorem emitAll_eq {β : Type} (l : Listing α β) (codes : List α) : l.emitAll codes =
    { l with lines := l.lines ++ (codes.map fun c => some ⟨c, l.level, l.origin⟩).toArray } := by
  induction codes generalizing l with
  | nil => simp [emitAll]
  | cons code rest ih =>
    refine (ih _).trans ?_
    simp [emit]

def coded (l : Listing α Nat) : List (Option Nat × α) :=
  l.lines.toList.filterMap fun line => line.map fun line => (line.origin, line.code)

def codesFrom (l : Listing α Nat) (n : Nat) : List α :=
  (l.coded.filter fun line => line.1 = some n).map Prod.snd

theorem coded_emit (l : Listing α Nat) (code : α) :
    (l.emit code).coded = l.coded ++ [(l.origin, code)] := by
  simp [coded, emit]

theorem coded_blank (l : Listing α Nat) : l.blank.coded = l.coded := by
  simp [coded, blank]

theorem codesFrom_blank (l : Listing α Nat) (n : Nat) : l.blank.codesFrom n = l.codesFrom n := by
  rw [codesFrom, coded_blank, codesFrom]

structure Extends (l : Listing α Nat) (cs : List α) (l' : Listing α Nat) : Prop where
  origin : l'.origin = l.origin
  kept : l.lines.toList <+: l'.lines.toList
  coded : l'.coded = l.coded ++ cs.map (l.origin, ·)

theorem Extends.refl (l : Listing α Nat) : l.Extends [] l :=
  ⟨rfl, prefix_refl _, (append_nil _).symm⟩

theorem Extends.trans (h : l.Extends cs l') (h' : l'.Extends cs' l'') :
    l.Extends (cs ++ cs') l'' := by
  refine ⟨h'.origin.trans h.origin, h.kept.trans h'.kept, ?_⟩
  rw [h'.coded, h.coded, h.origin, map_append, append_assoc]

theorem Extends.indent (h : l.Extends cs l') : l.Extends cs l'.indent :=
  { h with }

theorem Extends.dedent (h : l.Extends cs l') {minimum : Int} : l.Extends cs (l'.dedent minimum) :=
  { h with }

theorem extends_emit (l : Listing α Nat) (code : α) : l.Extends [code] (l.emit code) :=
  ⟨rfl, by simp [emit], coded_emit l code⟩

theorem extends_emitAll (l : Listing α Nat) (codes : List α) :
    l.Extends codes (l.emitAll codes) := by
  induction codes generalizing l with
  | nil => exact .refl l
  | cons code rest ih => exact (extends_emit l code).trans (ih (l.emit code))

theorem Extends.codesFrom (h : l.Extends cs l') (n : Nat) :
    l'.codesFrom n = l.codesFrom n ++ if l.origin = some n then cs else [] := by
  unfold Listing.codesFrom
  rw [h.coded, filter_append, map_append]
  congr 1
  split
  · next horigin =>
    rw [filter_eq_self.mpr (by simp [horigin]), map_map]
    exact map_id' _
  · next horigin =>
    rw [filter_eq_nil_iff.mpr (by simp [horigin])]
    rfl

theorem Extends.codesFrom_of_none (h : l.Extends cs l') (hl : l.origin = none) (n : Nat) :
    l'.codesFrom n = l.codesFrom n := by
  rw [h.codesFrom, hl, if_neg nofun, append_nil]

theorem Extends.blank (h : l.Extends cs l') : l.Extends cs l'.blank :=
  ⟨h.origin, h.kept.trans (by simp [Listing.blank]), (coded_blank l').trans h.coded⟩

end Listing

/-! ### Passes -/

section Passes

variable {σ ε γ α : Type}
variable {β : Type} {f : α → Except ε β}

theorem bind_eq_ok {x : Except ε α} {a : α} {b : β} (hx : x = .ok a)
    (hf : f a = .ok b) : x >>= f = .ok b := by
  rw [hx]
  exact hf

theorem exists_mem_of_mapM {xs : List α} {ys : List β} (h : xs.mapM f = .ok ys) {y : β}
    (hy : y ∈ ys) : ∃ x ∈ xs, f x = .ok y := by
  induction xs generalizing ys with
  | nil =>
    cases h
    cases hy
  | cons x xs ih =>
    rw [mapM_cons] at h
    obtain ⟨first, hfirst, h⟩ := exists_of_bind_eq_ok h
    obtain ⟨rest, hrest, rfl⟩ := exists_of_return_eq_ok h
    rcases mem_cons.mp hy with rfl | hy
    · exact ⟨x, mem_cons_self, hfirst⟩
    · obtain ⟨x', hx', hfound⟩ := ih hrest hy
      exact ⟨x', mem_cons_of_mem _ hx', hfound⟩

variable {step : σ → γ → Except ε σ} {view : σ → α} {lines : γ → List Nat} {n : Nat}

theorem foldlM_view (hstep : ∀ s x s', step s x = .ok s' → n ∉ lines x → view s' = view s)
    {xs : List γ} {s s' : σ} (hok : xs.foldlM step s = .ok s') (hxs : n ∉ xs.flatMap lines) :
    view s' = view s := by
  induction xs generalizing s with
  | nil =>
    cases hok
    rfl
  | cons x xs ih =>
    rw [flatMap_cons, mem_append, not_or] at hxs
    obtain ⟨middle, hmiddle, hok⟩ := exists_of_bind_eq_ok hok
    exact (ih hok hxs.2).trans (hstep _ _ _ hmiddle hxs.1)

theorem exists_of_foldlM_mem (hstep : ∀ s x s', step s x = .ok s' → n ∉ lines x → view s' = view s)
    {xs : List γ} {x : γ} {s s' : σ} (hok : xs.foldlM step s = .ok s')
    (hnodup : (xs.flatMap lines).Nodup) (hx : x ∈ xs) (hn : n ∈ lines x) :
    ∃ before after, step before x = .ok after ∧ view before = view s ∧ view s' = view after := by
  obtain ⟨front, back, rfl⟩ := append_of_mem hx
  rw [flatMap_append, flatMap_cons, nodup_append, nodup_append] at hnodup
  obtain ⟨-, ⟨-, -, hback⟩, hfront⟩ := hnodup
  rw [foldlM_append] at hok
  obtain ⟨before, hbefore, hok⟩ := exists_of_bind_eq_ok hok
  obtain ⟨after, hafter, hok⟩ := exists_of_bind_eq_ok hok
  refine ⟨before, after, hafter, foldlM_view hstep hbefore fun hmem => ?_,
    foldlM_view hstep hok fun hmem => hback n hn n hmem rfl⟩
  exact hfront n hmem n (mem_append_left _ hn) rfl

/-- What a pass over functions and the main body makes of one statement: the
routines of other functions and other bodies leave the view of its line alone,
and its own routine or body appends to it. -/
theorem exists_written (Ready : σ → Prop) {main : σ → Except ε σ} {function : γ → Function}
    {view : σ → List α} {Written : List α → Prop} {fs : List γ} {body : List Statement}
    {s : Statement} {start after last : σ}
    (hnodup : ((fs.map function).flatMap Function.lines ++ body.map Statement.line).Nodup)
    (hs : s ∈ (fs.map function).flatMap Function.body ++ body)
    (hother : ∀ l f l', step l f = .ok l' → s.line ∉ (function f).lines → view l' = view l)
    (hown : ∀ l f l', step l f = .ok l' → (function f).lines.Nodup → s ∈ (function f).body →
      ∃ cs, Written cs ∧ view l' = view l ++ cs) (hready : ∀ l f l', step l f = .ok l' → Ready l')
    (hmain : ∀ l l', main l = .ok l' → Ready l →
      (s.line ∉ body.map Statement.line → view l' = view l) ∧
      ((body.map Statement.line).Nodup → s ∈ body → ∃ cs, Written cs ∧ view l' = view l ++ cs))
    (hstart : Ready start) (hfunctions : fs.foldlM step start = .ok after)
    (hlast : main after = .ok last) : ∃ cs, Written cs ∧ view last = view start ++ cs := by
  obtain ⟨hnodupFunctions, hnodupBody, hapart⟩ := nodup_append.mp hnodup
  rw [flatMap_map] at hnodupFunctions
  have hafter : Ready after := by
    rcases fs.eq_nil_or_concat with rfl | ⟨front, f, rfl⟩
    · cases hfunctions
      exact hstart
    · rw [concat_eq_append, foldlM_append] at hfunctions
      obtain ⟨middle, -, hfunctions⟩ := exists_of_bind_eq_ok hfunctions
      obtain ⟨middle', hstep, rfl⟩ := exists_of_return_eq_ok hfunctions
      exact hready _ _ _ hstep
  obtain ⟨hmainOther, hmainOwn⟩ := hmain after last hlast hafter
  rcases mem_append.mp hs with hs | hs
  · obtain ⟨f', hf', hs⟩ := mem_flatMap.mp hs
    obtain ⟨f, hf, rfl⟩ := mem_map.mp hf'
    have hline : s.line ∈ (function f).lines := mem_cons_of_mem _ (mem_map_of_mem hs)
    obtain ⟨before, own, hstep, hbefore, hend⟩ :=
      exists_of_foldlM_mem hother hfunctions hnodupFunctions hf hline
    obtain ⟨cs, hwritten, hview⟩ :=
      hown _ _ _ hstep ((nodup_flatMap.mp hnodupFunctions).1 f hf) hs
    refine ⟨cs, hwritten, ?_⟩
    rw [hmainOther fun hmem => hapart _ (mem_flatMap_of_mem hf' hline) _ hmem rfl, hend, hview,
      hbefore]
  · obtain ⟨cs, hwritten, hview⟩ := hmainOwn hnodupBody hs
    refine ⟨cs, hwritten, ?_⟩
    rw [hview, foldlM_view hother hfunctions fun hmem => ?_]
    rw [← flatMap_map] at hmem
    exact hapart _ hmem _ (mem_map_of_mem hs) rfl

end Passes

end Pseudocode
