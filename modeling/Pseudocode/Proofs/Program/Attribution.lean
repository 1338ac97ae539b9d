import Pseudocode.Proofs.Program.Numbering

/-!
# Which body a line goes into

The pass keeps two flags, one for functions and one for the main section,
and not the scope of every line. A line goes into the function opened last
while the first flag is set, else into the main body while the second one
is. This module says which of the open scopes that is.

`scopesAfter` finds the open scopes from the kinds of the lines alone. A
function goes before the main section, so inside a function `inicio` opens
a block that takes no lines. A flag only tells the innermost scope of its
kind: once that scope has ended, the flag is down, also inside an outer
scope of the kind. Such an outer scope is marked as not `whole`.

* `Scan.Agrees`: the flags are those of the open scopes. A clean step keeps
  it (`Agrees.step`), so a clean run does (`CleanRun.agrees`).
* `Program.Holds`: a statement is in the body of a scope. No line takes it
  away again (`CleanRun.holds`).
-/

namespace Pseudocode

open Text List Statement Program

/-! ### Open scopes -/

structure OpenScope where
  block : Block
  /-- The number of the line that opened it. -/
  line : Nat
  /-- No scope of its kind has ended inside it. -/
  whole : Bool
deriving DecidableEq, Repr

variable {o : OpenScope} {s s' : Scan} {scopes : List OpenScope} {stmt : Statement}

namespace OpenScope

def around (ended : Block) (o : OpenScope) : OpenScope :=
  if o.block = ended then { o with whole := false } else o

@[simp] theorem block_around (ended : Block) (o : OpenScope) :
    (o.around ended).block = o.block := by
  unfold around
  split <;> rfl

theorem around_of_ne {ended : Block} (h : o.block ≠ ended) :
    o.around ended = o := if_neg h

/-- The open scopes after a line of a kind, innermost first. -/
def after (scopes : List OpenScope) (number : Nat) (k : Kind) : List OpenScope :=
  if k = .endScope then
    match scopes with
    | [] => []
    | ended :: outer => outer.map (around ended.block)
  else match k.opens?.filter Block.isScope with
    | some block => ⟨block, number, true⟩ :: scopes
    | none => scopes

def inner? (scopes : List OpenScope) (block : Block) : Option OpenScope :=
  scopes.find? (·.block = block)

/-- The scope whose body a line belongs to: the innermost open function,
or else the innermost open main section. -/
def host? (scopes : List OpenScope) : Option OpenScope :=
  (inner? scopes .function).or (inner? scopes .main)

theorem block_of_inner? {block : Block} (h : inner? scopes block = some o) : o.block = block := by
  simpa using find?_some h

@[simp] theorem inner?_cons (scopes : List OpenScope) (o : OpenScope) (block : Block) :
    inner? (o :: scopes) block = if o.block = block then some o else inner? scopes block := by
  by_cases h : o.block = block <;> simp [inner?, h]

theorem inner?_around (scopes : List OpenScope) (ended block : Block) :
    inner? (scopes.map (around ended)) block = (inner? scopes block).map (around ended) := by
  unfold inner?
  rw [find?_map]
  congr 2
  funext o
  simp

theorem inner?_around_of_ne (scopes : List OpenScope) {ended block : Block} (h : block ≠ ended) :
    inner? (scopes.map (around ended)) block = inner? scopes block := by
  rw [inner?_around]
  cases hinner : inner? scopes block with
  | none => rfl
  | some =>
    have hblock := block_of_inner? hinner
    rw [Option.map_some, around_of_ne (hblock ▸ h)]

theorem not_whole_around (scopes : List OpenScope) (ended : Block) :
    (inner? (scopes.map (around ended)) ended).any whole = false := by
  rw [inner?_around]
  cases hinner : inner? scopes ended with
  | none => rfl
  | some => simp [around, block_of_inner? hinner]

theorem after_of_turn {number : Nat} {k : Kind}
    {stack stack' : List Block} (h : k.turn stack = some stack') :
    after scopes number k = scopes := by
  obtain ⟨hk, -⟩ | ⟨hk, -, -⟩ | ⟨block, hopens, hscope, -⟩ | ⟨block, hcloses, -⟩ :=
    Kind.turn_cases h
  · rcases hk with hk | rfl
    · cases k <;> first | rfl | exact absurd hk (by decide)
    · rfl
  · cases k <;> first | rfl | exact absurd hk (by decide)
  · have hend : k ≠ .endScope := by
      rintro rfl
      cases hopens
    simp [after, hend, hopens, Option.filter, hscope]
  · cases k <;> first | rfl | cases hcloses

end OpenScope

/-- The open scopes after some lines, innermost first. -/
def scopesAfter (lines : List SourceLine) (scopes : List OpenScope) : List OpenScope :=
  lines.foldl (fun scopes l => (l.kind?.map (OpenScope.after scopes l.number)).getD scopes) scopes

theorem filter_isScope_of_turn {k : Kind} {stack stack' : List Block}
    (h : k.turn stack = some stack') :
    stack'.filter Block.isScope = stack.filter Block.isScope := by
  obtain ⟨-, rfl⟩ | ⟨-, -, rfl⟩ | ⟨block, -, hscope, rfl⟩ | ⟨block, hcloses, rfl⟩ :=
    Kind.turn_cases h
  · rfl
  · rfl
  · exact filter_cons_of_neg (by simp [hscope])
  · -- What closes a block inside a scope closes no scope.
    have hscope : block.isScope = false := by
      cases k <;> cases hcloses <;> rfl
    exact (filter_cons_of_neg (by simp [hscope])).symm

/-! ### The flags of the pass -/

namespace Scan

/-- The flags of a pass are those of the open scopes: a flag is set if the
innermost scope of its kind is whole, and then the function opened last is
the innermost one. -/
structure Agrees (scopes : List OpenScope) (s : Scan) : Prop where
  blocks : scopes.map OpenScope.block = s.blocks.filter Block.isScope
  inFunction : s.inFunction = (OpenScope.inner? scopes .function).any OpenScope.whole
  inMain : s.inMain = (OpenScope.inner? scopes .main).any OpenScope.whole
  last : ∀ o, OpenScope.inner? scopes .function = some o → o.whole = true →
    (s.functions.map Function.headerLine).getLast? = some o.line

theorem headerLine_intoLast (stmt : Statement) (fs : List Function) :
    (intoLast stmt fs).map Function.headerLine = fs.map Function.headerLine := by
  rcases fs.eq_nil_or_concat with rfl | ⟨front, last, rfl⟩
  · rfl
  · rw [concat_eq_append, intoLast_append]
    simp

theorem append_scopes (s : Scan) (stmt : Statement) :
    (s.append stmt).inFunction = s.inFunction ∧ (s.append stmt).inMain = s.inMain ∧
      (s.append stmt).functions.map Function.headerLine =
        s.functions.map Function.headerLine := by
  unfold append
  split
  · exact ⟨rfl, rfl, headerLine_intoLast stmt s.functions⟩
  · split <;> exact ⟨rfl, rfl, rfl⟩

theorem Agrees.exists_cons {block : Block}
    {opener : SourceLine} {stack : List Frame} (h : Agrees scopes s)
    (hs : s.stack = ⟨block, opener⟩ :: stack) (hblock : block.isScope = true) :
    ∃ ended outer, scopes = ended :: outer ∧ ended.block = block ∧
      outer.map OpenScope.block = (stack.map Frame.block).filter Block.isScope := by
  have hblocks := h.blocks
  rw [Scan.blocks, hs, map_cons, filter_cons_of_pos hblock] at hblocks
  exact map_eq_cons_iff.mp hblocks

theorem Agrees.step {l : SourceLine} (h : Agrees scopes s) (hstep : CleanStep s l stmt s') :
    Agrees (OpenScope.after scopes l.number stmt.kind) s' := by
  cases hstep with
  | inside level stack hturn =>
    obtain ⟨hfunction, hmain, hheaders⟩ := append_scopes s stmt
    rw [OpenScope.after_of_turn hturn]
    refine ⟨?_, hfunction.trans h.inFunction, hmain.trans h.inMain, ?_⟩
    · exact h.blocks.trans (filter_isScope_of_turn hturn).symm
    · intro o ho hwhole
      show ((s.append stmt).functions.map Function.headerLine).getLast? = _
      rw [hheaders]
      exact h.last o ho hwhole
  | program name hk =>
    rw [hk]
    exact { h with }
  | function level name params hk =>
    rw [hk]
    refine ⟨?_, rfl, h.inMain, ?_⟩
    · exact congrArg (Block.function :: ·) h.blocks
    · rintro o ho -
      cases ho
      simp
  | main level hk =>
    rw [hk]
    exact ⟨congrArg (Block.main :: ·) h.blocks, h.inFunction, rfl, h.last⟩
  | endFunction level opener stack hs hk =>
    obtain ⟨ended, outer, rfl, hended, hblocks⟩ := h.exists_cons hs rfl
    have hafter : OpenScope.after (ended :: outer) l.number stmt.kind =
        outer.map (OpenScope.around .function) := by
      rw [hk, ← hended]
      rfl
    have hdown := OpenScope.not_whole_around outer .function
    rw [hafter]
    refine ⟨?_, hdown.symm, ?_, ?_⟩
    · rw [map_map]
      exact (map_congr_left fun o _ => OpenScope.block_around _ o).trans hblocks
    · rw [OpenScope.inner?_around_of_ne outer (by decide)]
      simpa [hended] using h.inMain
    · intro o ho hwhole
      rw [ho, Option.any_some, hwhole] at hdown
      cases hdown
  | endMain level opener stack hs hk =>
    obtain ⟨ended, outer, rfl, hended, hblocks⟩ := h.exists_cons hs rfl
    have hafter : OpenScope.after (ended :: outer) l.number stmt.kind =
        outer.map (OpenScope.around .main) := by
      rw [hk, ← hended]
      rfl
    have hsame : OpenScope.inner? (outer.map (OpenScope.around .main)) .function =
        OpenScope.inner? outer .function := OpenScope.inner?_around_of_ne outer (by decide)
    rw [hafter]
    refine ⟨?_, ?_, (OpenScope.not_whole_around outer .main).symm, ?_⟩
    · rw [map_map]
      exact (map_congr_left fun o _ => OpenScope.block_around _ o).trans hblocks
    · rw [hsame]
      simpa [hended] using h.inFunction
    · intro o ho hwhole
      rw [hsame] at ho
      exact h.last o (by simpa [hended] using ho) hwhole

theorem CleanRun.agrees {lines : List SourceLine} (h : CleanRun s lines s')
    (hs : Agrees scopes s) : Agrees (scopesAfter lines scopes) s' := by
  induction h generalizing scopes with
  | nil => exact hs
  | blank hkind _ ih =>
    rw [scopesAfter, foldl_cons, hkind]
    exact ih hs
  | step _ hkind hstep _ ih =>
    rw [scopesAfter, foldl_cons, hkind]
    exact ih (hs.step hstep)

theorem CleanRun.append {before after : List SourceLine} (h : CleanRun s (before ++ after) s') :
    ∃ middle, CleanRun s before middle ∧ CleanRun middle after s' := by
  induction before generalizing s with
  | nil => exact ⟨s, .nil s, h⟩
  | cons l rest ih =>
    cases h with
    | blank hkind hrest =>
      obtain ⟨middle, hbefore, hafter⟩ := ih hrest
      exact ⟨middle, .blank hkind hbefore, hafter⟩
    | step hform hkind hstep hrest =>
      obtain ⟨middle, hbefore, hafter⟩ := ih hrest
      exact ⟨middle, .step hform hkind hstep hbefore, hafter⟩

end Scan

/-! ### Bodies only grow -/

def Program.Holds (p : Program) (o : OpenScope) (stmt : Statement) : Prop :=
  match o.block with
  | .function => ∃ f ∈ p.functions, f.headerLine = o.line ∧ stmt ∈ f.body
  | _ => stmt ∈ p.main

instance (p : Program) (o : OpenScope) (stmt : Statement) : Decidable (p.Holds o stmt) := by
  unfold Program.Holds
  split <;> infer_instance

namespace Scan

theorem exists_mem_intoLast (stmt : Statement) {fs : List Function} {f : Function} (h : f ∈ fs) :
    ∃ g ∈ intoLast stmt fs, g.headerLine = f.headerLine ∧ f.body ⊆ g.body := by
  rcases fs.eq_nil_or_concat with rfl | ⟨front, last, rfl⟩
  · cases h
  · rw [concat_eq_append] at h ⊢
    rw [intoLast_append]
    rcases mem_append.mp h with h | h
    · exact ⟨f, mem_append_left _ h, rfl, Subset.refl _⟩
    · obtain rfl := mem_singleton.mp h
      exact ⟨_, mem_append_right _ (mem_singleton_self _), rfl, subset_append_left _ _⟩

theorem holds_append (new : Statement)
    (h : s.program.Holds o stmt) : (s.append new).program.Holds o stmt := by
  unfold append
  split
  · unfold Holds at h ⊢
    split at h
    · obtain ⟨f, hf, hheader, hmem⟩ := h
      obtain ⟨g, hg, hsame, hbody⟩ := exists_mem_intoLast new hf
      exact ⟨g, hg, hsame.trans hheader, hbody hmem⟩
    · exact h
  · split
    · unfold Holds at h ⊢
      split at h
      · exact h
      · exact mem_append_left _ h
    · exact h

theorem CleanStep.holds {l : SourceLine} {new : Statement} (hstep : CleanStep s l new s')
    (h : s.program.Holds o stmt) : s'.program.Holds o stmt := by
  cases hstep with
  | inside => exact holds_append new h
  | function =>
    unfold Holds at h ⊢
    split at h
    · obtain ⟨f, hf, hmem⟩ := h
      exact ⟨f, mem_append_left _ hf, hmem⟩
    · exact h
  | program | main | endFunction | endMain => exact h

theorem CleanRun.holds {lines : List SourceLine} (hrun : CleanRun s lines s')
    (h : s.program.Holds o stmt) : s'.program.Holds o stmt := by
  induction hrun with
  | nil => exact h
  | blank _ _ ih => exact ih h
  | step _ _ hstep _ ih => exact ih (hstep.holds h)

theorem Agrees.holds
    (h : Agrees scopes s) (ho : OpenScope.host? scopes = some o) (hwhole : o.whole = true) :
    (s.append stmt).program.Holds o stmt := by
  unfold OpenScope.host? at ho
  cases hinner : OpenScope.inner? scopes .function with
  | some o' =>
    obtain rfl : o' = o := by simpa [hinner] using ho
    have hflag : s.inFunction = true := by
      rw [h.inFunction, hinner]
      exact hwhole
    have hlast := h.last o' hinner hwhole
    rcases s.functions.eq_nil_or_concat with hnil | ⟨fs, f, hfs⟩
    · rw [hnil] at hlast
      cases hlast
    · rw [concat_eq_append] at hfs
      have hstored := foldl_append_function s [stmt] hflag hfs
      rw [foldl_cons, foldl_nil] at hstored
      rw [hfs, map_append, map_singleton, getLast?_concat] at hlast
      rw [hstored, Holds, OpenScope.block_of_inner? hinner]
      exact ⟨_, mem_append_right _ (mem_singleton_self _), Option.some.inj hlast, by simp⟩
  | none =>
    have hmain : OpenScope.inner? scopes .main = some o := by simpa [hinner] using ho
    have hfunction : s.inFunction = false := by
      rw [h.inFunction, hinner]
      rfl
    have hflag : s.inMain = true := by
      rw [h.inMain, hmain]
      exact hwhole
    have hstored := foldl_append_main s [stmt] hfunction hflag
    rw [foldl_cons, foldl_nil] at hstored
    rw [hstored, Holds, OpenScope.block_of_inner? hmain]
    exact mem_append_right _ (mem_singleton_self _)

end Scan

/-! ### Lines of a text -/

/-- A line of the kind is a statement of a body, and not one around
bodies. -/
def Kind.isStored (k : Kind) : Bool :=
  k ≠ .program && k ≠ .function && k ≠ .main && k ≠ .endScope

def Program.atLine (p : Program) (number : Nat) : List Statement :=
  (p.scopes.flatMap Prod.snd).filter (·.line = number)

theorem Program.Holds.atLine {p : Program}
    (hnodup : (p.functions.flatMap Function.lines ++ p.main.map line).Nodup)
    (h : p.Holds o stmt) : p.atLine stmt.line = [stmt] := by
  have hbodies : (p.scopes.flatMap Prod.snd).map line =
      p.main.map line ++
        p.functions.flatMap fun f => f.body.map line := by
    simp [scopes, map_flatMap, flatMap_map]
  have hsub : (p.functions.flatMap fun f => f.body.map line).Sublist
      (p.functions.flatMap Function.lines) := by
    generalize p.functions = fs
    induction fs with
    | nil => exact Sublist.refl _
    | cons f rest ih => exact ((sublist_cons_self _ _).append ih)
  -- The bodies are among the lines of the program, which are numbered differently.
  have hlines : ((p.scopes.flatMap Prod.snd).map line).Nodup := by
    rw [hbodies]
    exact perm_append_comm.nodup_iff.mp ((hsub.append (Sublist.refl _)).nodup hnodup)
  have hmem : stmt ∈ p.scopes.flatMap Prod.snd := by
    unfold Holds at h
    split at h
    · obtain ⟨f, hf, -, hbody⟩ := h
      exact mem_flatMap.mpr ⟨(f.scopeName, f.body), mem_cons_of_mem _ (mem_map_of_mem hf), hbody⟩
    · exact mem_flatMap.mpr ⟨(mainScope, p.main), mem_cons_self, h⟩
  exact filter_eq_singleton hlines hmem fun _ _ => decide_eq_true_iff

/-- A text without findings keeps every line that stands inside an open
scope, other than `programa`, a function header, `inicio` and `fin`: it is
kept once, as its trimmed text with its form, in the body of the innermost
open function, or of the innermost open main section if no function is
open. What is said of a scope ends where a scope of its own kind ends
inside it. -/
theorem Program.attributed_of_parse_clean {settings : Settings} {t : Text} {parsed : Parsed}
    (h : Program.parse settings t = .ok parsed) (hd : parsed.diagnostics = [])
    {before after : List SourceLine} {l : SourceLine} {k : Kind} {o : OpenScope}
    (hsplit : SourceLine.ofText t = before ++ l :: after) (hk : l.kind? = some k)
    (hstored : k.isStored = true) (ho : OpenScope.host? (scopesAfter before []) = some o)
    (hwhole : o.whole = true) :
    ∃ stmt : Statement, stmt.text = trim l.text ∧ stmt.line = l.number ∧
      Statement.classify (trim l.text) = .ok stmt.form ∧
      parsed.program.Holds o stmt ∧ parsed.program.atLine l.number = [stmt] := by
  obtain ⟨s, hrun, -, hprogram⟩ := cleanRun_of_parse h hd
  rw [hsplit] at hrun
  obtain ⟨s₁, hbefore, hrest⟩ := hrun.append
  have hagrees : Scan.Agrees (scopesAfter before []) s₁ :=
    hbefore.agrees ⟨rfl, rfl, rfl, nofun⟩
  cases hrest with
  | blank hkind =>
    rw [hk] at hkind
    cases hkind
  | @step _ s₂ _ _ _ form hform hkind hstep hafter =>
    obtain rfl : k = form.kind := Option.some.inj (hk.symm.trans hkind)
    have hplaced : s₂.program.Holds o ⟨trim l.text, l.number, form⟩ := by
      cases hstep with
      | inside => exact hagrees.holds ho hwhole
      | program _ hform | function _ _ _ hform | main _ hform | endFunction _ _ _ _ hform
      | endMain _ _ _ _ hform =>
        simp [show form.kind = _ from hform, Kind.isStored] at hstored
    have hholds : parsed.program.Holds o ⟨trim l.text, l.number, form⟩ := by
      rw [hprogram]
      exact hafter.holds hplaced
    exact ⟨_, rfl, rfl, hform, hholds, hholds.atLine (nodup_lines h)⟩

/-- A main section with a function inside a loop of it. -/
def functionInMain : Text :=
  "inicio\n  mientras(x)\n    funcion g(n)\n      escribir n\n    fin\n    g(3)\n" ++
    "  finmientras\nfin"

/-- The call after the inner function is a line of the main section. -/
theorem Program.attributed_of_parse_clean_sample :
    ∃ parsed before l after, Program.parse {} functionInMain = .ok parsed ∧
      SourceLine.ofText functionInMain = before ++ l :: after ∧ before.length = 5 ∧
      OpenScope.host? (scopesAfter before []) = some ⟨.main, 1, true⟩ ∧
      ∃ stmt : Statement, stmt.text = trim l.text ∧ stmt.line = l.number ∧
        Statement.classify (trim l.text) = .ok stmt.form ∧
        parsed.program.Holds ⟨.main, 1, true⟩ stmt ∧
        parsed.program.atLine l.number = [stmt] := by
  obtain ⟨parsed, hparse, hd⟩ : ∃ parsed, Program.parse {} functionInMain = .ok parsed ∧
      parsed.diagnostics = [] := exists_parse (by decide +kernel)
  have hhost : OpenScope.host? (scopesAfter ((SourceLine.ofText functionInMain).take 5) []) =
      some ⟨.main, 1, true⟩ := by decide +kernel
  have hkind : ((SourceLine.ofText functionInMain)[5]?.bind SourceLine.kind?) = some .call := by
    decide +kernel
  cases hl : (SourceLine.ofText functionInMain)[5]? with
  | none =>
    rw [hl] at hkind
    cases hkind
  | some l =>
    rw [hl, Option.bind_some] at hkind
    obtain ⟨hlt, hget⟩ := List.getElem?_eq_some_iff.mp hl
    have hsplit : SourceLine.ofText functionInMain =
        (SourceLine.ofText functionInMain).take 5 ++
          l :: (SourceLine.ofText functionInMain).drop 6 := by
      rw [← hget, ← drop_eq_getElem_cons hlt, take_append_drop]
    exact ⟨parsed, _, l, _, hparse, hsplit, by decide +kernel, hhost,
      attributed_of_parse_clean hparse hd hsplit hkind rfl hhost rfl⟩

def mainInFunction : Text :=
  "funcion f()\n  inicio\n    escribir 1\n  fin\nfin"

/-- A function inside another one, which goes on after it. -/
def functionInFunction : Text :=
  "funcion f()\n  funcion g()\n  fin\n  escribir 1\nfin\ninicio\nfin"

/-- Texts without findings with a line that is not in the body of its
innermost open scope: in the first one it is in the function around the
main section, in the second one it is nowhere. -/
theorem Program.clean_line_elsewhere :
    (∃ parsed, Program.parse {} mainInFunction = .ok parsed ∧ parsed.diagnostics = [] ∧
      (scopesAfter ((SourceLine.ofText mainInFunction).take 2) []).head? =
        some ⟨.main, 2, true⟩ ∧
      parsed.program.main = [] ∧ (parsed.program.atLine 3).length = 1) ∧
    (∃ parsed, Program.parse {} functionInFunction = .ok parsed ∧ parsed.diagnostics = [] ∧
      (scopesAfter ((SourceLine.ofText functionInFunction).take 3) []).head? =
        some ⟨.function, 1, false⟩ ∧
      parsed.program.atLine 4 = []) :=
  ⟨exists_parse (by decide +kernel), exists_parse (by decide +kernel)⟩

end Pseudocode
