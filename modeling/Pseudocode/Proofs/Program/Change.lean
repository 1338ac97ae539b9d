import Pseudocode.Proofs.Program.Step

/-!
# What a line can change

Whatever a line says, it changes three things of the pass, each in one small
way. It adds findings on itself, it opens a block or drops open ones, and it
adds to the program: a statement to the body of the last function, a
statement to the main body, or a new function. What such changes keep holds
of the program of every text, an erroneous one included.

* `Scan.Turned`: a state after findings and blocks alone. One lemma for each
  operation of the pass gives the change from there.
* `Scan.Places`, `Scan.Changes`: the ways to add to a program, and the whole
  change. `Scan.changes_statement` says that there are no others.
* `Scan.foldlM_line_induct`: induction over the lines of a text.
-/

namespace Pseudocode

open Text List

/-- A finding on a line, on its indentation or on the whole of it. -/
inductive SourceLine.Finds (l : SourceLine) (d : Diagnostic) : Prop
  | indent (hcode : d.code = .tabIndent ∨ d.code = .badIndent) (hspan : d.span = l.leadingSpan)
  | whole (hcode : d.code ∉ [DiagnosticCode.missingMain, .tabIndent, .badIndent])
      (hspan : d.span = l.span)

namespace Scan

/-- What the statement of a line adds to the functions and the main body. -/
inductive Places (stmt : Statement) (s s' : Scan) : Prop
  | nowhere (hfunctions : s'.functions = s.functions) (hmain : s'.main = s.main)
  | inFunction (hfunctions : s'.functions = intoLast stmt s.functions) (hmain : s'.main = s.main)
  | inMain (hfunctions : s'.functions = s.functions) (hmain : s'.main = s.main ++ [stmt])
  | header {name : Text} {params : List Text} (hform : stmt.form = .function name params)
      (hfunctions : s'.functions = s.functions ++ [⟨name, params, stmt.line, []⟩])
      (hmain : s'.main = s.main)

structure Changes (l : SourceLine) (stmt : Statement) (s s' : Scan) : Prop where
  found : ∃ ds, s'.diagnostics = s.diagnostics ++ ds ∧ ∀ d ∈ ds, l.Finds d
  stack : ∀ f ∈ s'.stack, f ∈ s.stack ∨ f.line = l
  places : Places stmt s s'

/-- A change that adds nothing to the program. -/
structure Turned (l : SourceLine) (s s' : Scan) : Prop where
  found : ∃ ds, s'.diagnostics = s.diagnostics ++ ds ∧ ∀ d ∈ ds, l.Finds d
  stack : ∀ f ∈ s'.stack, f ∈ s.stack ∨ f.line = l
  functions : s'.functions = s.functions
  main : s'.main = s.main

namespace Turned

variable {l : SourceLine} {base s : Scan}

theorem refl : Turned l s s :=
  ⟨⟨[], by simp, forall_mem_nil _⟩, fun _ => .inl, rfl, rfl⟩

variable (h : Turned l base s) (stmt : Statement)
include h

theorem changes : Changes l stmt base s :=
  ⟨h.found, h.stack, .nowhere h.functions h.main⟩

theorem report {code : DiagnosticCode} {span : Span} {message : Text}
    (hd : l.Finds (Diagnostic.of code span message)) :
    Turned l base (s.report code span message) := by
  obtain ⟨ds, hds, hfinds⟩ := h.found
  refine { h with found := ⟨ds ++ [Diagnostic.of code span message], ?_, ?_⟩ }
  · rw [← append_assoc, ← hds]
    rfl
  · exact forall_mem_concat hfinds hd

theorem reportLine {code : DiagnosticCode}
    (hcode : code ∉ [DiagnosticCode.missingMain, .tabIndent, .badIndent]) {message : Text} :
    Turned l base (s.report code l.span message) :=
  h.report (.whole hcode rfl)

theorem tail : Turned l base { s with stack := s.stack.tail } :=
  { h with stack := fun f hf => h.stack f (mem_of_mem_tail hf) }

theorem append : Changes l stmt base (s.append stmt) := by
  unfold Scan.append
  split
  · exact ⟨h.found, h.stack, .inFunction (congrArg (intoLast stmt) h.functions) h.main⟩
  · split
    · exact ⟨h.found, h.stack, .inMain h.functions (congrArg (· ++ [stmt]) h.main)⟩
    · exact ⟨h.found, h.stack, .nowhere h.functions h.main⟩

theorem checks (width : Int) (kind : Kind) (form : Form) :
    Turned l base (((s.checkTabs l).checkSpaces width l kind).reportForm l form) := by
  have htabs : Turned l base (s.checkTabs l) := by
    unfold checkTabs
    split
    · exact h.report (.indent (.inl rfl) rfl)
    · exact h
  have hspaces : Turned l base ((s.checkTabs l).checkSpaces width l kind) := by
    unfold checkSpaces
    dsimp only
    split
    · exact htabs
    · exact htabs.report (.indent (.inr rfl) rfl)
  cases form with
  | unrecognized => exact hspaces.reportLine (by decide)
  | legacyArray => exact (hspaces.reportLine (by decide)).reportLine (by decide)
  | _ => exact hspaces

theorem openBlock (block : Block) (hline : stmt.line = l.number) :
    Changes l stmt base (s.openBlock block l stmt) := by
  have hopen : Turned l base { s with level := s.level + 1, stack := ⟨block, l⟩ :: s.stack } :=
    { h with stack := forall_mem_cons.mpr ⟨.inr rfl, h.stack⟩ }
  unfold Scan.openBlock
  split
  · refine changes ?_ stmt
    exact { hopen.reportLine (by decide) with }
  · next hform =>
    refine ⟨h.found, hopen.stack, .header hform ?_ h.main⟩
    rw [hline, ← h.functions]
  · refine changes ?_ stmt
    exact { hopen with }
  · exact hopen.append stmt

theorem closeBlock (wanted : Block) : Changes l stmt base (s.closeBlock wanted l stmt) := by
  unfold Scan.closeBlock
  dsimp only
  split
  · refine append ?_ stmt
    exact { h.tail with }
  · exact (h.tail.reportLine (by decide)).changes stmt

theorem switchBranch : Changes l stmt base (s.switchBranch l stmt) := by
  unfold Scan.switchBranch
  split
  · refine append ?_ stmt
    exact { h with }
  · exact (h.reportLine (by decide)).changes stmt

theorem closeScope : Turned l base (s.closeScope l) := by
  unfold Scan.closeScope
  split
  · exact h.reportLine (by decide)
  · next frame rest hstack =>
    have htail : Turned l base { s with stack := rest } := by
      have htail := h.tail
      rwa [hstack] at htail
    split
    · exact { htail with }
    · exact { htail with }
    · exact htail.reportLine (by decide)

theorem place (hline : stmt.line = l.number) : Changes l stmt base (s.place l stmt) := by
  unfold Scan.place
  split
  · split
    · refine changes ?_ stmt
      exact { h with }
    · exact h.changes stmt
  · exact h.closeScope.changes stmt
  · exact h.switchBranch stmt
  · exact h.switchBranch stmt
  · split
    · exact h.openBlock stmt _ hline
    · exact h.closeBlock stmt _
    · exact h.append stmt

end Turned

variable {width : Int} {l : SourceLine} {s s' : Scan}

theorem changes_statement (s : Scan) {stmt : Statement} (hline : stmt.line = l.number) :
    Changes l stmt s (s.statement width l stmt) := by
  unfold statement
  split
  · exact Turned.refl.append stmt
  · refine (Turned.checks ?_ width _ _).place stmt hline
    split
    · exact { Turned.refl with }
    · exact Turned.refl

/-- Induction over lines: `P` speaks of the lines that are left and the state
before them. -/
theorem foldlM_line_induct {P : List SourceLine → Scan → Prop} {lines : List SourceLine}
    (hskip : ∀ l rest s, P (l :: rest) s → P rest s)
    (hstep : ∀ l ∈ lines, ∀ rest form s s', Statement.classify (trim l.text) = .ok form →
      Changes l ⟨trim l.text, l.number, form⟩ s s' → P (l :: rest) s → P rest s')
    (h : lines.foldlM (line width) s = .ok s') (hs : P lines s) : P [] s' := by
  induction lines generalizing s with
  | nil =>
    cases h
    exact hs
  | cons l rest ih =>
    obtain ⟨hl, hrest⟩ := forall_mem_cons.mp hstep
    obtain ⟨middle, hmiddle, h⟩ := exists_of_bind_eq_ok h
    refine ih hrest h ?_
    obtain ⟨-, rfl⟩ | ⟨-, form, hform, rfl⟩ := line_cases hmiddle
    · exact hskip l rest middle hs
    · exact hl rest form s _ hform (changes_statement s rfl) hs

end Scan

end Pseudocode
