import Mathlib.Data.List.Perm.Subperm
import Pseudocode.Proofs.Program.Balance
import Pseudocode.Proofs.Program.Pointing

/-!
# A line is in one place of a program

Every line of a text is placed at most once: as the header of a function,
in the body of one, or in the main body, and always behind what was placed
there before. So a line number is enough to tell a statement of the main body
from everything in the functions.

* `Function.lines`, `Scan.placed`: the numbers of the lines that were
  placed so far.
* `Statement.ReadFrom`, `Function.ReadFrom`: a statement or a function is what
  its lines are read as.
* `Scan.Ordered`: what a program found so far has to do with the lines it was
  read from and those that are left. `Ordered.step` for a line and
  `Program.ordered_of_parse` for a text.
* `Program.lines_apart`: no line of a function is one of the main body.
-/

namespace Pseudocode

open Text List SourceLine
open scoped List

def Function.lines (f : Function) : List Nat :=
  f.headerLine :: f.body.map Statement.line

/-- The statement is what the line of its number is read as. -/
def Statement.ReadFrom (t : Text) (stmt : Statement) : Prop :=
  ∃ n line, stmt.line = n + 1 ∧ (splitLines t)[n]? = some line ∧ stmt.text = trim line ∧
    Statement.classify stmt.text = .ok stmt.form

structure Function.ReadFrom (t : Text) (f : Function) : Prop where
  header : ∃ text, Statement.ReadFrom t ⟨text, f.headerLine, .function f.name f.params⟩
  body : ∀ stmt ∈ f.body, stmt.ReadFrom t

theorem Statement.readFrom_of_mem {t : Text} {l : SourceLine} (hl : l ∈ ofText t)
    {form : Form} (hform : Statement.classify (trim l.text) = .ok form) :
    Statement.ReadFrom t ⟨trim l.text, l.number, form⟩ := by
  obtain ⟨n, hnumber, hline⟩ := exists_splitLines hl
  exact ⟨n, l.text, hnumber, hline, rfl, hform⟩

namespace Scan

def placed (s : Scan) : List Nat :=
  s.functions.flatMap Function.lines ++ s.main.map Statement.line

theorem flatMap_lines_intoLast (stmt : Statement) (fs : List Function) :
    (intoLast stmt fs).flatMap Function.lines <+~ fs.flatMap Function.lines ++ [stmt.line] := by
  rcases fs.eq_nil_or_concat with rfl | ⟨front, last, rfl⟩
  · exact (nil_sublist _).subperm
  · rw [concat_eq_append, intoLast_append]
    simp [Function.lines, Subperm.refl]

namespace Places

variable {stmt : Statement} {s s' : Scan} (h : Places stmt s s')
include h

theorem placed_subperm : s'.placed <+~ s.placed ++ [stmt.line] := by
  unfold placed
  have hswap : s.functions.flatMap Function.lines ++ [stmt.line] ++ s.main.map Statement.line <+~
      s.functions.flatMap Function.lines ++ s.main.map Statement.line ++ [stmt.line] := by
    rw [append_assoc, append_assoc]
    exact ((perm_append_left_iff _).mpr perm_append_comm).subperm
  rcases h with ⟨hf, hm⟩ | ⟨hf, hm⟩ | ⟨hf, hm⟩ | ⟨-, hf, hm⟩ <;> rw [hf, hm]
  · exact (sublist_append_left _ _).subperm
  · exact ((subperm_append_right _).mpr (flatMap_lines_intoLast stmt _)).trans hswap
  · simp [Subperm.refl]
  · rw [flatMap_append]
    exact hswap

theorem main_cases : s'.main = s.main ∨ s'.main = s.main ++ [stmt] := by
  rcases h with ⟨-, hm⟩ | ⟨-, hm⟩ | ⟨-, hm⟩ | ⟨-, -, hm⟩ <;> simp [hm]

theorem forall_functions {P Q : Function → Prop} (hs : ∀ f ∈ s.functions, P f)
    (hkeep : ∀ f, P f → Q f) (hbody : ∀ f, P f → Q { f with body := f.body ++ [stmt] })
    (hheader : ∀ name params, stmt.form = .function name params →
      Q ⟨name, params, stmt.line, []⟩) : ∀ f ∈ s'.functions, Q f := by
  have hold : ∀ f ∈ s.functions, Q f := fun f hf => hkeep f (hs f hf)
  rcases h with ⟨hf, -⟩ | ⟨hf, -⟩ | ⟨hf, -⟩ | ⟨hform, hf, -⟩ <;> rw [hf]
  · exact hold
  · rcases s.functions.eq_nil_or_concat with hnil | ⟨front, last, hlast⟩
    · simp [hnil, intoLast]
    · rw [concat_eq_append] at hlast
      rw [hlast, intoLast_append]
      rw [hlast] at hs hold
      refine forall_mem_concat (forall_mem_append.mp hold).1 ?_
      exact hbody last (hs last mem_concat_self)
  · exact hold
  · exact forall_mem_concat hold (hheader _ _ hform)

end Places

/-- The lines of every body increase and go on with the lines that are left,
and no line is placed twice. -/
structure Ordered (t : Text) (rest : List SourceLine) (s : Scan) : Prop where
  nodup : (s.placed ++ rest.map SourceLine.number).Nodup
  main : (s.main.map Statement.line ++ rest.map SourceLine.number).Pairwise (· < ·)
  statements : ∀ stmt ∈ s.main, stmt.ReadFrom t
  functions : ∀ f ∈ s.functions,
    (f.lines ++ rest.map SourceLine.number).Pairwise (· < ·) ∧ f.ReadFrom t

variable {t : Text} {l : SourceLine} {rest : List SourceLine} {s s' : Scan}

theorem Ordered.skip (h : Ordered t (l :: rest) s) : Ordered t rest s := by
  have htail (ns : List Nat) :
      ns ++ rest.map number <+ ns ++ (l :: rest).map number :=
    (Sublist.refl ns).append (sublist_cons_self _ _)
  refine ⟨h.nodup.sublist (htail _), h.main.sublist (htail _), h.statements, fun f hf => ?_⟩
  exact ⟨(h.functions f hf).1.sublist (htail _), (h.functions f hf).2⟩

theorem Ordered.step (h : Ordered t (l :: rest) s) (hl : l ∈ ofText t) {form : Form}
    (hform : Statement.classify (trim l.text) = .ok form)
    (hchanges : Changes l ⟨trim l.text, l.number, form⟩ s s') : Ordered t rest s' := by
  have hread := Statement.readFrom_of_mem hl hform
  have hplaces := hchanges.places
  refine ⟨?_, ?_, ?_, hplaces.forall_functions h.functions ?_ ?_ ?_⟩
  · have hsub := (subperm_append_right (rest.map number)).mpr hplaces.placed_subperm
    rw [append_assoc] at hsub
    obtain ⟨ns, hperm, hsub⟩ := hsub
    exact hperm.nodup_iff.mp (hsub.nodup h.nodup)
  · rcases hplaces.main_cases with hm | hm <;> rw [hm]
    · exact h.skip.main
    · simpa using h.main
  · rcases hplaces.main_cases with hm | hm <;> rw [hm]
    · exact h.statements
    · exact forall_mem_concat h.statements hread
  · rintro f ⟨hlines, hf⟩
    exact ⟨hlines.sublist ((Sublist.refl _).append (sublist_cons_self _ _)), hf⟩
  · rintro f ⟨hlines, hf⟩
    refine ⟨by simpa [Function.lines] using hlines, hf.header, ?_⟩
    exact forall_mem_concat hf.body hread
  · rintro name params rfl
    exact ⟨h.main.sublist (sublist_append_right _ _), ⟨_, hread⟩, forall_mem_nil _⟩

end Scan

namespace Program

variable {settings : Settings} {t : Text} {parsed : Parsed}
  (h : Program.parse settings t = .ok parsed)
include h

theorem ordered_of_parse : ∃ s : Scan, Scan.Ordered t [] s ∧ s.program = parsed.program := by
  obtain ⟨s, hfold, rfl⟩ := exists_of_return_eq_ok h
  refine ⟨s, ?_, ?_⟩
  · refine Scan.foldlM_line_induct (fun _ _ _ h => h.skip)
      (fun l hl _ _ _ _ hform hchanges h => h.step hl hform hchanges) hfold ?_
    have hlines : ((ofText t).map number).Pairwise (· < ·) :=
      pairwise_map.mpr (pairwise_number t)
    exact ⟨hlines.imp Nat.ne_of_lt, hlines, forall_mem_nil _, forall_mem_nil _⟩
  · rw [Scan.reportUnclosed_eq, Scan.reportMissingMain]
    split <;> rfl

theorem nodup_lines :
    (parsed.program.functions.flatMap Function.lines ++
      parsed.program.main.map Statement.line).Nodup := by
  obtain ⟨s, hs, hprogram⟩ := ordered_of_parse h
  rw [← hprogram]
  simpa [Scan.placed, Scan.program] using hs.nodup

theorem lines_apart {f : Function}
    (hf : f ∈ parsed.program.functions) {line : Nat} (hline : line ∈ f.lines) :
    line ∉ parsed.program.main.map Statement.line := by
  intro hmain
  have hfunctions : line ∈ parsed.program.functions.flatMap Function.lines :=
    mem_flatMap.mpr ⟨f, hf, hline⟩
  exact (nodup_append.mp (nodup_lines h)).2.2 line hfunctions line hmain rfl

/-- Whatever a text holds, an erroneous one included, the bodies of its
program take its lines apart: no line is in two bodies or twice in one, the
lines of a body increase and those of a function start behind its header, and
every statement and every header is what the line of its number is read as. -/
theorem bodies_of_parse :
    (parsed.program.functions.flatMap Function.lines ++
      parsed.program.main.map Statement.line).Nodup ∧
    (parsed.program.main.map Statement.line).Pairwise (· < ·) ∧
    (∀ stmt ∈ parsed.program.main, stmt.ReadFrom t) ∧
    ∀ f ∈ parsed.program.functions, f.lines.Pairwise (· < ·) ∧ f.ReadFrom t := by
  obtain ⟨s, hs, hprogram⟩ := ordered_of_parse h
  refine ⟨nodup_lines h, ?_⟩
  rw [← hprogram]
  refine ⟨by simpa [Scan.program] using hs.main, hs.statements, fun f hf => ?_⟩
  exact ⟨by simpa using (hs.functions f hf).1, (hs.functions f hf).2⟩

end Program

/-- A text whose function stands inside the main body, with a closing line of
no block, a header without an end and a block that stays open. -/
def crossedScopes : Text :=
  "inicio\n leer x\nfuncion f(a)\r\n escribir a\nfin\nleer y\nfinsi\nfuncion g(\nsi y"

theorem Program.bodies_of_parse_crossedScopes :
    ∃ parsed, Program.parse {} crossedScopes = .ok parsed ∧
      parsed.program.main.map Statement.line = [2, 6, 9] ∧
      parsed.program.functions.map Function.lines = [[3, 4]] ∧
      (∀ stmt ∈ parsed.program.main, stmt.ReadFrom crossedScopes) ∧
      ∀ f ∈ parsed.program.functions, f.lines.Pairwise (· < ·) ∧ f.ReadFrom crossedScopes := by
  obtain ⟨parsed, hparse, hmain, hfunctions⟩ : ∃ parsed,
      Program.parse {} crossedScopes = .ok parsed ∧
      parsed.program.main.map Statement.line = [2, 6, 9] ∧
      parsed.program.functions.map Function.lines = [[3, 4]] :=
    exists_parse (by decide +kernel)
  exact ⟨parsed, hparse, hmain, hfunctions, (Program.bodies_of_parse hparse).2.2⟩

end Pseudocode
