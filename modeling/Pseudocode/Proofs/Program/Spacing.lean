import Pseudocode.Proofs.Program.Legibility

/-!
# What the spacing of a text has a say in

The blanks around the lines of a text, and how its lines end, decide about
two kinds of findings, tabs in an indentation and indentations of a wrong
width, and about offsets. Nothing else depends on them: two texts with the
same trimmed lines have the same program and, those two kinds apart, the
same findings on the same lines, each under settings of its own.

The proof runs the pass on the bare form of its state, which has forgotten
offsets and the two kinds of findings.

* `Scan.bare`: the bare form. Each operation of the pass commutes with it
  (`bare_report`, `bare_append`, `bare_place`), and the two checks of an
  indentation leave it alone (`bare_checkTabs`, `bare_checkSpaces`).
* `Scan.bare_statement`: one statement, at an indentation width of zero,
  where an empty indentation is never wrong.
* `Scan.bare_foldlM`: the whole pass needs the trimmed lines only.
-/

namespace Pseudocode

open Text List

/-! ### What is said about a line -/

/-- A finding on indentation: a tab, or a wrong width. -/
def Diagnostic.onIndent (d : Diagnostic) : Bool :=
  d.code = .tabIndent || d.code = .badIndent

/-- A diagnostic with the offsets taken out: code, message, severity and
line. -/
structure Finding where
  code : DiagnosticCode
  message : Text
  severity : Severity
  line : Int
deriving DecidableEq, Repr

/-- What a diagnostic says, offsets apart. -/
def Diagnostic.finding (d : Diagnostic) : Finding :=
  ⟨d.code, d.message, d.severity, d.span.line⟩

/-- The findings of a list of diagnostics on anything but indentation. -/
def Diagnostic.findings (ds : List Diagnostic) : List Finding :=
  (ds.filter fun d => !d.onIndent).map finding

/-- The lines of a text without the blanks around them. -/
def Text.trimmedLines (t : Text) : List Text :=
  (SourceLine.ofText t).map fun l => trim l.text

/-! ### The bare form of the pass -/

/-- The range of a line without its offsets. -/
def Span.bare (s : Span) : Span :=
  Span.of 0 0 s.line

def Diagnostic.bare (d : Diagnostic) : Diagnostic :=
  { d with span := d.span.bare }

def SourceLine.bare (l : SourceLine) : SourceLine :=
  ⟨l.number, 0, []⟩

/-- An open block without the offset and the text of its first line. -/
def Frame.bare (f : Frame) : Frame :=
  ⟨f.block, f.line.bare⟩

@[simp] theorem Diagnostic.finding_bare (d : Diagnostic) : d.bare.finding = d.finding := rfl

@[simp] theorem Diagnostic.onIndent_bare (d : Diagnostic) : d.bare.onIndent = d.onIndent := rfl

@[simp] theorem SourceLine.span_bare (l : SourceLine) : l.bare.span = l.span.bare := rfl

namespace Scan

/-- The state of the pass without offsets and without findings on
indentation. -/
def bare (s : Scan) : Scan :=
  { s with
    stack := s.stack.map Frame.bare
    diagnostics := (s.diagnostics.filter fun d => !d.onIndent).map Diagnostic.bare }

variable (s : Scan) (width : Int) (l : SourceLine) (stmt : Statement)

theorem findings_bare :
    Diagnostic.findings s.bare.diagnostics = Diagnostic.findings s.diagnostics := by
  have hfilter : (s.bare.diagnostics.filter fun d => !d.onIndent) = s.bare.diagnostics := by
    rw [filter_eq_self]
    intro d hd
    obtain ⟨d', hd', rfl⟩ := mem_map.mp hd
    simpa using (mem_filter.mp hd').2
  rw [Diagnostic.findings, hfilter]
  simp [bare, Diagnostic.findings]

theorem bare_report {code : DiagnosticCode} (span : Span) (message : Text)
    (htab : code ≠ .tabIndent) (hspaces : code ≠ .badIndent) :
    (s.report code span message).bare = s.bare.report code span.bare message := by
  simp [report, bare, Diagnostic.onIndent, Diagnostic.of, htab, hspaces, Diagnostic.bare]

theorem bare_report_indent {code : DiagnosticCode} (span : Span) (message : Text)
    (h : code = .tabIndent ∨ code = .badIndent) : (s.report code span message).bare = s.bare := by
  have hindent : (Diagnostic.of code span message).onIndent = true := by
    rcases h with rfl | rfl <;> rfl
  simp [report, bare, hindent]

theorem bare_append : (s.append stmt).bare = s.bare.append stmt := by
  show _ = if s.inFunction then _ else if s.inMain then _ else _
  unfold append
  split
  · rfl
  · split <;> rfl

theorem bare_checkTabs : (s.checkTabs l).bare = s.bare := by
  unfold checkTabs
  split
  · exact s.bare_report_indent _ _ (.inl rfl)
  · rfl

theorem bare_checkSpaces (kind : Kind) : (s.checkSpaces width l kind).bare = s.bare := by
  unfold checkSpaces
  dsimp only
  split
  · rfl
  · exact s.bare_report_indent _ _ (.inr rfl)

theorem bare_reportForm (form : Form) :
    (s.reportForm l form).bare = s.bare.reportForm l.bare form := by
  cases form with
  | unrecognized => exact s.bare_report _ _ (by decide) (by decide)
  | legacyArray =>
    refine (bare_report _ _ _ (by decide) (by decide)).trans ?_
    rw [bare_report _ _ _ (by decide) (by decide)]
    rfl
  | _ => rfl

theorem bare_openBlock (block : Block) (l : SourceLine) (stmt : Statement) :
    (s.openBlock block l stmt).bare = s.bare.openBlock block l.bare stmt := by
  unfold openBlock
  split
  · -- The header that cannot be read is the only one that is reported.
    simp [report, bare, Diagnostic.onIndent, Diagnostic.of, Diagnostic.bare, Frame.bare,
      show DiagnosticCode.badFunctionHeader ≠ .tabIndent by decide,
      show DiagnosticCode.badFunctionHeader ≠ .badIndent by decide]
  · rfl
  · rfl
  · exact bare_append _ _

theorem bare_closeBlock (wanted : Block) (l : SourceLine) (stmt : Statement) :
    (s.closeBlock wanted l stmt).bare = s.bare.closeBlock wanted l.bare stmt := by
  have htop : s.bare.stack.head?.map Frame.block = s.stack.head?.map Frame.block := by
    simp [bare, Function.comp_def, Frame.bare]
  have htail : s.bare.stack.tail = s.stack.tail.map Frame.bare := map_tail.symm
  unfold closeBlock
  dsimp only
  rw [htop, htail]
  split
  · exact bare_append _ _
  · exact bare_report _ _ _ (by decide) (by decide)

theorem bare_switchBranch : (s.switchBranch l stmt).bare = s.bare.switchBranch l.bare stmt := by
  have hopen : (s.bare.stack.any fun f => f.block = .ifTest) =
      s.stack.any fun f => f.block = .ifTest := any_map
  unfold switchBranch
  rw [hopen]
  split
  · exact bare_append _ _
  · exact bare_report _ _ _ (by decide) (by decide)

theorem bare_closeScope : (s.closeScope l).bare = s.bare.closeScope l.bare := by
  cases hstack : s.stack with
  | nil =>
    simp only [closeScope, hstack, show s.bare.stack = [] by simp [bare, hstack]]
    exact bare_report _ _ _ (by decide) (by decide)
  | cons frame stack =>
    have hbare : s.bare.stack = frame.bare :: stack.map Frame.bare := by simp [bare, hstack]
    simp only [closeScope, hstack, hbare, show frame.bare.block = frame.block from rfl]
    split
    · rfl
    · rfl
    · exact bare_report _ _ _ (by decide) (by decide)

theorem bare_place : (s.place l stmt).bare = s.bare.place l.bare stmt := by
  unfold place
  split
  · show _ = if s.name.isNone then _ else _
    split <;> rfl
  · exact bare_closeScope s l
  · exact bare_switchBranch s l stmt
  · exact bare_switchBranch s l stmt
  · split
    · exact bare_openBlock ..
    · exact bare_closeBlock ..
    · exact bare_append ..

theorem bare_statement : (s.statement width l stmt).bare = s.bare.statement 0 l.bare stmt := by
  unfold statement
  split
  · exact bare_append s stmt
  · dsimp only
    rw [bare_place, bare_reportForm, bare_checkSpaces, bare_checkTabs]
    split <;> rfl

/-! ### The whole pass -/

/-- One trimmed line with its number, at a width of zero. -/
def bareLine (s : Scan) (l : Nat × Text) : Except Statement.Fault Scan :=
  if l.2.isEmpty then .ok s
  else do
    let form ← Statement.classify l.2
    return s.statement 0 ⟨l.1, 0, []⟩ ⟨l.2, l.1, form⟩

theorem bare_line (s : Scan) (l : SourceLine) :
    (line width s l).map bare = s.bare.bareLine (l.number, trim l.text) := by
  unfold line bareLine
  dsimp only
  split
  · rfl
  · cases Statement.classify (trim l.text) with
    | error => rfl
    | ok => exact congrArg Except.ok (bare_statement s width l _)

theorem bare_foldlM (ls : List SourceLine) (s : Scan) :
    (ls.foldlM (line width) s).map bare =
      (ls.map fun l => (l.number, trim l.text)).foldlM bareLine s.bare := by
  induction ls generalizing s with
  | nil => rfl
  | cons l rest ih =>
    rw [foldlM_cons, map_cons, foldlM_cons, ← bare_line width]
    cases line width s l with
    | error => rfl
    | ok next => exact ih next

theorem bare_reportUnclosed : s.reportUnclosed.bare = s.bare.reportUnclosed := by
  have hunclosed (frames : List Frame) : ((frames.map Frame.unclosed).filter
      fun d => !d.onIndent).map Diagnostic.bare =
        (frames.map Frame.bare).map Frame.unclosed := by
    rw [filter_eq_self.mpr (forall_mem_map.mpr fun _ _ => rfl), map_map, map_map]
    rfl
  have hstack : s.bare.stack.reverse = s.stack.reverse.map Frame.bare := map_reverse.symm
  rw [reportUnclosed_eq, reportUnclosed_eq, hstack, ← hunclosed]
  simp [bare]

theorem bare_reportMissingMain (t : Text) :
    (s.reportMissingMain t).bare =
      if t.trimmedLines.any fun l => lowerWord l == "inicio" then s.bare
      else s.bare.report .missingMain (Span.of 0 0 1) "Falta la seccion \"inicio\"." := by
  rw [trimmedLines, any_map]
  show (if (SourceLine.ofText t).any fun l => lowerWord (trim l.text) == "inicio"
    then s else _).bare = if (SourceLine.ofText t).any fun l =>
      lowerWord (trim l.text) == "inicio" then _ else _
  split
  · rfl
  · exact bare_report _ _ _ (by decide) (by decide)

end Scan

/-! ### Texts -/

theorem SourceLine.numbered_trim (t : Text) :
    ((ofText t).map fun l => (l.number, trim l.text)) =
      (range' 1 t.trimmedLines.length).zip t.trimmedLines := by
  rw [trimmedLines, length_map, ← numbers_ofText, zip_map']

/-- The program that was found and the findings on anything but
indentation. -/
def Parsed.content (p : Parsed) : Program × List Finding :=
  (p.program, Diagnostic.findings p.diagnostics)

def Program.parseTrimmed (lines : List Text) :
    Except Statement.Fault (Program × List Finding) := do
  let s ← ((range' 1 lines.length).zip lines).foldlM Scan.bareLine {}
  let s := s.reportUnclosed
  let s := if lines.any fun l => lowerWord l == "inicio" then s
    else s.report .missingMain (Span.of 0 0 1) "Falta la seccion \"inicio\"."
  return (s.program, Diagnostic.findings s.diagnostics)

theorem Program.content_parse (settings : Settings) (t : Text) :
    (Program.parse settings t).map Parsed.content = Program.parseTrimmed t.trimmedLines := by
  have hfold := Scan.bare_foldlM settings.indentWidth (SourceLine.ofText t) {}
  rw [SourceLine.numbered_trim] at hfold
  unfold Program.parse Program.parseTrimmed
  rw [show ({} : Scan).bare = {} from rfl] at hfold
  rw [← hfold]
  cases (SourceLine.ofText t).foldlM (Scan.line settings.indentWidth) {} with
  | error => rfl
  | ok s =>
    have hend := Scan.bare_reportMissingMain s.reportUnclosed t
    rw [Scan.bare_reportUnclosed] at hend
    show Except.ok (_, _) = Except.ok (_, _)
    rw [← hend, Scan.findings_bare]
    rfl

/-- Two texts with the same trimmed lines, each read under settings of its
own, have the same program and the same findings on the same lines, tabs
and widths of indentations apart; or neither of them is read, for the same
reason. They are read exactly if no line is one without a reading. -/
theorem Program.parse_eq_of_trimmedLines_eq (settings settings' : Settings) (t t' : Text)
    (h : t.trimmedLines = t'.trimmedLines) :
    (Program.parse settings t).map Parsed.content =
        (Program.parse settings' t').map Parsed.content ∧
      ((∃ parsed, Program.parse settings t = .ok parsed) ↔
        ∀ line ∈ t.trimmedLines, ¬ Statement.Unreadable line) := by
  constructor
  · rw [Program.content_parse, Program.content_parse, h]
  · rw [trimmedLines, forall_mem_map, ← legible_iff]
    constructor
    · rintro ⟨parsed, hparse⟩
      exact legible_of_parse hparse
    · intro hlegible
      obtain ⟨parsed, hparse, -⟩ := exists_parse_nest settings hlegible
      exact ⟨parsed, hparse⟩

/-- A text indented by spaces, with an old array and a block left open. -/
def spacedText : Text :=
  "inicio\n  si x[1] > 2 entonces\n    arreglo a 3\n  escribir x\nfin"

def tabbedText : Text :=
  "\tinicio\r\nsi x[1] > 2 entonces  \r\n\t\tarreglo a 3\r\n escribir x\t\r\n\t fin"

/-- Different indentations, line ends and widths: of eleven findings the
four that are not on indentation are shared. -/
theorem Program.parse_tabbed_eq_spaced :
    tabbedText.trimmedLines = spacedText.trimmedLines ∧
      (Program.parse {} tabbedText).map Parsed.content =
        (Program.parse { indentWidth := 4 } spacedText).map Parsed.content ∧
      (Program.parse {} tabbedText).map (fun p => (p.diagnostics.length, p.content.2.length)) =
        .ok (11, 4) :=
  have h : tabbedText.trimmedLines = spacedText.trimmedLines := by decide +kernel
  ⟨h, (Program.parse_eq_of_trimmedLines_eq {} { indentWidth := 4 } _ _ h).1, by decide +kernel⟩

end Pseudocode
