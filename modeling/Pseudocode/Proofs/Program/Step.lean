import Pseudocode.Program.Scan
import Pseudocode.Proofs.Places
import Pseudocode.Proofs.Program.Lines
import Pseudocode.Proofs.Results

/-!
# What one line does to the pass

The pass over the lines of a text checks the indentation of a line and
then places its statement: it stores it, opens or closes a block, or
starts a branch. Each kind of line has one lemma here that gives the
state after it.

* `Scan.filed`: the state after some lines with the level, the open blocks
  and the findings given. Storing statements commutes with changes of
  those three (`filed_filed`).
* `statement_plain`, `statement_open`, `statement_close`, `statement_mark`:
  the lines inside a scope.
* `statement_program`, `statement_function`, `statement_main`,
  `statement_end`: the lines around scopes.
* `line_cases`, `reportUnclosed_eq`: a line of the text, and its end.
-/

namespace Pseudocode

open Text List Statement Kind

/-- What is found wrong with the run before a line at a depth. -/
def leadFindings (width : Int) (depth : Nat) (lead : Text) (start number : Nat) : List Diagnostic :=
  let span := Span.of start (start + lead.length) number
  (if '\t' ∈ lead then
    [Diagnostic.of .tabIndent span "La indentacion debe usar espacios, no tabulaciones."] else []) ++
  (if (lead.count ' ') = width * depth then []
    else [Diagnostic.of .badIndent span ("Se esperaban " ++ ofInt (width * depth) ++ " espacios.")])

/-- The finding on a block that is open at the end. -/
def Frame.unclosed (f : Frame) : Diagnostic :=
  Diagnostic.of .unclosedBlock f.line.span
    ("Falta cerrar el bloque con \"" ++ f.block.closer ++ "\".")

namespace Scan

def filed (s : Scan) (stmts : List Statement) (level : Nat) (stack : List Frame)
    (found : List Diagnostic) : Scan :=
  { stmts.foldl append s with level, stack, diagnostics := s.diagnostics ++ found }

variable (s : Scan) (width : Int) (l : SourceLine)

theorem append_with (stmt : Statement) (level : Nat) (stack : List Frame)
    (found : List Diagnostic) :
    { s with level, stack, diagnostics := found }.append stmt =
      { s.append stmt with level, stack, diagnostics := found } := by
  unfold append
  split
  · rfl
  · split <;> rfl

theorem foldl_append_with (stmts : List Statement) (level : Nat) (stack : List Frame)
    (found : List Diagnostic) :
    stmts.foldl append { s with level, stack, diagnostics := found } =
      { stmts.foldl append s with level, stack, diagnostics := found } := by
  induction stmts generalizing s with
  | nil => rfl
  | cons stmt rest ih => rw [foldl_cons, append_with, ih, foldl_cons]

theorem filed_filed (xs ys : List Statement) (l l' : Nat) (st st' : List Frame)
    (ds ds' : List Diagnostic) :
    (s.filed xs l st ds).filed ys l' st' ds' = s.filed (xs ++ ys) l' st' (ds ++ ds') := by
  simp only [filed, foldl_append_with, foldl_append, append_assoc]

@[simp] theorem level_filed (xs : List Statement) (l : Nat) (st : List Frame)
    (ds : List Diagnostic) : (s.filed xs l st ds).level = l := rfl

@[simp] theorem stack_filed (xs : List Statement) (l : Nat) (st : List Frame)
    (ds : List Diagnostic) : (s.filed xs l st ds).stack = st := rfl

/-- What is found wrong with the indentation of a line at a level. -/
def indentFindings (width : Int) (level : Nat) (l : SourceLine) : List Diagnostic :=
  leadFindings width level l.leading l.start l.number

theorem checks_eq {form : Form} (h : form.kind ∉ [comment, .unrecognized, .legacyArray]) :
    ((s.checkTabs l).checkSpaces width l form.kind).reportForm l form =
      { s with diagnostics := s.diagnostics ++
          indentFindings width (s.expectedLevel form.kind) l } := by
  have hform : ∀ t : Scan, t.reportForm l form = t := by
    intro t
    cases form <;> first | rfl | simp [Form.kind] at h
  have hlevel : (s.checkTabs l).expectedLevel form.kind = s.expectedLevel form.kind := by
    unfold checkTabs
    split <;> rfl
  rw [hform, checkSpaces, hlevel, checkTabs, indentFindings, leadFindings, Int.mul_comm width]
  simp only [contains_iff_mem]
  split <;> split <;> simp [report, SourceLine.leadingSpan]

theorem statement_eq {stmt : Statement}
    (h : stmt.kind ∉ [comment, .unrecognized, .legacyArray]) :
    s.statement width l stmt =
      { s with diagnostics := s.diagnostics ++
          indentFindings width (s.expectedLevel stmt.kind) l }.place l stmt := by
  rw [kind, ← checks_eq s width l h]
  obtain ⟨text, line, form⟩ := stmt
  cases form <;> first | rfl | simp [kind, Form.kind] at h

theorem statement_plain (stmt : PlainStatement)
    (hu : stmt.1.kind ≠ .unrecognized) (hl : stmt.1.kind ≠ .legacyArray) :
    s.statement width l stmt.1 =
      s.filed [stmt.1] s.level s.stack (indentFindings width s.level l) := by
  obtain ⟨⟨text, line, form⟩, h⟩ := stmt
  have hc : form.kind ≠ .comment := by
    rintro hc
    simp [kind, hc, isPlain] at h
  rw [statement_eq s width l (by simpa [kind] using ⟨hc, hu, hl⟩)]
  cases form <;> first
    | exact append_with s _ _ _ _
    | simp [kind, Form.kind, isPlain] at h

theorem statement_comment (stmt : StatementOf .comment) :
    s.statement width l stmt.1 = s.filed [stmt.1] s.level s.stack [] := by
  obtain ⟨⟨text, line, form⟩, h⟩ := stmt
  have happend : ∀ t, s.append t = s.filed [t] s.level s.stack [] := by
    intro t
    simp only [filed, append_nil]
    exact append_with s t s.level s.stack s.diagnostics
  cases form <;> first | exact happend _ | simp [kind, Form.kind] at h

theorem statement_open {stmt : Statement} {block : Block}
    (h : stmt.kind.opens? = some block) (hb : block.isScope = false) :
    s.statement width l stmt =
      s.filed [stmt] (s.level + 1) (⟨block, l⟩ :: s.stack) (indentFindings width s.level l) := by
  obtain ⟨text, line, form⟩ := stmt
  have hkind : form.kind.opens? = some block := h
  cases form <;> simp only [Form.kind, opens?, reduceCtorEq, Option.some.injEq] at hkind <;>
    subst hkind <;> rw [statement_eq s width l (by simp [kind, Form.kind])] <;> first
    | exact append_with s _ _ _ _
    | simp [Block.isScope] at hb

theorem statement_close (l l' : SourceLine) {stmt : Statement}
    {block : Block} {stack : List Frame} {level : Nat} (h : stmt.kind.closes? = some block)
    (hs : s.stack = ⟨block, l'⟩ :: stack)
    (hl : s.level - (if stmt.kind = .endIf then 2 else 1) = level) :
    s.statement width l stmt = s.filed [stmt] level stack (indentFindings width level l) := by
  subst hl
  obtain ⟨text, line, form⟩ := stmt
  have hkind : form.kind.closes? = some block := h
  cases form <;> simp only [Form.kind, closes?, reduceCtorEq, Option.some.injEq] at hkind <;>
    subst hkind <;> rw [statement_eq s width l (by simp [kind, Form.kind])] <;>
    simp [place, Form.kind, opens?, closes?, closeBlock, hs, kind,
      expectedLevel, append_with, filed]

theorem any_ifTest {stack : List Frame} (h : .ifTest ∈ stack.map Frame.block) :
    (stack.any fun f => f.block = .ifTest) = true := by
  obtain ⟨f, hf, hblock⟩ := mem_map.mp h
  exact any_eq_true.mpr ⟨f, hf, decide_eq_true hblock⟩

/-- A mark is one level above its branch, which is as deep behind `sino` as
before. -/
theorem statement_mark {stmt : Statement}
    (h : stmt.kind.isMark = true) (hs : .ifTest ∈ s.stack.map Frame.block) :
    s.statement width l stmt =
      s.filed [stmt] (s.expectedLevel stmt.kind + 1) s.stack
        (indentFindings width (s.expectedLevel stmt.kind) l) := by
  obtain ⟨text, line, form⟩ := stmt
  cases form with
  | thenBranch | elseBranch =>
    rw [statement_eq s width l (by simp [kind, Form.kind])]
    simp [place, switchBranch, any_ifTest hs, kind, Form.kind, expectedLevel, append_with, filed]
  | _ => cases h

theorem statement_choiceHead (l l' : SourceLine)
    (head : StatementOf .ifTest) (mark : StatementOf .thenBranch) :
    (s.statement width l head.1).statement width l' mark.1 =
      s.filed [head.1, mark.1] (s.level + 2) (⟨.ifTest, l⟩ :: s.stack)
        (indentFindings width s.level l ++ indentFindings width (s.level + 1) l') := by
  have hhead : head.1.kind.opens? = some .ifTest := congrArg opens? head.2
  have hmark : mark.1.kind.isMark = true := congrArg isMark mark.2
  rw [statement_open s width l hhead rfl, statement_mark _ _ _ hmark (by simp), filed_filed, mark.2]
  rfl

theorem filed_nil : s.filed [] s.level s.stack [] = s := by
  simp [filed]

/-! ### Scopes -/

theorem intoLast_append (stmt : Statement) (fs : List Function) (f : Function) :
    intoLast stmt (fs ++ [f]) = fs ++ [{ f with body := f.body ++ [stmt] }] := by
  induction fs with
  | nil => rfl
  | cons g rest ih =>
    cases rest with
    | nil => rfl
    | cons => exact congrArg (g :: ·) ih

theorem foldl_append_function (stmts : List Statement) {fs : List Function}
    {f : Function} (hin : s.inFunction = true) (hfs : s.functions = fs ++ [f]) :
    stmts.foldl append s = { s with functions := fs ++ [{ f with body := f.body ++ stmts }] } := by
  induction stmts generalizing s f with
  | nil => simp [← hfs]
  | cons stmt rest ih =>
    have hstep : s.append stmt =
        { s with functions := fs ++ [{ f with body := f.body ++ [stmt] }] } := by
      simp [append, hin, hfs, intoLast_append]
    rw [foldl_cons, ih (s.append stmt) (hstep ▸ hin) (by rw [hstep]), hstep]
    simp

theorem foldl_append_main (stmts : List Statement) (hf : s.inFunction = false)
    (hm : s.inMain = true) : stmts.foldl append s = { s with main := s.main ++ stmts } := by
  induction stmts generalizing s with
  | nil => simp
  | cons stmt rest ih =>
    have hstep : s.append stmt = { s with main := s.main ++ [stmt] } := by
      simp [append, hf, hm]
    rw [foldl_cons, ih (s.append stmt) (hstep ▸ hf) (hstep ▸ hm), hstep]
    simp

theorem statement_program {name : Text} (head : { s : Statement // s.form = .program name }) :
    s.statement width l head.1 =
      { s with
        name := s.name <|> some name
        diagnostics := s.diagnostics ++ indentFindings width s.level l } := by
  have hkind : head.1.kind = .program := congrArg Form.kind head.2
  rw [statement_eq s width l (by simp [hkind]), place, head.2]
  cases s.name <;> simp [hkind, expectedLevel]

theorem statement_function {name : Text}
    {params : List Text} (head : { s : Statement // s.form = .function name params }) :
    s.statement width l head.1 =
      { s with
        level := s.level + 1, stack := ⟨.function, l⟩ :: s.stack, inFunction := true
        functions := s.functions ++ [⟨name, params, l.number, []⟩]
        diagnostics := s.diagnostics ++ indentFindings width s.level l } := by
  have hkind : head.1.kind = .function := congrArg Form.kind head.2
  rw [statement_eq s width l (by simp [hkind]), place]
  simp [Form.kind, opens?, openBlock, head.2, hkind, expectedLevel]

theorem statement_main (head : { s : Statement // s.form = .main }) :
    s.statement width l head.1 =
      { s with
        level := s.level + 1, stack := ⟨.main, l⟩ :: s.stack, inMain := true
        diagnostics := s.diagnostics ++ indentFindings width s.level l } := by
  have hkind : head.1.kind = .main := congrArg Form.kind head.2
  rw [statement_eq s width l (by simp [hkind]), place]
  simp [Form.kind, opens?, openBlock, head.2, hkind, expectedLevel]

theorem statement_end (tail : StatementOf .endScope) :
    s.statement width l tail.1 =
      { s with diagnostics := s.diagnostics ++ indentFindings width (s.level - 1) l }.closeScope
        l := by
  obtain ⟨⟨text, line, form⟩, h⟩ := tail
  cases form with
  | endScope => exact statement_eq s width l (by simp [h])
  | _ => cases h

/-! ### Lines and the end of a text -/

/-- A line is blank and changes nothing, or it is read as a statement. -/
theorem line_cases {width : Int} {s s' : Scan} {l : SourceLine} (h : line width s l = .ok s') :
    (trim l.text).isEmpty = true ∧ s' = s ∨
      (trim l.text).isEmpty = false ∧ ∃ form, classify (trim l.text) = .ok form ∧
        s' = s.statement width l ⟨trim l.text, l.number, form⟩ := by
  unfold line at h
  dsimp only at h
  split at h
  · next hblank => exact .inl ⟨hblank, (Except.ok.inj h).symm⟩
  · next hblank =>
    obtain ⟨form, hform, h⟩ := exists_of_bind_eq_ok h
    exact .inr ⟨by simpa using hblank, form, hform, (Except.ok.inj h).symm⟩

theorem reportUnclosed_eq (s : Scan) :
    s.reportUnclosed =
      { s with diagnostics := s.diagnostics ++ s.stack.reverse.map Frame.unclosed } := by
  have hfold : ∀ (frames : List Frame) (s : Scan),
      frames.foldl (fun s f => { s with diagnostics := s.diagnostics ++ [f.unclosed] }) s =
        { s with diagnostics := s.diagnostics ++ frames.map Frame.unclosed } := by
    intro frames
    induction frames with
    | nil => simp
    | cons f rest ih => simp [ih]
  exact hfold s.stack.reverse s

end Scan

end Pseudocode
