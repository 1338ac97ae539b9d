import Pseudocode.Proofs.Program.Step

/-!
# A program tree that is laid out is read back

A program tree has the functions and the main section of a program with
their nested bodies. It is laid out by writing its lines one after
another, each behind a run of tabs and spaces of any choice. Reading the
text gives the tree's program back, whatever the runs are, and reports
exactly the lines whose run is not what their depth asks for.

* `Body.placed`, `Item.placed`: the statements with their depths. The body
  of a scope or a loop is one level deeper than its head; the marks
  `entonces` and `sino` are one level deeper than their `si`, and the
  branches two.
* `ProgramTree`: a tree whose lines can be read and are numbered.
* `ProgramTree.parse_layout`: what is read from a layout.

The pass keeps a level of its own, which each kind of line moves in its
own way; `foldl_statement_body` says that a nested body leaves the level
and the open blocks as they were.
-/

namespace Pseudocode

open Text List Body SourceLine Statement

variable {s : Statement}

/-! ### Trees -/

namespace Body

def placed (d : Nat) : Body → List (Nat × Statement)
  | .nil => []
  | .comment s rest => (d, s.1) :: rest.placed d
  | .plain s rest => (d, s.1) :: rest.placed d
  | .pretest _ head body tail rest =>
    (d, head.1) :: (body.placed (d + 1) ++ (d, tail.1) :: rest.placed d)
  | .posttest head body test rest =>
    (d, head.1) :: (body.placed (d + 1) ++ (d, test.1) :: rest.placed d)
  | .choice head mark yes tail rest =>
    (d, head.1) :: ((markStatements mark).map (d + 1, ·) ++
      (yes.placed (d + 2) ++ (d, tail.1) :: rest.placed d))
  | .choiceElse head mark yes middle no tail rest =>
    (d, head.1) :: ((markStatements mark).map (d + 1, ·) ++
      (yes.placed (d + 2) ++ (d + 1, middle.1) ::
        (no.placed (d + 2) ++ (d, tail.1) :: rest.placed d)))

def marked : Body → Bool
  | .nil => true
  | .comment _ rest | .plain _ rest => rest.marked
  | .pretest _ _ body _ rest | .posttest _ body _ rest => body.marked && rest.marked
  | .choice _ mark yes _ rest => mark.isSome && yes.marked && rest.marked
  | .choiceElse _ mark yes _ no _ rest =>
    mark.isSome && yes.marked && no.marked && rest.marked

theorem map_snd_placed (b : Body) (d : Nat) : (b.placed d).map Prod.snd = b.statements := by
  induction b generalizing d with
  | nil => rfl
  | comment s rest ih => simp [placed, statements, ih]
  | plain s rest ih => simp [placed, statements, ih]
  | pretest counted head body tail rest ihBody ihRest => simp [placed, statements, ihBody, ihRest]
  | posttest head body test rest ihBody ihRest => simp [placed, statements, ihBody, ihRest]
  | choice head mark yes tail rest ihYes ihRest =>
    simp [placed, statements, ihYes, ihRest, Function.comp_def]
  | choiceElse head mark yes middle no tail rest ihYes ihNo ihRest =>
    simp [placed, statements, ihYes, ihNo, ihRest, Function.comp_def]

end Body

/-- A statement whose line can be read: the text is trimmed, on one line,
and of its form, which is a known one. -/
structure Statement.Readable (s : Statement) : Prop where
  trimmed : trim s.text = s.text
  oneLine : '\n' ∉ s.text
  reads : Statement.classify s.text = .ok s.form
  recognized : s.kind ≠ .unrecognized
  notLegacy : s.kind ≠ .legacyArray

theorem Statement.classify_eq_ok_iff (t : Text) (form : Form) :
    classify t = .ok form ↔ (classify t).toOption = some form := by
  cases classify t <;> simp [Except.toOption]

instance (s : Statement) : Decidable s.Readable :=
  decidable_of_iff (trim s.text = s.text ∧ '\n' ∉ s.text ∧
      (Statement.classify s.text).toOption = some s.form ∧
        s.kind ≠ .unrecognized ∧ s.kind ≠ .legacyArray)
    ⟨fun ⟨h1, h2, h3, h4, h5⟩ => ⟨h1, h2, (Statement.classify_eq_ok_iff _ _).2 h3, h4, h5⟩,
      fun h => ⟨h.trimmed, h.oneLine, (Statement.classify_eq_ok_iff _ _).1 h.reads, h.recognized,
        h.notLegacy⟩⟩

inductive Item where
  /-- `programa name` -/
  | program (name : Text) (head : { s : Statement // s.form = .program name })
  /-- `funcion name(params) … fin` -/
  | function (name : Text) (params : List Text)
      (head : { s : Statement // s.form = .function name params }) (body : Body)
      (tail : StatementOf .endScope)
  /-- `inicio … fin` -/
  | main (head : { s : Statement // s.form = .main }) (body : Body) (tail : StatementOf .endScope)

namespace Item

def isMain : Item → Bool
  | .main .. => true
  | _ => false

def isProgram : Item → Bool
  | .program .. => true
  | _ => false

def body : Item → Body
  | .program .. => .nil
  | .function _ _ _ body _ => body
  | .main _ body _ => body

def placed : Item → List (Nat × Statement)
  | .program _ head => [(0, head.1)]
  | .function _ _ head body tail => (0, head.1) :: (body.placed 1 ++ [(0, tail.1)])
  | .main head body tail => (0, head.1) :: (body.placed 1 ++ [(0, tail.1)])

def name? : Item → Option Text
  | .program name _ => some name
  | _ => none

def function? : Item → Option Function
  | .function name params head body _ => some ⟨name, params, head.1.line, body.statements⟩
  | _ => none

def mainBody : Item → List Statement
  | .main _ body _ => body.statements
  | _ => []

theorem mem_placed_of_body (i : Item) {p : Nat × Statement} (h : p ∈ i.body.placed 1) :
    p ∈ i.placed := by
  cases i with
  | program => simp [body, Body.placed] at h
  | function => exact mem_cons_of_mem _ (mem_append_left _ h)
  | main => exact mem_cons_of_mem _ (mem_append_left _ h)

end Item

structure ProgramTree where
  items : List Item
  oneMain : items.countP Item.isMain = 1
  oneName : items.countP Item.isProgram ≤ 1
  marked : ∀ i ∈ items, i.body.marked = true
  readable : ∀ p ∈ items.flatMap Item.placed, p.2.Readable
  numbered : (items.flatMap Item.placed).map (fun p => p.2.line) =
    range' 1 (items.flatMap Item.placed).length
  /-- `inicio` is written in ASCII letters. -/
  asciiMain : ∀ p ∈ items.flatMap Item.placed, p.2.form = .main →
    p.2.text.map Char.toLower = "inicio"

abbrev Lead : Type :=
  { t : Text // ∀ c ∈ t, c = '\t' ∨ c = ' ' }

namespace ProgramTree

def placed (tree : ProgramTree) : List (Nat × Statement) :=
  tree.items.flatMap Item.placed

def program (tree : ProgramTree) : Program :=
  ⟨tree.items.findSome? Item.name?, tree.items.filterMap Item.function?,
    tree.items.flatMap Item.mainBody⟩

/-- The line of a statement behind its run of tabs and spaces. -/
def lineText (lead : Nat → Lead) (s : Statement) : Text :=
  (lead s.line).1 ++ s.text

def layout (tree : ProgramTree) (lead : Nat → Lead) : Text :=
  join "\n" (tree.placed.map fun p => lineText lead p.2)

/-- The offset of a line in the layout: the length of the lines before it
with their line feeds. -/
def lineStart (tree : ProgramTree) (lead : Nat → Lead) (number : Nat) : Nat :=
  ((tree.placed.take (number - 1)).flatMap fun p => lineText lead p.2 ++ ['\n']).length

/-- What is found wrong with the layout, line by line. Comments may stand
anywhere. -/
def findings (tree : ProgramTree) (width : Int) (lead : Nat → Lead) : List Diagnostic :=
  tree.placed.flatMap fun p =>
    if p.2.kind = .comment then []
    else leadFindings width p.1 (lead p.2.line).1 (tree.lineStart lead p.2.line) p.2.line

end ProgramTree

namespace Scan

/-! ### A body -/

/-- What is found wrong with lines at their depths, when `src` gives the
line of a statement. -/
def lineFindings (width : Int) (src : Statement → SourceLine) (placed : List (Nat × Statement)) :
    List Diagnostic :=
  placed.flatMap fun p => if p.2.kind = .comment then [] else indentFindings width p.1 (src p.2)

section

variable (width : Int) (src : Statement → SourceLine)

theorem lineFindings_append (xs ys : List (Nat × Statement)) :
    lineFindings width src (xs ++ ys) = lineFindings width src xs ++ lineFindings width src ys :=
  flatMap_append

theorem lineFindings_comment (d : Nat) (c : StatementOf .comment) (rest : List (Nat × Statement)) :
    lineFindings width src ((d, c.1) :: rest) = lineFindings width src rest := by
  simp [lineFindings, c.2]

theorem lineFindings_cons (d : Nat) (h : s.kind ≠ .comment) (rest : List (Nat × Statement)) :
    lineFindings width src ((d, s) :: rest) =
      indentFindings width d (src s) ++ lineFindings width src rest := by
  simp [lineFindings, h]

/-- A nested body is stored where statements go. It leaves the level and
the open blocks as they were, and its findings are those of its lines at
their depths. -/
theorem foldl_statement_body (b : Body) (s : Scan) (hm : b.marked = true)
    (hk : ∀ st ∈ b.statements, st.kind ≠ .unrecognized ∧ st.kind ≠ .legacyArray) :
    b.statements.foldl (fun s st => s.statement width (src st) st) s =
      s.filed b.statements s.level s.stack (lineFindings width src (b.placed s.level)) := by
  induction b generalizing s with
  | nil => exact (filed_nil s).symm
  | comment c rest ih =>
    simp only [statements, forall_mem_cons] at hk
    rw [statements, foldl_cons, statement_comment, ih _ hm hk.2, filed_filed, Body.placed,
      lineFindings_comment]
    rfl
  | plain c rest ih =>
    simp only [statements, forall_mem_cons] at hk
    have hc : c.1.kind ≠ .comment := by
      intro hc
      have := c.2
      simp [hc, Kind.isPlain] at this
    rw [statements, foldl_cons, statement_plain _ _ _ _ hk.1.1 hk.1.2, ih _ hm hk.2,
      filed_filed, Body.placed, lineFindings_cons _ _ _ hc]
    rfl
  | pretest counted head body tail rest ihBody ihRest =>
    simp only [statements, forall_mem_cons, forall_mem_append] at hk
    simp only [marked, Bool.and_eq_true] at hm
    have hhead : head.1.kind.opens? = some (if counted then .forLoop else .whileLoop) := by
      rw [head.2]
      cases counted <;> rfl
    have htail : tail.1.kind.closes? = some (if counted then .forLoop else .whileLoop) := by
      rw [tail.2]
      cases counted <;> rfl
    have hback : s.level + 1 - (if tail.1.kind = .endIf then 2 else 1) = s.level := by
      rw [tail.2]
      cases counted <;> rfl
    rw [statements, foldl_cons, statement_open _ _ _ hhead (by cases counted <;> rfl),
      foldl_append, ihBody _ hm.1 hk.2.1, filed_filed, foldl_cons,
      statement_close _ _ _ _ htail rfl hback, filed_filed, ihRest _ hm.2 hk.2.2.2, filed_filed,
      Body.placed, lineFindings_cons _ _ _ (by rw [head.2]; cases counted <;> decide),
      lineFindings_append, lineFindings_cons _ _ _ (by rw [tail.2]; cases counted <;> decide)]
    simp
  | posttest head body test rest ihBody ihRest =>
    simp only [statements, forall_mem_cons, forall_mem_append] at hk
    simp only [marked, Bool.and_eq_true] at hm
    have hback : s.level + 1 - (if test.1.kind = .endIf then 2 else 1) = s.level := by
      rw [test.2]
      rfl
    rw [statements, foldl_cons, statement_open _ _ _ (by rw [head.2]; rfl) rfl,
      foldl_append, ihBody _ hm.1 hk.2.1, filed_filed, foldl_cons,
      statement_close _ _ _ _ (by rw [test.2]; rfl) rfl hback, filed_filed, ihRest _ hm.2 hk.2.2.2,
      filed_filed, Body.placed, lineFindings_cons _ _ _ (by rw [head.2]; decide),
      lineFindings_append, lineFindings_cons _ _ _ (by rw [test.2]; decide)]
    simp
  | choice head mark yes tail rest ihYes ihRest =>
    cases mark with
    | none => simp [marked] at hm
    | some mark =>
      simp only [statements, forall_mem_cons, forall_mem_append] at hk
      simp only [marked, Bool.and_eq_true] at hm
      have hback : s.level + 2 - (if tail.1.kind = .endIf then 2 else 1) = s.level := by
        rw [tail.2]
        rfl
      rw [statements, foldl_cons, foldl_append]
      show foldl _ (statement _ width _ mark.1) _ = _
      rw [statement_choiceHead, foldl_append, ihYes _ hm.1.2 hk.2.2.1, filed_filed,
        foldl_cons, statement_close _ _ _ _ (by rw [tail.2]; rfl) rfl hback, filed_filed,
        ihRest _ hm.2 hk.2.2.2.2, filed_filed, Body.placed,
        lineFindings_cons _ _ _ (by rw [head.2]; decide), lineFindings_append,
        lineFindings_append, lineFindings_cons _ _ _ (by rw [tail.2]; decide)]
      simp [markStatements, lineFindings, mark.2]
  | choiceElse head mark yes middle no tail rest ihYes ihNo ihRest =>
    cases mark with
    | none => simp [marked] at hm
    | some mark =>
      simp only [statements, forall_mem_cons, forall_mem_append] at hk
      simp only [marked, Bool.and_eq_true] at hm
      have hback : s.level + 2 - 1 + 1 - (if tail.1.kind = .endIf then 2 else 1) = s.level := by
        rw [tail.2]
        rfl
      rw [statements, foldl_cons, foldl_append]
      show foldl _ (statement _ width _ mark.1) _ = _
      rw [statement_choiceHead, foldl_append, ihYes _ hm.1.1.2 hk.2.2.1, filed_filed,
        foldl_cons, statement_mark _ _ _ (congrArg Kind.isMark middle.2) (by simp), filed_filed, middle.2, foldl_append,
        ihNo _ hm.1.2 hk.2.2.2.2.1, filed_filed, foldl_cons,
        statement_close _ _ _ _ (by rw [tail.2]; rfl) rfl hback, filed_filed,
        ihRest _ hm.2 hk.2.2.2.2.2.2, filed_filed, Body.placed,
        lineFindings_cons _ _ _ (by rw [head.2]; decide), lineFindings_append,
        lineFindings_append, lineFindings_cons _ _ _ (by rw [middle.2]; decide),
        lineFindings_append, lineFindings_cons _ _ _ (by rw [tail.2]; decide)]
      simp [markStatements, lineFindings, mark.2, expectedLevel]

end

/-! ### The items of a program -/

structure Outside (s : Scan) : Prop where
  level : s.level = 0
  stack : s.stack = []
  inFunction : s.inFunction = false
  inMain : s.inMain = false

def gain (s : Scan) (items : List Item) (found : List Diagnostic) : Scan :=
  { s with
    name := s.name <|> items.findSome? Item.name?
    functions := s.functions ++ items.filterMap Item.function?
    main := s.main ++ items.flatMap Item.mainBody
    diagnostics := s.diagnostics ++ found }

theorem Outside.gain {s : Scan} (h : Outside s) (items : List Item) (found : List Diagnostic) :
    Outside (s.gain items found) :=
  { h with }

theorem gain_gain (s : Scan) (xs ys : List Item) (ds ds' : List Diagnostic) :
    (s.gain xs ds).gain ys ds' = s.gain (xs ++ ys) (ds ++ ds') := by
  simp [gain, Option.or_assoc]

section Items

variable {width : Int} {src : Statement → SourceLine}

theorem foldl_statement_item (hsrc : ∀ st, (src st).number = st.line) {s : Scan} (h : Outside s)
    (i : Item) (hm : i.body.marked = true)
    (hk : ∀ st ∈ i.body.statements, st.kind ≠ .unrecognized ∧ st.kind ≠ .legacyArray) :
    (i.placed.map Prod.snd).foldl (fun s st => s.statement width (src st) st) s =
      s.gain [i] (lineFindings width src i.placed) := by
  cases i with
  | program name head =>
    show s.statement width _ head.1 = _
    rw [statement_program, Item.placed, lineFindings_cons _ _ _ (by simp [kind, Form.kind, head.2])]
    simp [gain, Item.name?, Item.function?, Item.mainBody, lineFindings, h.level]
  | function name params head body tail =>
    have hhead : head.1.kind ≠ .comment := by simp [kind, Form.kind, head.2]
    rw [Item.placed, map_cons, map_append, map_snd_placed, foldl_cons, statement_function,
      foldl_append, foldl_statement_body width src body _ hm hk, filed,
      foldl_append_function _ _ rfl rfl]
    show statement _ width _ tail.1 = _
    rw [statement_end, lineFindings_cons _ _ _ hhead, lineFindings_append,
      lineFindings_cons _ _ _ (by simp [tail.2])]
    simp [closeScope, gain, Item.name?, Item.function?, Item.mainBody, h.level, h.inFunction, hsrc, lineFindings]
  | main head body tail =>
    have hhead : head.1.kind ≠ .comment := by simp [kind, Form.kind, head.2]
    have hstored := foldl_append_main (s.statement width (src head.1) head.1) body.statements
      (by rw [statement_main]; exact h.inFunction) (by rw [statement_main])
    rw [Item.placed, map_cons, map_append, map_snd_placed, foldl_cons, foldl_append,
      foldl_statement_body width src body _ hm hk, filed, hstored, statement_main]
    show statement _ width _ tail.1 = _
    rw [statement_end, lineFindings_cons _ _ _ hhead, lineFindings_append,
      lineFindings_cons _ _ _ (by simp [tail.2])]
    simp [closeScope, gain, Item.name?, Item.function?, Item.mainBody, h.level, h.inMain, lineFindings]

theorem foldl_statement_items (hsrc : ∀ st, (src st).number = st.line) (items : List Item)
    {s : Scan} (h : Outside s) (hm : ∀ i ∈ items, i.body.marked = true)
    (hk : ∀ p ∈ items.flatMap Item.placed, p.2.kind ≠ .unrecognized ∧ p.2.kind ≠ .legacyArray) :
    ((items.flatMap Item.placed).map Prod.snd).foldl
        (fun s st => s.statement width (src st) st) s =
      s.gain items (lineFindings width src (items.flatMap Item.placed)) := by
  induction items generalizing s with
  | nil => simp [gain, lineFindings]
  | cons i rest ih =>
    rw [forall_mem_cons] at hm
    rw [flatMap_cons, forall_mem_append] at hk
    have hbody : ∀ st ∈ i.body.statements, st.kind ≠ .unrecognized ∧ st.kind ≠ .legacyArray := by
      intro st hst
      obtain ⟨p, hp, rfl⟩ := mem_map.1 (i.body.map_snd_placed 1 ▸ hst)
      exact hk.1 p (i.mem_placed_of_body hp)
    rw [flatMap_cons, map_append, foldl_append, foldl_statement_item hsrc h i hm.1 hbody,
      ih (h.gain _ _) hm.2 hk.2, gain_gain, lineFindings_append]
    rfl

end Items

theorem foldlM_line {width : Int} {src : Statement → SourceLine} {stmts : List Statement}
    (h : ∀ st ∈ stmts, ∀ s : Scan, s.line width (src st) = .ok (s.statement width (src st) st))
    (s : Scan) :
    (stmts.map src).foldlM (line width) s =
      .ok (stmts.foldl (fun s st => s.statement width (src st) st) s) := by
  induction stmts generalizing s with
  | nil => rfl
  | cons st rest ih =>
    rw [forall_mem_cons] at h
    rw [map_cons, foldlM_cons, h.1 s, foldl_cons, ← ih h.2]
    rfl

end Scan

/-! ### The whole text -/

theorem Statement.Readable.text_ne_nil (h : s.Readable) : s.text ≠ [] := by
  intro hnil
  have hreads := h.reads
  rw [hnil] at hreads
  have hform : s.form = .unrecognized [] := by
    injection hreads with hreads
    exact hreads.symm
  exact h.recognized (congrArg Form.kind hform)

theorem lowerWord_eq_map {t : Text} (h : ∀ c ∈ t, (c == 'İ') = false) :
    lowerWord t = t.map Char.toLower := by
  induction t with
  | nil => rfl
  | cons c t ih =>
    rw [forall_mem_cons] at h
    rw [map_cons, ← ih h.2, lowerWord, flatMap_cons, h.1]
    rfl

theorem lowerWord_of_map_toLower {t : Text} (h : t.map Char.toLower = "inicio") :
    lowerWord t = "inicio" := by
  have hdotted : ∀ c ∈ t, (c == 'İ') = false := by
    intro c hc
    refine beq_false_of_ne fun he => ?_
    have hmem : 'İ'.toLower ∈ t.map Char.toLower := mem_map_of_mem (he ▸ hc)
    rw [h] at hmem
    exact absurd hmem (by decide)
  rw [lowerWord_eq_map hdotted, h]

namespace ProgramTree

variable (tree : ProgramTree) (lead : Nat → Lead)

def sourceLine (s : Statement) : SourceLine :=
  ⟨s.line, tree.lineStart lead s.line, lineText lead s⟩

theorem isBlank_of_mem_lead (k : Nat) : ∀ c ∈ (lead k).1, isBlank c = true := by
  intro c hc
  obtain rfl | rfl := (lead k).2 c hc <;> decide

theorem trim_lineText (h : s.Readable) : trim (lineText lead s) = s.text := by
  rw [lineText, trim_append_of_blank (isBlank_of_mem_lead lead s.line), h.trimmed]

theorem leading_sourceLine (h : s.Readable) :
    (tree.sourceLine lead s).leading = (lead s.line).1 := by
  cases ht : s.text with
  | nil => exact absurd ht h.text_ne_nil
  | cons =>
    rw [sourceLine, lineText, ht]
    exact leading_append (lead s.line).2 (isBlank_head_of_trim_eq (h.trimmed.trans ht)) _ _

theorem line_sourceLine (width : Int) (h : s.Readable) (scan : Scan) :
    scan.line width (tree.sourceLine lead s) =
      .ok (scan.statement width (tree.sourceLine lead s) s) := by
  have htrim : trim (tree.sourceLine lead s).text = s.text := trim_lineText lead h
  have hne : s.text.isEmpty = false := by simpa using h.text_ne_nil
  rw [Scan.line, htrim]
  simp only [hne, h.reads]
  rfl

theorem line_eq {before after : List (Nat × Statement)} {p : Nat × Statement}
    (h : tree.placed = before ++ p :: after) : p.2.line = before.length + 1 := by
  have hnumbers := congrArg (·[before.length]?) tree.numbered
  rw [← placed, h] at hnumbers
  simpa [Nat.add_comm] using hnumbers

theorem linesFrom_eq (before after : List (Nat × Statement)) (h : tree.placed = before ++ after) :
    linesFrom (before.length + 1)
        (before.flatMap fun p => lineText lead p.2 ++ ['\n']).length
        (after.map fun p => lineText lead p.2) =
      after.map fun p => tree.sourceLine lead p.2 := by
  induction after generalizing before with
  | nil => rfl
  | cons p rest ih =>
    have hline := tree.line_eq h
    have hsource : tree.sourceLine lead p.2 = ⟨before.length + 1,
        (before.flatMap fun p => lineText lead p.2 ++ ['\n']).length, lineText lead p.2⟩ := by
      rw [sourceLine, lineStart, hline, h, Nat.add_sub_cancel, take_left]
    have hrest := ih (before ++ [p]) (by simp [h])
    rw [map_cons, linesFrom, map_cons, hsource, ← hrest]
    simp [Nat.add_assoc]

theorem placed_ne_nil : tree.placed ≠ [] := by
  obtain ⟨i, hi, hmain⟩ := countP_pos_iff.1 (tree.oneMain ▸ Nat.one_pos)
  intro hnil
  have hplaced := flatMap_eq_nil_iff.1 hnil i hi
  cases i with
  | program | function => simp [Item.isMain] at hmain
  | main => simp [Item.placed] at hplaced

theorem ofText_layout :
    ofText (tree.layout lead) =
      (tree.placed.map Prod.snd).map (tree.sourceLine lead) := by
  rw [map_map]
  show _ = tree.placed.map fun p => tree.sourceLine lead p.2
  rw [← tree.linesFrom_eq lead [] tree.placed rfl, layout, ofText_join]
  · rfl
  · simpa using tree.placed_ne_nil
  · intro t ht
    obtain ⟨p, hp, rfl⟩ := mem_map.1 ht
    rw [lineText, mem_append]
    rintro (hlead | htext)
    · exact absurd ((lead p.2.line).2 _ hlead) (by decide)
    · exact (tree.readable p hp).oneLine htext
  · intro t ht
    obtain ⟨p, hp, rfl⟩ := mem_map.1 ht
    have hreadable := tree.readable p hp
    have htext := dropLast_concat_getLast hreadable.text_ne_nil
    rw [lineText, ← htext, ← append_assoc, getLast?_concat]
    intro hreturn
    have hblank := isBlank_last_of_trim_eq (hreadable.trimmed.trans htext.symm)
    rw [Option.some.inj hreturn] at hblank
    exact absurd hblank (by decide)

theorem lineFindings_sourceLine (width : Int) :
    Scan.lineFindings width (tree.sourceLine lead) tree.placed = tree.findings width lead := by
  rw [Scan.lineFindings, findings, flatMap_def]
  congr 1
  refine map_congr_left fun p hp => ?_
  rw [Scan.indentFindings, tree.leading_sourceLine lead (tree.readable p hp)]
  rfl

theorem any_inicio :
    ((ofText (tree.layout lead)).any fun l =>
      lowerWord (trim l.text) == "inicio") = true := by
  obtain ⟨i, hi, hmain⟩ := countP_pos_iff.1 (tree.oneMain ▸ Nat.one_pos)
  cases i with
  | program | function => simp [Item.isMain] at hmain
  | main head =>
    have hp : (0, head.1) ∈ tree.placed :=
      mem_flatMap_of_mem hi (mem_cons_self ..)
    rw [ofText_layout, any_eq_true]
    refine ⟨_, mem_map_of_mem (mem_map_of_mem hp), ?_⟩
    rw [sourceLine, trim_lineText lead (tree.readable _ hp),
      lowerWord_of_map_toLower (tree.asciiMain _ hp head.2), beq_self_eq_true]

/-- A program tree that is laid out is read back: the program is the
tree's, and the findings are those of the lines whose run of tabs and
spaces holds a tab or has not the width that their depth asks for. -/
theorem parse_layout (settings : Settings) :
    Program.parse settings (tree.layout lead) =
      .ok ⟨tree.program, tree.findings settings.indentWidth lead⟩ := by
  have hlines : (SourceLine.ofText (tree.layout lead)).foldlM
      (Scan.line settings.indentWidth) {} =
        .ok (Scan.gain {} tree.items (tree.findings settings.indentWidth lead)) := by
    have hread : ∀ st ∈ tree.placed.map Prod.snd, ∀ s : Scan,
        s.line settings.indentWidth (tree.sourceLine lead st) =
          .ok (s.statement settings.indentWidth (tree.sourceLine lead st) st) := by
      intro st hst s
      obtain ⟨p, hp, rfl⟩ := mem_map.1 hst
      exact tree.line_sourceLine lead _ (tree.readable p hp) s
    rw [ofText_layout, Scan.foldlM_line hread, placed,
      Scan.foldl_statement_items (fun _ => rfl) tree.items ⟨rfl, rfl, rfl, rfl⟩ tree.marked
        (fun p hp => ⟨(tree.readable p hp).recognized, (tree.readable p hp).notLegacy⟩),
      ← placed, lineFindings_sourceLine]
  have hmain : ∀ s : Scan, s.reportMissingMain (tree.layout lead) = s := by
    intro s
    rw [Scan.reportMissingMain, if_pos (tree.any_inicio lead)]
  rw [Program.parse, hlines]
  show Except.ok _ = _
  rw [hmain]
  simp [Scan.reportUnclosed, Scan.gain, Scan.program, program]

/-- A tree with a function before the `programa` line, and both branches
of a `si`. -/
def sample : ProgramTree where
  items :=
    [.function "saluda" ["x"] ⟨⟨"funcion saluda(x)", 1, .function "saluda" ["x"]⟩, rfl⟩
      (.plain ⟨⟨"escribir x", 2, .write "x"⟩, rfl⟩ .nil)
      ⟨⟨"fin", 3, .endScope⟩, rfl⟩,
    .program "demo" ⟨⟨"programa demo", 4, .program "demo"⟩, rfl⟩,
    .main ⟨⟨"Inicio", 5, .main⟩, rfl⟩
      (.choiceElse ⟨⟨"si a > 1", 6, .ifTest "a > 1"⟩, rfl⟩
        (some ⟨⟨"entonces", 7, .thenBranch⟩, rfl⟩)
        (.plain ⟨⟨"saluda(a)", 8, .call "saluda"⟩, rfl⟩ .nil)
        ⟨⟨"sino", 9, .elseBranch⟩, rfl⟩
        (.comment ⟨⟨"// nada", 10, .comment "// nada"⟩, rfl⟩ .nil)
        ⟨⟨"finsi", 11, .endIf⟩, rfl⟩ .nil)
      ⟨⟨"fin", 12, .endScope⟩, rfl⟩]
  oneMain := rfl
  oneName := by decide
  marked := by decide
  readable := by decide +kernel
  numbered := by decide
  asciiMain := by decide +kernel

/-- Every line of the sample behind two spaces. -/
def sampleLead (_ : Nat) : Lead :=
  ⟨[' ', ' '], by simp⟩

/-- Behind two spaces each, the lines of the sample at depth one are right,
the comment is not looked at, and the other eight are found. -/
theorem parse_layout_sample :
    Program.parse {} (sample.layout sampleLead) =
        .ok ⟨sample.program, sample.findings 2 sampleLead⟩ ∧
      (sample.findings 2 sampleLead).length = 8 :=
  ⟨parse_layout sample sampleLead {}, by decide +kernel⟩

end ProgramTree

end Pseudocode
