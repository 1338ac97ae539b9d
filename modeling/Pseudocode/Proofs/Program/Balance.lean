import Pseudocode.Proofs.Program.Clean

/-!
# Closing lines as brackets

The lines of a text that open and close blocks are brackets of six kinds,
where `fin` closes the two kinds of scopes. The pass reports a closing line
that finds another bracket open than its own, or none, and takes the
innermost bracket off all the same. So a wrong closing line shifts what the
later ones are judged against, and the findings say more than the counts
of the brackets.

* `Token`, `tokens`: the lines of a text that count, with their kinds.
* `Balanced`: the bracket words.
* `Nest`, `Scan.nest`: what the pass knows about brackets, with one lemma
  for each operation of it; `nest_statement` is the step and
  `foldlM_line_nest` the run over the lines.
* `Nest.run_iff_balanced`: a run without blame that leaves nothing open
  is the run of a bracket word.

Some texts have no program at all, because one of their lines cannot be
read (`Program.not_every_text_parsed`). `Legible` leaves them out.
-/

namespace Pseudocode

open Text List SourceLine Kind

variable {tok : Token} {k : Kind} {b : Block} {l : SourceLine}

/-! ### Bracket words -/

def Kind.isCloser (k : Kind) : Bool :=
  k.closes?.isSome || k = .endScope

def Kind.ends (k : Kind) (b : Block) : Bool :=
  if k = .endScope then b.isScope else k.closes? = some b

theorem Kind.isCloser_of_ends (h : k.ends b = true) : k.isCloser = true := by
  unfold ends at h
  unfold isCloser
  split at h
  · next hend => simp [hend]
  · simp [of_decide_eq_true h]

theorem Kind.opens?_of_isCloser (h : k.isCloser = true) : k.opens? = none := by
  cases k <;> first | rfl | exact absurd h (by decide)

theorem Kind.isCloser_of_opens? (h : k.opens? = some b) : k.isCloser = false := by
  cases hk : k.isCloser with
  | false => rfl
  | true => simp [opens?_of_isCloser hk] at h

/-- The kinds of lines whose brackets match. -/
inductive Balanced : List Kind → Prop
  | nil : Balanced []
  | neutral {k : Kind} {rest : List Kind} (hopen : k.opens? = none)
      (hclose : k.isCloser = false) (hrest : Balanced rest) : Balanced (k :: rest)
  | block {opener closer : Kind} {b : Block} {inner rest : List Kind}
      (hopen : opener.opens? = some b) (hclose : closer.ends b = true)
      (hinner : Balanced inner) (hrest : Balanced rest) :
      Balanced (opener :: (inner ++ closer :: rest))

theorem Balanced.append {u v : List Kind} (hu : Balanced u) (hv : Balanced v) :
    Balanced (u ++ v) := by
  induction hu with
  | nil => exact hv
  | neutral hopen hclose _ ih => exact .neutral hopen hclose ih
  | block hopen hclose hinner _ _ ih =>
    rw [cons_append, append_assoc]
    exact .block hopen hclose hinner ih

/-- The number of closing lines that find a block open, from a number of
open blocks on. -/
def closersInside (depth : Nat) : List Kind → Nat
  | [] => 0
  | k :: rest =>
    (if k.isCloser && depth != 0 then 1 else 0) + closersInside (k.depthAfter depth) rest

/-- A line that is neither blank nor a comment, with its kind. -/
structure Token where
  line : SourceLine
  kind : Kind
deriving DecidableEq, Repr

/-- The token of a line, unless it is blank, a comment or has no reading. -/
def SourceLine.token? (l : SourceLine) : Option Token :=
  (l.kind?.filter (· ≠ .comment)).map (Token.mk l)

def tokens (t : Text) : List Token :=
  (SourceLine.ofText t).filterMap SourceLine.token?

def Token.frame? (tok : Token) : Option Frame :=
  tok.kind.opens?.map (⟨·, tok.line⟩)

/-- Every line of a text is blank or has a reading. -/
def Legible (t : Text) : Prop :=
  ∀ l ∈ SourceLine.ofText t, (trim l.text).isEmpty = true ∨ l.kind?.isSome = true

instance (t : Text) : Decidable (Legible t) :=
  inferInstanceAs (Decidable (∀ l ∈ SourceLine.ofText t, _))

/-! ### The brackets of the pass -/

/-- The code of a finding on a closing line. -/
def DiagnosticCode.blamesCloser (c : DiagnosticCode) : Bool :=
  c = .unmatchedCloser || c = .mismatchedCloser

structure Nest where
  /-- The open blocks, innermost first. -/
  stack : List Frame
  /-- A closing line was reported. -/
  blamed : Bool
  /-- The findings on open blocks. -/
  unclosed : List Diagnostic
deriving DecidableEq, Repr

namespace Nest

/-- A token against the innermost open block. -/
def fits (stack : List Frame) (tok : Token) : Bool :=
  !tok.kind.isCloser || stack.head?.any (tok.kind.ends ·.block)

/-- The open blocks after a token: every closing line takes one off. -/
def stackAfter (stack : List Frame) (tok : Token) : List Frame :=
  match tok.frame? with
  | some frame => frame :: stack
  | none => if tok.kind.isCloser then stack.tail else stack

def step (n : Nest) (tok : Token) : Nest :=
  { n with stack := stackAfter n.stack tok, blamed := n.blamed || !fits n.stack tok }

theorem step_neutral (n : Nest) (hopen : tok.kind.opens? = none)
    (hclose : tok.kind.isCloser = false) : n.step tok = n := by
  simp [step, stackAfter, fits, Token.frame?, hopen, hclose]

theorem step_open (n : Nest) (h : tok.kind.opens? = some b) :
    n.step tok = { n with stack := ⟨b, tok.line⟩ :: n.stack } := by
  simp [step, stackAfter, fits, Token.frame?, h, isCloser_of_opens? h]

theorem step_close (n : Nest) (h : tok.kind.isCloser = true) :
    n.step tok =
      { n with
        stack := n.stack.tail
        blamed := n.blamed || !n.stack.head?.any (tok.kind.ends ·.block) } := by
  simp [step, stackAfter, fits, Token.frame?, opens?_of_isCloser h, h]

end Nest

namespace Scan

def nest (s : Scan) : Nest :=
  ⟨s.stack, s.diagnostics.any (·.code.blamesCloser),
    s.diagnostics.filter (·.code = .unclosedBlock)⟩

section

variable (s : Scan) (width : Int) (l : SourceLine) (stmt : Statement)

theorem nest_append : (s.append stmt).nest = s.nest := by
  unfold append
  split
  · rfl
  · split <;> rfl

theorem nest_report {code : DiagnosticCode} (span : Span) (message : Text)
    (hblame : code.blamesCloser = false) (hcode : code ≠ .unclosedBlock) :
    (s.report code span message).nest = s.nest := by
  simp [nest, report, Diagnostic.of, hblame, hcode]

theorem nest_report_closer {code : DiagnosticCode} (span : Span) (message : Text)
    (hblame : code.blamesCloser = true) (hcode : code ≠ .unclosedBlock) :
    (s.report code span message).nest = { s.nest with blamed := true } := by
  simp [nest, report, Diagnostic.of, hblame, hcode]

theorem nest_checkTabs : (s.checkTabs l).nest = s.nest := by
  unfold checkTabs
  split
  · exact nest_report s _ _ (by decide) (by decide)
  · rfl

theorem nest_checkSpaces (kind : Kind) : (s.checkSpaces width l kind).nest = s.nest := by
  unfold checkSpaces
  dsimp only
  split
  · rfl
  · exact nest_report s _ _ (by decide) (by decide)

theorem nest_reportForm (form : Form) : (s.reportForm l form).nest = s.nest := by
  cases form with
  | unrecognized => exact nest_report s _ _ (by decide) (by decide)
  | legacyArray =>
    rw [reportForm, nest_report _ _ _ (by decide) (by decide)]
    exact nest_report s _ _ (by decide) (by decide)
  | _ => rfl

theorem nest_openBlock (block : Block) (l : SourceLine) (stmt : Statement) :
    (s.openBlock block l stmt).nest = { s.nest with stack := ⟨block, l⟩ :: s.stack } := by
  unfold openBlock
  split
  · exact nest_report { s with level := s.level + 1, stack := ⟨block, l⟩ :: s.stack } _ _
      (by decide) (by decide)
  · rfl
  · rfl
  · exact nest_append _ stmt

theorem nest_closeBlock (wanted : Block) (l : SourceLine) (stmt : Statement) :
    (s.closeBlock wanted l stmt).nest =
      { s.nest with
        stack := s.stack.tail
        blamed := s.nest.blamed || !s.stack.head?.any (·.block = wanted) } := by
  unfold closeBlock
  dsimp only
  split
  · next htop =>
    have hany : s.stack.head?.any (·.block = wanted) = true := by
      cases hhead : s.stack.head? with
      | none => simp [hhead] at htop
      | some => simpa [hhead] using htop
    rw [nest_append, hany]
    simp [nest]
  · next htop =>
    have hany : s.stack.head?.any (·.block = wanted) = false := by
      cases hhead : s.stack.head? with
      | none => rfl
      | some => simpa [hhead] using htop
    rw [nest_report_closer _ _ _ (by decide) (by decide), hany]
    simp [nest]

theorem nest_closeScope :
    (s.closeScope l).nest =
      { s.nest with
        stack := s.stack.tail
        blamed := s.nest.blamed || !s.stack.head?.any (·.block.isScope) } := by
  unfold closeScope
  split
  · next hnil =>
    rw [nest_report_closer s _ _ (by decide) (by decide)]
    simp [nest, hnil]
  · next frame stack hcons =>
    obtain ⟨block, opener⟩ := frame
    cases block with
    | function | main => simp [nest, hcons, Block.isScope]
    | _ =>
      rw [nest_report_closer _ _ _ (by decide) (by decide)]
      simp [nest, hcons, Block.isScope]

theorem nest_switchBranch : (s.switchBranch l stmt).nest = s.nest := by
  unfold switchBranch
  split
  · exact nest_append _ stmt
  · exact nest_report s _ _ (by decide) (by decide)

theorem nest_place : (s.place l stmt).nest = s.nest.step ⟨l, stmt.kind⟩ := by
  obtain ⟨text, line, form⟩ := stmt
  cases form with
  | program =>
    rw [Nest.step_neutral _ rfl rfl, place]
    dsimp only
    split <;> rfl
  | thenBranch | elseBranch =>
    rw [Nest.step_neutral _ rfl rfl]
    exact nest_switchBranch s l _
  | function | malformedFunction | main | whileLoop | forLoop | repeatLoop | ifTest =>
    rw [Nest.step_open _ rfl]
    exact nest_openBlock s _ l _
  | endScope => exact nest_closeScope s l
  | endWhile | endFor | untilTest | endIf =>
    rw [Nest.step_close _ rfl]
    refine (nest_closeBlock s _ l _).trans ?_
    simp [nest, ends, Statement.kind, Form.kind, closes?, eq_comm]
  | _ =>
    rw [Nest.step_neutral _ rfl rfl]
    exact nest_append s _

theorem nest_statement_comment {stmt : Statement}
    (h : stmt.kind = .comment) : (s.statement width l stmt).nest = s.nest := by
  obtain ⟨text, line, form⟩ := stmt
  cases form <;> first | exact nest_append s _ | simp [Statement.kind, Form.kind] at h

theorem nest_statement {stmt : Statement}
    (h : stmt.kind ≠ .comment) : (s.statement width l stmt).nest = s.nest.step ⟨l, stmt.kind⟩ := by
  obtain ⟨text, line, form⟩ := stmt
  have hchecks : ∀ s : Scan, ∀ form : Form,
      (((s.checkTabs l).checkSpaces width l form.kind).reportForm l form).nest = s.nest := by
    intro s form
    rw [nest_reportForm, nest_checkSpaces, nest_checkTabs]
  unfold statement
  cases form with
  | comment => exact absurd rfl h
  | unrecognized =>
    rw [nest_place, hchecks]
    rfl
  | _ => rw [nest_place, hchecks]

end

theorem line_nest (width : Int) (s : Scan)
    (h : (trim l.text).isEmpty = true ∨ l.kind?.isSome = true) :
    ∃ s', line width s l = .ok s' ∧ s'.nest = l.token?.toList.foldl Nest.step s.nest := by
  unfold line token? kind?
  cases hblank : (trim l.text).isEmpty with
  | true => exact ⟨s, by simp [hblank], by simp⟩
  | false =>
    cases hform : Statement.classify (trim l.text) with
    | error => simp [kind?, hblank, hform, Except.toOption] at h
    | ok form =>
      have hkind : (⟨trim l.text, l.number, form⟩ : Statement).kind = form.kind := rfl
      refine ⟨s.statement width l ⟨trim l.text, l.number, form⟩, ?_, ?_⟩
      · simp only [hblank, hform]
        rfl
      by_cases hc : form.kind = .comment
      · rw [nest_statement_comment s width l (hkind.trans hc)]
        simp [Except.toOption, hc, Option.filter]
      · rw [nest_statement s width l (hkind ▸ hc), hkind]
        simp [Except.toOption, hc, Option.filter]

theorem foldlM_line_nest (width : Int) {lines : List SourceLine}
    (h : ∀ l ∈ lines, (trim l.text).isEmpty = true ∨ l.kind?.isSome = true) (s : Scan) :
    ∃ s', lines.foldlM (line width) s = .ok s' ∧
      s'.nest = (lines.filterMap token?).foldl Nest.step s.nest := by
  induction lines generalizing s with
  | nil => exact ⟨s, rfl, rfl⟩
  | cons l rest ih =>
    rw [forall_mem_cons] at h
    obtain ⟨middle, hline, hmiddle⟩ := line_nest width s h.1
    obtain ⟨s', hrest, hs'⟩ := ih h.2 middle
    refine ⟨s', by simpa [hline, bind, Except.bind] using hrest, ?_⟩
    rw [hs', hmiddle]
    cases htok : l.token? <;> simp [htok]

theorem nest_reportUnclosed (s : Scan) :
    s.reportUnclosed.nest =
      { s.nest with unclosed := s.nest.unclosed ++ s.stack.reverse.map Frame.unclosed } := by
  have hblame : DiagnosticCode.unclosedBlock.blamesCloser = false := by decide
  have hall (frames : List Frame) : (frames.map Frame.unclosed).filter
      (·.code = .unclosedBlock) = frames.map Frame.unclosed :=
    filter_eq_self.mpr (by simp [Frame.unclosed, Diagnostic.of])
  rw [reportUnclosed_eq]
  simp [nest, Frame.unclosed, Diagnostic.of, hblame]

theorem nest_reportMissingMain (s : Scan) (t : Text) : (s.reportMissingMain t).nest = s.nest := by
  unfold reportMissingMain
  split
  · rfl
  · exact nest_report s _ _ (by decide) (by decide)

end Scan

/-! ### Runs over tokens -/

namespace Nest

@[simp] theorem stack_step (n : Nest) (tok : Token) :
    (n.step tok).stack = stackAfter n.stack tok := rfl

@[simp] theorem unclosed_foldl_step (n : Nest) (toks : List Token) :
    (toks.foldl step n).unclosed = n.unclosed := by
  induction toks generalizing n with
  | nil => rfl
  | cons tok rest ih => exact ih (n.step tok)

theorem blamed_foldl_step {n : Nest} (h : n.blamed = true) (toks : List Token) :
    (toks.foldl step n).blamed = true := by
  induction toks generalizing n with
  | nil => exact h
  | cons tok rest ih => exact ih (by simp [step, h])

theorem foldl_step_of_balanced {ks : List Kind} (h : Balanced ks) {toks : List Token}
    (hks : toks.map Token.kind = ks) (n : Nest) : toks.foldl step n = n := by
  induction h generalizing toks n with
  | nil => simp_all
  | neutral hopen hclose _ ih =>
    obtain ⟨tok, rest, rfl, rfl, hrest⟩ := map_eq_cons_iff.mp hks
    rw [foldl_cons, step_neutral n hopen hclose, ih hrest]
  | block hopen hclose _ _ ihinner ihrest =>
    obtain ⟨opener, toks, rfl, rfl, htoks⟩ := map_eq_cons_iff.mp hks
    obtain ⟨inner, tail, rfl, hinner, htail⟩ := map_eq_append_iff.mp htoks
    obtain ⟨closer, rest, rfl, rfl, hrest⟩ := map_eq_cons_iff.mp htail
    rw [foldl_cons, step_open n hopen, foldl_append, ihinner hinner, foldl_cons,
      step_close _ (isCloser_of_ends hclose), ihrest hrest]
    simp [hclose]

/-- The kinds close the open blocks one after another, with bracket words
between and after. -/
def Closes : List Frame → List Kind → Prop
  | [], ks => Balanced ks
  | f :: stack, ks => ∃ inner closer rest, ks = inner ++ closer :: rest ∧ Balanced inner ∧
      closer.ends f.block = true ∧ Closes stack rest

theorem Closes.append {stack : List Frame} {u ks : List Kind} (hu : Balanced u)
    (h : Closes stack ks) : Closes stack (u ++ ks) := by
  cases stack with
  | nil => exact hu.append h
  | cons =>
    obtain ⟨inner, closer, rest, rfl, hinner, hends, hrest⟩ := h
    exact ⟨u ++ inner, closer, rest, (append_assoc ..).symm, hu.append hinner, hends, hrest⟩

theorem closes_of_foldl_step {toks : List Token} {n : Nest}
    (hblamed : (toks.foldl step n).blamed = false) (hstack : (toks.foldl step n).stack = []) :
    Closes n.stack (toks.map Token.kind) := by
  induction toks generalizing n with
  | nil =>
    rw [foldl_nil] at hstack
    rw [hstack]
    exact Balanced.nil
  | cons tok rest ih =>
    have hrest : Closes (n.step tok).stack (rest.map Token.kind) := ih hblamed hstack
    have hstep : (n.step tok).blamed = false := by
      cases hb : (n.step tok).blamed with
      | false => rfl
      | true => exact absurd (blamed_foldl_step hb rest) (by simpa using hblamed)
    cases hopen : tok.kind.opens? with
    | some =>
      rw [step_open n hopen] at hrest
      obtain ⟨inner, closer, after, heq, hinner, hends, hafter⟩ := hrest
      have hblock : Balanced (tok.kind :: (inner ++ [closer])) :=
        .block hopen hends hinner .nil
      have := hafter.append hblock
      rwa [cons_append, append_assoc, singleton_append, ← heq] at this
    | none =>
      cases hclose : tok.kind.isCloser with
      | false =>
        rw [step_neutral n hopen hclose] at hrest
        exact hrest.append (.neutral hopen hclose .nil)
      | true =>
        rw [step_close n hclose] at hrest hstep
        cases hs : n.stack with
        | nil => simp [hs] at hstep
        | cons f =>
          have hends : tok.kind.ends f.block = true := by simp_all
          exact ⟨[], tok.kind, _, rfl, .nil, hends, by simpa [hs] using hrest⟩

theorem run_iff_balanced (toks : List Token) :
    (toks.foldl step ⟨[], false, []⟩).blamed = false ∧
      (toks.foldl step ⟨[], false, []⟩).stack = [] ↔ Balanced (toks.map Token.kind) := by
  constructor
  · rintro ⟨hblamed, hstack⟩
    exact closes_of_foldl_step hblamed hstack
  · intro h
    rw [foldl_step_of_balanced h rfl]
    exact ⟨rfl, rfl⟩

theorem length_stackAfter (stack : List Frame) (tok : Token) :
    (stackAfter stack tok).length = tok.kind.depthAfter stack.length := by
  unfold stackAfter Token.frame? depthAfter
  cases hopen : tok.kind.opens? with
  | some => simp
  | none => cases hclose : tok.kind.isCloser <;> simp_all [isCloser]

theorem length_stack_add_closersInside (toks : List Token) (n : Nest) :
    (toks.foldl step n).stack.length + closersInside n.stack.length (toks.map Token.kind) =
      n.stack.length + (toks.filterMap Token.frame?).length := by
  induction toks generalizing n with
  | nil => rfl
  | cons tok rest ih =>
    have hrest := ih (n.step tok)
    have hstep : (n.step tok).stack.length +
        (if tok.kind.isCloser && n.stack.length != 0 then 1 else 0) =
        n.stack.length + tok.frame?.toList.length := by
      cases hopen : tok.kind.opens? with
      | some => simp [step_open n hopen, Token.frame?, hopen, isCloser_of_opens? hopen]
      | none =>
        cases hclose : tok.kind.isCloser with
        | false => simp [step_neutral n hopen hclose, Token.frame?, hopen]
        | true => cases hs : n.stack <;> simp [step_close n hclose, Token.frame?, hopen, hs]
    have hframes : ((tok :: rest).filterMap Token.frame?).length =
        tok.frame?.toList.length + (rest.filterMap Token.frame?).length := by
      cases hframe : tok.frame? <;> simp [hframe, Nat.add_comm]
    rw [stack_step, length_stackAfter] at hrest hstep
    rw [foldl_cons, map_cons, closersInside]
    omega

theorem reverse_stack_sublist (toks : List Token) (n : Nest) :
    (toks.foldl step n).stack.reverse.Sublist
      (n.stack.reverse ++ toks.filterMap Token.frame?) := by
  induction toks generalizing n with
  | nil => simp
  | cons tok rest ih =>
    refine (ih (n.step tok)).trans ?_
    rw [stack_step, stackAfter]
    cases hframe : tok.frame? with
    | some => simp [hframe]
    | none =>
      have htail : n.stack.tail.reverse.Sublist n.stack.reverse :=
        (tail_sublist n.stack).reverse
      cases tok.kind.isCloser <;> simp [hframe, htail]

end Nest

/-! ### The findings of a text -/

theorem SourceLine.pairwise_number (t : Text) : (ofText t).Pairwise (·.number < ·.number) := by
  rw [← pairwise_map, numbers_ofText]
  exact pairwise_lt_range'

def openers (t : Text) : List Frame :=
  (tokens t).filterMap Token.frame?

theorem SourceLine.line_of_token? (h : l.token? = some tok) : tok.line = l := by
  obtain ⟨k, -, rfl⟩ := Option.map_eq_some_iff.mp h
  rfl

theorem Token.line_of_frame? {f : Frame} (h : tok.frame? = some f) : f.line = tok.line := by
  obtain ⟨b, -, rfl⟩ := Option.map_eq_some_iff.mp h
  rfl

theorem pairwise_openers (t : Text) : (openers t).Pairwise (·.line.number < ·.line.number) := by
  have htokens : (tokens t).Pairwise (·.line.number < ·.line.number) := by
    refine List.Pairwise.filterMap _ ?_ (pairwise_number t)
    intro l l' hlt tok htok tok' htok'
    rwa [line_of_token? htok, line_of_token? htok']
  refine List.Pairwise.filterMap _ ?_ htokens
  intro tok tok' hlt f hf f' hf'
  rwa [Token.line_of_frame? hf, Token.line_of_frame? hf']

theorem exists_parse_nest (settings : Settings) {t : Text} (h : Legible t) :
    ∃ parsed, Program.parse settings t = .ok parsed ∧
      parsed.diagnostics.any (·.code.blamesCloser) =
        ((tokens t).foldl Nest.step ⟨[], false, []⟩).blamed ∧
      parsed.diagnostics.filter (·.code = .unclosedBlock) =
        ((tokens t).foldl Nest.step ⟨[], false, []⟩).stack.reverse.map Frame.unclosed := by
  obtain ⟨s, hfold, hnest⟩ := Scan.foldlM_line_nest settings.indentWidth h {}
  have hend : (s.reportUnclosed.reportMissingMain t).nest = _ :=
    (Scan.nest_reportMissingMain _ t).trans (Scan.nest_reportUnclosed s)
  have hstack : s.stack = ((tokens t).foldl Nest.step ⟨[], false, []⟩).stack :=
    congrArg Nest.stack hnest
  refine ⟨⟨(s.reportUnclosed.reportMissingMain t).program,
    (s.reportUnclosed.reportMissingMain t).diagnostics⟩, ?_, ?_, ?_⟩
  · simp only [Program.parse, hfold]
    rfl
  · have hblamed : s.nest.blamed = ((tokens t).foldl Nest.step ⟨[], false, []⟩).blamed :=
      congrArg Nest.blamed hnest
    exact (congrArg Nest.blamed hend).trans hblamed
  · refine (congrArg Nest.unclosed hend).trans ?_
    rw [hnest, Nest.unclosed_foldl_step, hstack]
    rfl

/-- A loop that `fin` closes, a `si` that nothing closes, and a `finpara`
too many. -/
def shiftedText : Text :=
  "funcion f()\n  mientras(x)\n  fin\nfin\nfinpara\ninicio\n  si x\n    repetir"

def longSText : Text :=
  "inicio\nfinſi"

end Pseudocode
