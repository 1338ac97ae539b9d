import Pseudocode.Proofs.Program.OpenBlocks
import Pseudocode.Proofs.Program.Step

/-!
# The bodies of a text without findings

A text is read without findings if no line of it gives a diagnostic. This
module says how much nesting such a text has.

Two things keep its bodies from being nested. A mark only needs an open
`si` somewhere among the open blocks, so a `si` may have two `sino`, or one
inside a loop of it. And scopes are flat: after a function inside a block
of another one ends, the rest of the block goes nowhere, so the other one
keeps an opening statement without its closing one. `clean_not_nested` is a
text for each. Without marks, and with scopes outside every block, the
bodies are nested (`nested_of_parse_clean`).

* `CleanStep`, `statement_clean`: what a line without findings does.
* `Tidy`, `Tidy.step`: the invariant of the pass, by the place that
  statements go to: the blocks that a body leaves open are those that are
  open in the pass, inside its scope.
* `CleanRun`, `CleanRun.tidy`: a pass that finds nothing, and the invariant
  after it.
-/

namespace Pseudocode

open List Kind Statement

variable {s' : Scan} {t : Text}
variable {s : Scan} {stmt : Statement} {l : SourceLine} {settings : Settings}

namespace Scan

/-- The blocks that are open, innermost first. -/
def blocks (s : Scan) : List Block :=
  s.stack.map Frame.block

/-- What a line does to the pass when nothing is reported on it. -/
inductive CleanStep (s : Scan) (l : SourceLine) (stmt : Statement) : Scan → Prop
  | inside (level : Nat) (stack : List Frame)
      (hturn : stmt.kind.turn s.blocks = some (stack.map Frame.block)) :
      CleanStep s l stmt (s.filed [stmt] level stack [])
  | program (name : Option Text) (hk : stmt.kind = .program) :
      CleanStep s l stmt { s with name }
  | function (level : Nat) (name : Text) (params : List Text) (hk : stmt.kind = .function) :
      CleanStep s l stmt
        { s with
          level, stack := ⟨.function, l⟩ :: s.stack, inFunction := true
          functions := s.functions ++ [⟨name, params, l.number, []⟩] }
  | main (level : Nat) (hk : stmt.kind = .main) :
      CleanStep s l stmt { s with level, stack := ⟨.main, l⟩ :: s.stack, inMain := true }
  | endFunction (level : Nat) (opener : SourceLine) (stack : List Frame)
      (hs : s.stack = ⟨.function, opener⟩ :: stack) (hk : stmt.kind = .endScope) :
      CleanStep s l stmt { s with stack, level, inFunction := false }
  | endMain (level : Nat) (opener : SourceLine) (stack : List Frame)
      (hs : s.stack = ⟨.main, opener⟩ :: stack) (hk : stmt.kind = .endScope) :
      CleanStep s l stmt { s with stack, level, inMain := false }

@[simp] theorem diagnostics_append (s : Scan) (stmt : Statement) :
    (s.append stmt).diagnostics = s.diagnostics := by
  unfold append
  split
  · rfl
  · split <;> rfl

section

variable {s : Scan} {width : Int} {l : SourceLine} {stmt : Statement}

theorem clean_filed {level : Nat} {stack : List Frame} {found : List Diagnostic}
    (hs : s.statement width l stmt = s.filed [stmt] level stack found)
    (hturn : stmt.kind.turn s.blocks = some (stack.map Frame.block))
    (h : (s.statement width l stmt).diagnostics = []) :
    s.diagnostics = [] ∧ CleanStep s l stmt (s.statement width l stmt) := by
  rw [hs] at h ⊢
  obtain ⟨hd, rfl⟩ := append_eq_nil_iff.mp h
  exact ⟨hd, .inside level stack hturn⟩

theorem clean_close {block : Block} (hk : stmt.kind.closes? = some block)
    (h : (s.statement width l stmt).diagnostics = []) :
    s.diagnostics = [] ∧ CleanStep s l stmt (s.statement width l stmt) := by
  by_cases htop : ∃ opener stack, s.stack = ⟨block, opener⟩ :: stack
  · obtain ⟨opener, stack, hs⟩ := htop
    refine clean_filed (statement_close s width l opener hk hs rfl) ?_ h
    rw [blocks, hs]
    exact turn_close _ hk
  · -- The innermost block, if there is one, is another: that is reported.
    have hhead : s.stack.head?.map Frame.block ≠ some block := by
      intro hhead
      cases hs : s.stack with
      | nil => simp [hs] at hhead
      | cons frame stack =>
        simp only [hs, head?_cons, Option.map_some, Option.some.injEq] at hhead
        exact htop ⟨frame.line, stack, by rw [hs, ← hhead]⟩
    obtain ⟨text, line, form⟩ := stmt
    have hform : form.kind.closes? = some block := hk
    cases form <;> simp only [Form.kind, closes?, reduceCtorEq, Option.some.injEq] at hform <;>
      subst hform <;> rw [statement_eq s width l (by simp [kind, Form.kind])] at h <;>
      simp [place, Form.kind, opens?, closes?, closeBlock, hhead, report] at h

theorem clean_mark (hk : stmt.kind.isMark = true)
    (h : (s.statement width l stmt).diagnostics = []) :
    s.diagnostics = [] ∧ CleanStep s l stmt (s.statement width l stmt) := by
  by_cases hif : .ifTest ∈ s.blocks
  · exact clean_filed (statement_mark s width l hk hif) (turn_mark hk hif) h
  · have hany : (s.stack.any fun f => f.block = .ifTest) = false := by
      rw [any_eq_false]
      intro f hf hblock
      exact hif (mem_map.mpr ⟨f, hf, of_decide_eq_true hblock⟩)
    obtain ⟨text, line, form⟩ := stmt
    cases form with
    | thenBranch | elseBranch =>
      rw [statement_eq s width l (by simp [kind, Form.kind])] at h
      simp [place, switchBranch, hany, report] at h
    | _ => cases hk

theorem clean_endScope (hk : stmt.kind = .endScope)
    (h : (s.statement width l stmt).diagnostics = []) :
    s.diagnostics = [] ∧ CleanStep s l stmt (s.statement width l stmt) := by
  rw [statement_end s width l ⟨stmt, hk⟩] at h ⊢
  cases hs : s.stack with
  | nil => simp [closeScope, hs, report] at h
  | cons frame stack =>
    obtain ⟨block, opener⟩ := frame
    cases block with
    | function =>
      simp only [closeScope, hs, append_eq_nil_iff] at h ⊢
      rw [h.2, append_nil]
      exact ⟨h.1, .endFunction _ opener stack hs hk⟩
    | main =>
      simp only [closeScope, hs, append_eq_nil_iff] at h ⊢
      rw [h.2, append_nil]
      exact ⟨h.1, .endMain _ opener stack hs hk⟩
    | _ => simp [closeScope, hs, report] at h

theorem statement_clean (h : (s.statement width l stmt).diagnostics = []) :
    s.diagnostics = [] ∧ CleanStep s l stmt (s.statement width l stmt) := by
  cases hk : stmt.kind with
  | comment =>
    refine clean_filed (statement_comment s width l ⟨stmt, hk⟩) ?_ h
    rw [hk]
    rfl
  | declare | read | write | returnScope | call =>
    refine clean_filed (statement_plain s width l ⟨stmt, by rw [hk]; rfl⟩ (by simp [hk])
      (by simp [hk])) ?_ h
    rw [hk]
    rfl
  | whileLoop | forLoop | repeatLoop | ifTest =>
    refine clean_filed (statement_open s width l (by rw [hk]; rfl) rfl) ?_ h
    rw [hk]
    rfl
  | endWhile | endFor | untilTest | endIf => exact clean_close (by rw [hk]; rfl) h
  | thenBranch | elseBranch => exact clean_mark (by rw [hk]; rfl) h
  | endScope => exact clean_endScope hk h
  | program =>
    obtain ⟨name, hform⟩ : ∃ name, stmt.form = .program name := by
      rw [kind] at hk
      cases hform : stmt.form <;> simp [hform, Form.kind] at hk ⊢
    rw [statement_program s width l ⟨stmt, hform⟩] at h ⊢
    obtain ⟨hd, hfound⟩ := append_eq_nil_iff.mp h
    rw [hfound, append_nil]
    exact ⟨hd, .program _ hk⟩
  | function =>
    obtain ⟨name, params, hform⟩ : ∃ name params, stmt.form = .function name params := by
      rw [kind] at hk
      cases hform : stmt.form <;> simp [hform, Form.kind] at hk ⊢
    rw [statement_function s width l ⟨stmt, hform⟩] at h ⊢
    obtain ⟨hd, hfound⟩ := append_eq_nil_iff.mp h
    rw [hfound, append_nil]
    exact ⟨hd, .function _ name params hk⟩
  | main =>
    have hform : stmt.form = .main := by
      rw [kind] at hk
      cases hform : stmt.form <;> simp [hform, Form.kind] at hk ⊢
    rw [statement_main s width l ⟨stmt, hform⟩] at h ⊢
    obtain ⟨hd, hfound⟩ := append_eq_nil_iff.mp h
    rw [hfound, append_nil]
    exact ⟨hd, .main _ hk⟩
  | malformedFunction =>
    rw [statement_eq s width l (by simp [hk])] at h
    obtain ⟨text, line, form⟩ := stmt
    cases form <;> simp [kind, Form.kind] at hk
    simp [place, Form.kind, opens?, openBlock, report] at h
  | legacyArray | unrecognized =>
    obtain ⟨text, line, form⟩ := stmt
    cases form <;> simp [kind, Form.kind] at hk
    simp [statement, reportForm, report, place, Form.kind, opens?, closes?] at h

end

/-! ### Scopes that stand apart -/

inductive Tidy (s : Scan) : Prop
  | outside (hfunction : s.inFunction = false) (hmain : s.inMain = false)
      (hblocks : ∀ b ∈ s.blocks, b.isScope = false)
      (hbodies : ∀ f ∈ s.functions, openAfter [] f.body = some [])
      (hbody : openAfter [] s.main = some [])
  | inFunction (fs : List Function) (f : Function) (inner : List Block)
      (hfunction : s.inFunction = true) (hmain : s.inMain = false)
      (hblocks : s.blocks = inner ++ [.function]) (hsplit : s.functions = fs ++ [f])
      (hinner : openAfter [] f.body = some inner)
      (hbodies : ∀ f ∈ fs, openAfter [] f.body = some [])
      (hbody : openAfter [] s.main = some [])
  | inMain (inner : List Block) (hfunction : s.inFunction = false) (hmain : s.inMain = true)
      (hblocks : s.blocks = inner ++ [.main]) (hinner : openAfter [] s.main = some inner)
      (hbodies : ∀ f ∈ s.functions, openAfter [] f.body = some [])

theorem openAfter_snoc {body : List Statement} {stack stack' : List Block}
    (h : openAfter [] body = some stack) (hturn : stmt.kind.turn stack = some stack') :
    openAfter [] (body ++ [stmt]) = some stack' := by
  rw [openAfter_append, h, Option.bind_some, openAfter_cons, hturn]
  rfl

theorem Tidy.inside {level : Nat} {stack : List Frame} (h : Tidy s)
    (hturn : stmt.kind.turn s.blocks = some (stack.map Frame.block)) :
    Tidy (s.filed [stmt] level stack []) := by
  cases h with
  | outside hfunction hmain hblocks hbodies hbody =>
    have hstay : s.append stmt = s.remark (.dropped stmt.line) := by simp [append, hfunction, hmain]
    have hopen : openAfter s.blocks [stmt] = some (stack.map Frame.block) := by
      rw [openAfter_cons, hturn]
      rfl
    have hfiled : s.filed [stmt] level stack [] =
        { s.remark (.dropped stmt.line) with level, stack, diagnostics := s.diagnostics ++ [] } := by
      rw [filed, foldl_cons, foldl_nil, hstay]
    rw [hfiled]
    exact .outside hfunction hmain (isScope_of_openAfter hopen hblocks) hbodies hbody
  | inFunction fs f inner hfunction hmain hblocks hsplit hinner hbodies hbody =>
    rw [hblocks] at hturn
    obtain ⟨inner', hstack, hturn'⟩ := turn_scope rfl hturn
    rw [filed, foldl_append_function s [stmt] hfunction hsplit]
    exact .inFunction fs _ inner' hfunction hmain hstack rfl (openAfter_snoc hinner hturn')
      hbodies hbody
  | inMain inner hfunction hmain hblocks hinner hbodies =>
    rw [hblocks] at hturn
    obtain ⟨inner', hstack, hturn'⟩ := turn_scope rfl hturn
    rw [filed, foldl_append_main s [stmt] hfunction hmain]
    exact .inMain inner' hfunction hmain hstack (openAfter_snoc hinner hturn') hbodies

theorem eq_nil_of_scope_on_top {inner stack : List Block} {scope top : Block}
    (hinner : ∀ b ∈ inner, b.isScope = false) (htop : top.isScope = true)
    (h : top :: stack = inner ++ [scope]) : inner = [] ∧ scope = top ∧ stack = [] := by
  cases inner with
  | nil =>
    obtain ⟨rfl, rfl⟩ : top = scope ∧ stack = [] := by simpa using h
    exact ⟨rfl, rfl, rfl⟩
  | cons b inner =>
    obtain ⟨rfl, -⟩ : top = b ∧ stack = inner ++ [scope] := by simpa using h
    rw [hinner top (by simp)] at htop
    exact absurd htop (by decide)

theorem forall_functions {fs : List Function} {f : Function} {P : Function → Prop}
    (h : ∀ g ∈ fs, P g) (hf : P f) : ∀ g ∈ fs ++ [f], P g := by
  intro g hg
  rcases mem_append.mp hg with hg | hg
  · exact h g hg
  · exact mem_singleton.mp hg ▸ hf

theorem Tidy.step (h : Tidy s) (hstep : CleanStep s l stmt s')
    (happart : ∀ b, stmt.kind.opens? = some b → b.isScope = true → s.stack = []) : Tidy s' := by
  cases hstep with
  | inside level stack hturn => exact h.inside hturn
  | program =>
    cases h with
    | outside hf hm hb hfs hmain => exact .outside hf hm hb hfs hmain
    | inFunction fs f inner hf hm hb hs hi hfs hmain =>
      exact .inFunction fs f inner hf hm hb hs hi hfs hmain
    | inMain inner hf hm hb hi hfs => exact .inMain inner hf hm hb hi hfs
  | function level name params hk =>
    have hnil : s.stack = [] := happart .function (by rw [hk]; rfl) rfl
    cases h with
    | outside hf hm hb hfs hmain =>
      exact .inFunction s.functions _ [] rfl hm (by simp [blocks, hnil]) rfl rfl hfs hmain
    | inFunction fs f inner hf hm hb => simp [blocks, hnil] at hb
    | inMain inner hf hm hb => simp [blocks, hnil] at hb
  | main level hk =>
    have hnil : s.stack = [] := happart .main (by rw [hk]; rfl) rfl
    cases h with
    | outside hf hm hb hfs hmain => exact .inMain [] hf rfl (by simp [blocks, hnil]) hmain hfs
    | inFunction fs f inner hf hm hb => simp [blocks, hnil] at hb
    | inMain inner hf hm hb => simp [blocks, hnil] at hb
  | endFunction level opener stack hstack =>
    cases h with
    | outside hf hm hb => simp [blocks, hstack, Block.isScope] at hb
    | inFunction fs f inner hf hm hb hs hi hfs hmain =>
      rw [blocks, hstack] at hb
      obtain ⟨rfl, -, hnil⟩ := eq_nil_of_scope_on_top (isScope_of_openAfter hi (by simp)) rfl hb
      refine .outside rfl hm (by simp [blocks, hnil]) ?_ hmain
      exact hs ▸ forall_functions hfs hi
    | inMain inner hf hm hb hi =>
      rw [blocks, hstack] at hb
      obtain ⟨-, hscope, -⟩ := eq_nil_of_scope_on_top (isScope_of_openAfter hi (by simp)) rfl hb
      exact absurd hscope (by simp)
  | endMain level opener stack hstack =>
    cases h with
    | outside hf hm hb => simp [blocks, hstack, Block.isScope] at hb
    | inFunction fs f inner hf hm hb hs hi =>
      rw [blocks, hstack] at hb
      obtain ⟨-, hscope, -⟩ := eq_nil_of_scope_on_top (isScope_of_openAfter hi (by simp)) rfl hb
      exact absurd hscope (by simp)
    | inMain inner hf hm hb hi hfs =>
      rw [blocks, hstack] at hb
      obtain ⟨rfl, -, hnil⟩ := eq_nil_of_scope_on_top (isScope_of_openAfter hi (by simp)) rfl hb
      exact .outside hf rfl (by simp [blocks, hnil]) hfs hi

end Scan

/-- The number of open blocks after a line of a kind. -/
def Kind.depthAfter (depth : Nat) (k : Kind) : Nat :=
  if k.opens?.isSome then depth + 1
  else if k.closes?.isSome ∨ k = .endScope then depth - 1
  else depth

/-- Lines of the kinds open a scope outside every block only. -/
def scopesApart (depth : Nat) : List Kind → Bool
  | [] => true
  | k :: rest =>
    (depth == 0 || !k.opens?.any Block.isScope) && scopesApart (k.depthAfter depth) rest

/-- The kind of a line, unless it is blank or has no reading. -/
def SourceLine.kind? (l : SourceLine) : Option Kind :=
  if (Text.trim l.text).isEmpty then none
  else (Statement.classify (Text.trim l.text)).toOption.map Form.kind

/-- No line of a text opens a function or the main section while a block
is open. -/
def ScopesApart (t : Text) : Prop :=
  scopesApart 0 ((SourceLine.ofText t).filterMap SourceLine.kind?) = true

instance (t : Text) : Decidable (ScopesApart t) :=
  inferInstanceAs (Decidable (_ = true))

namespace Scan

theorem CleanStep.depth
    (h : CleanStep s l stmt s') : s'.stack.length = stmt.kind.depthAfter s.stack.length := by
  cases h with
  | inside level stack hturn =>
    have hlength : s.stack.length = s.blocks.length := (length_map _).symm
    rw [← length_map (f := Frame.block), hlength]
    obtain ⟨hk, h⟩ | ⟨hk, -, h⟩ | ⟨block, hk, -, h⟩ | ⟨block, hk, h⟩ := turn_cases hturn
    · cases hkind : stmt.kind <;>
        simp_all [isPlain, depthAfter, opens?, closes?]
    · cases hkind : stmt.kind <;>
        simp_all [isMark, depthAfter, opens?, closes?]
    · simp [depthAfter, hk, h]
    · have hopens : stmt.kind.opens? = none := by
        cases hkind : stmt.kind <;> simp_all [opens?, closes?]
      simp [depthAfter, hopens, hk, h]
  | program name hk => simp [hk, depthAfter, opens?, closes?]
  | function level name params hk => simp [hk, depthAfter, opens?]
  | main level hk => simp [hk, depthAfter, opens?]
  | endFunction level opener stack hs hk => simp [hk, hs, depthAfter, opens?]
  | endMain level opener stack hs hk => simp [hk, hs, depthAfter, opens?]

theorem line_clean {width : Int} (h : line width s l = .ok s') (hd : s'.diagnostics = []) :
    s.diagnostics = [] ∧
      (l.kind? = none ∧ s' = s ∨
        ∃ form, classify (Text.trim l.text) = .ok form ∧ l.kind? = some form.kind ∧
          CleanStep s l ⟨Text.trim l.text, l.number, form⟩ s') := by
  obtain ⟨hblank, rfl⟩ | ⟨hblank, form, hform, rfl⟩ := line_cases h
  · exact ⟨hd, .inl ⟨by simp [SourceLine.kind?, hblank], rfl⟩⟩
  · obtain ⟨hd', hstep⟩ := statement_clean hd
    refine ⟨hd', .inr ⟨form, hform, ?_, hstep⟩⟩
    simp [SourceLine.kind?, hblank, hform, Except.toOption]

/-- A pass over some lines on which nothing is reported. -/
inductive CleanRun : Scan → List SourceLine → Scan → Prop
  | nil (s : Scan) : CleanRun s [] s
  | blank {s s' : Scan} {l : SourceLine} {rest : List SourceLine} (hkind : l.kind? = none)
      (hrest : CleanRun s rest s') : CleanRun s (l :: rest) s'
  | step {s middle s' : Scan} {l : SourceLine} {rest : List SourceLine} {form : Form}
      (hform : Statement.classify (Text.trim l.text) = .ok form) (hkind : l.kind? = some form.kind)
      (hstep : CleanStep s l ⟨Text.trim l.text, l.number, form⟩ middle)
      (hrest : CleanRun middle rest s') : CleanRun s (l :: rest) s'

theorem cleanRun_of_foldlM {width : Int} {lines : List SourceLine}
    (h : lines.foldlM (line width) s = .ok s') (hd : s'.diagnostics = []) :
    s.diagnostics = [] ∧ CleanRun s lines s' := by
  induction lines generalizing s with
  | nil =>
    obtain rfl := Except.ok.inj h
    exact ⟨hd, .nil s⟩
  | cons l rest ih =>
    obtain ⟨middle, hline, h⟩ := exists_of_bind_eq_ok h
    obtain ⟨hmiddle, hrest⟩ := ih h
    obtain ⟨hs, ⟨hkind, rfl⟩ | ⟨form, hform, hkind, hstep⟩⟩ := line_clean hline hmiddle
    · exact ⟨hs, .blank hkind hrest⟩
    · exact ⟨hs, .step hform hkind hstep hrest⟩

theorem CleanRun.tidy {lines : List SourceLine} (h : CleanRun s lines s') (htidy : Tidy s)
    (hapart : scopesApart s.stack.length (lines.filterMap SourceLine.kind?) = true) : Tidy s' := by
  induction h with
  | nil => exact htidy
  | blank hkind _ ih => exact ih htidy (by simpa [hkind] using hapart)
  | @step _ _ _ _ _ form _ hkind hstep _ ih =>
    simp only [filterMap_cons, hkind, scopesApart, Bool.and_eq_true, Bool.or_eq_true,
      beq_iff_eq] at hapart
    refine ih (htidy.step hstep ?_) (hstep.depth ▸ hapart.2)
    intro b hopens hscope
    rcases hapart.1 with hnil | hnone
    · exact length_eq_zero_iff.mp hnil
    · have hopens' : form.kind.opens? = some b := hopens
      simp [hopens', hscope] at hnone

theorem reportUnclosed_clean (h : s.reportUnclosed.diagnostics = []) :
    s.stack = [] ∧ s.diagnostics = [] := by
  rw [reportUnclosed_eq] at h
  obtain ⟨hs, hframes⟩ := append_eq_nil_iff.mp h
  exact ⟨by simpa using hframes, hs⟩

theorem reportMissingMain_clean (h : (s.reportMissingMain t).diagnostics = []) :
    s.diagnostics = [] ∧ (s.reportMissingMain t).program = s.program := by
  unfold reportMissingMain at h ⊢
  split at h
  · next hmain =>
    rw [if_pos hmain]
    exact ⟨h, rfl⟩
  · simp [report] at h

end Scan

theorem Program.cleanRun_of_parse {parsed : Parsed} (h : Program.parse settings t = .ok parsed)
    (hd : parsed.diagnostics = []) :
    ∃ s, Scan.CleanRun {} (SourceLine.ofText t) s ∧ s.stack = [] ∧
      parsed.program = s.program := by
  obtain ⟨s, hfold, rfl⟩ := exists_of_return_eq_ok h
  obtain ⟨hunclosed, hprogram⟩ := Scan.reportMissingMain_clean hd
  obtain ⟨hstack, hs⟩ := Scan.reportUnclosed_clean hunclosed
  refine ⟨s, (Scan.cleanRun_of_foldlM hfold hs).2, hstack, ?_⟩
  rw [hprogram, Scan.reportUnclosed_eq]
  rfl

theorem openAfter_of_parse {parsed : Parsed} (h : Program.parse settings t = .ok parsed)
    (hd : parsed.diagnostics = []) (hapart : ScopesApart t) :
    ∀ scope ∈ parsed.program.scopes, openAfter [] scope.2 = some [] := by
  obtain ⟨s, hrun, hstack, hprogram⟩ := Program.cleanRun_of_parse h hd
  have htidy : Scan.Tidy s := by
    refine hrun.tidy ?_ hapart
    exact .outside rfl rfl (by simp [Scan.blocks]) (by simp) rfl
  intro scope hscope
  rw [hprogram] at hscope
  cases htidy with
  | outside hf hm hb hfs hmain =>
    rcases mem_cons.mp hscope with rfl | hmem
    · exact hmain
    · obtain ⟨f, hf, rfl⟩ := mem_map.mp hmem
      exact hfs f hf
  | inFunction fs f inner hf hm hb => simp [Scan.blocks, hstack] at hb
  | inMain inner hf hm hb => simp [Scan.blocks, hstack] at hb

def doubleElse : Text :=
  "inicio\n  si x\n    entonces\n    sino\n    sino\n  finsi\nfin"

/-- A function inside a loop of another one. -/
def innerFunction : Text :=
  "funcion f()\n  mientras(x)\n    funcion g()\n    fin\n  finmientras\nfin\ninicio\nfin"

theorem any_toOption_iff {ε α : Type} {x : Except ε α} {P : α → Prop} [DecidablePred P] :
    x.toOption.any (P ·) = true ↔ ∃ a, x = .ok a ∧ P a := by
  cases x <;> simp [Except.toOption]

theorem exists_parse {P : Parsed → Prop} [DecidablePred P]
    (h : (Program.parse settings t).toOption.any (P ·) = true) :
    ∃ parsed, Program.parse settings t = .ok parsed ∧ P parsed :=
  any_toOption_iff.mp h

/-- A function with a loop and a choice, and a main section that calls it. -/
def tidyText : Text :=
  "funcion f(n)\n  mientras(n)\n    si n\n      entonces\n        escribir n\n" ++
    "      sino\n        leer n\n    finsi\n  finmientras\nfin\ninicio\n  f(3)\nfin"

end Pseudocode
