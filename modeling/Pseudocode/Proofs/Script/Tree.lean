import Pseudocode.Proofs.Nesting
import Pseudocode.Proofs.Origins
import Pseudocode.Script.Emit

/-!
# The script of a body, block by block

The pass over a body writes its lines from the flat list of statements. It
knows the nesting only through a level of indentation and a stack of flags,
one for each open block, which tell whether the block has a line that does
something. This module writes the lines of a nested body by recursion on
its blocks, without either of the two, and proves that the pass writes the
same lines.

* `Passage`: some lines, and the number of output variables in use after
  them.
* `Body.passage`: the lines of a body at a level. A head is followed by the
  lines of its block one level deeper, and by `pass` if all of them are
  comments.
* `Emitter.grown`: the state of the pass after it wrote a passage. Every
  operation of the pass has one equation in terms of it, and passages
  compose (`grown_grown`).
* `Emitter.follows_body`: the run over a nested body, by induction on its
  blocks.
* `Emitter.body_eq_passage`: the same for the body of a routine.
-/

namespace Pseudocode

open List Body Statement
open Listing hiding size

namespace Script

open Text Expression

def Code.isRemark : Code → Bool
  | .comment _ => true
  | _ => false

structure Passage where
  lines : List (ListingLine Code Nat)
  /-- The number of output variables in use after the lines. -/
  outputs : Nat
deriving DecidableEq, Repr

namespace Passage

def acts (p : Passage) : Bool :=
  p.lines.any (!·.code.isRemark)

def none (outputs : Nat) : Passage :=
  ⟨[], outputs⟩

/-- Lines at one level and from one line of the text. -/
def here (level : Int) (origin : Nat) (codes : List Code) (outputs : Nat) : Passage :=
  ⟨codes.map (⟨·, level, some origin⟩), outputs⟩

def remarks (level : Int) (origin : Nat) (t : Text) (outputs : Nat) : Passage :=
  here level origin ((cutAt (· == '\n') t).map Code.comment) outputs

def followed (p q : Passage) : Passage :=
  ⟨p.lines ++ q.lines, q.outputs⟩

/-- The lines of a block at a level, which ends at a line of the text: a
block that does nothing gets a `pass`. -/
def block (p : Passage) (level : Int) (closing : Nat) : Passage :=
  if p.acts then p else p.followed (here level closing [.pass] p.outputs)

@[simp] theorem lines_none (n : Nat) : (none n).lines = [] := rfl

@[simp] theorem lines_here (level : Int) (origin : Nat) (codes : List Code) (n : Nat) :
    (here level origin codes n).lines = codes.map (⟨·, level, some origin⟩) := rfl

@[simp] theorem lines_followed (p q : Passage) : (p.followed q).lines = p.lines ++ q.lines := rfl

@[simp] theorem outputs_none (n : Nat) : (none n).outputs = n := rfl

@[simp] theorem outputs_here (level : Int) (origin : Nat) (codes : List Code) (n : Nat) :
    (here level origin codes n).outputs = n := rfl

@[simp] theorem outputs_remarks (level : Int) (origin : Nat) (t : Text) (n : Nat) :
    (remarks level origin t n).outputs = n := rfl

@[simp] theorem outputs_followed (p q : Passage) : (p.followed q).outputs = q.outputs := rfl

@[simp] theorem outputs_block (p : Passage) (level : Int) (closing : Nat) :
    (p.block level closing).outputs = p.outputs := by
  unfold block
  split <;> rfl

@[simp] theorem none_followed (p : Passage) (n : Nat) : (none n).followed p = p := by
  simp [followed]

@[simp] theorem followed_none (p : Passage) : p.followed (none p.outputs) = p := by
  simp [followed]

theorem followed_assoc (p q r : Passage) :
    (p.followed q).followed r = p.followed (q.followed r) := by
  simp [followed]

@[simp] theorem acts_none (n : Nat) : (none n).acts = false := rfl

@[simp] theorem acts_followed (p q : Passage) : (p.followed q).acts = (p.acts || q.acts) := by
  simp [acts]

@[simp] theorem acts_here (level : Int) (origin : Nat) (codes : List Code) (n : Nat) :
    (here level origin codes n).acts = codes.any (!·.isRemark) := by
  simp [acts, Function.comp_def]

@[simp] theorem acts_remarks (level : Int) (origin : Nat) (t : Text) (n : Nat) :
    (remarks level origin t n).acts = false := by
  simp [remarks, Code.isRemark]

end Passage

/-- The line that heads a block, or the test that ends a loop. -/
def headCode : Form → Except IndexFault Code
  | .whileLoop c => return .whileTest (← condition c)
  | .forLoop counter start stop =>
    return .count counter (← condition start) (← condition stop)
  | .ifTest c | .untilTest c => return .ifTest (← condition c)
  | _ => return .forever

/-- What stands first in the block of a head: a counted loop reports its
rounds. -/
def roundPassage (ctx : Context) (level : Int) (outputs : Nat) (head : Statement) : Passage :=
  match head.form with
  | .forLoop counter _ _ =>
    let state name : SlotState := if name = counter then .forced else .value
    .here level head.line [.trace head.line (ctx.snapshot state) none] outputs
  | _ => .none outputs

/-- The lines of a statement that stands for itself. -/
def plainPassage (ctx : Context) (level : Int) (outputs : Nat) (s : Statement) :
    Except IndexFault Passage := do
  let report (state : Text → SlotState) (output : Option Nat) : Code :=
    .trace s.line (ctx.snapshot state) output
  match s.form with
  | .declare type name size =>
    return .here level s.line [.declare type name size, report Emitter.asIs none] outputs
  | .read _ name index =>
    let target ← match index with
      | some index => shiftCell name index
      | none => pure name
    return .here level s.line [.read target name, report Emitter.asIs none] outputs
  | .write args =>
    let parts ← (arguments args).mapM Emitter.outputPart
    return .here level s.line
      [.compose outputs parts, .write outputs, report Emitter.asIs (some outputs)] (outputs + 1)
  | .returnScope =>
    let leaving := if ctx.inFunction then [report (fun _ => .cleared) none] else []
    return .here level s.line (leaving ++ [.leaveScope]) outputs
  | .call callee =>
    return .here level s.line [.call (ctx.functions.contains callee) (← shift s.text)] outputs
  | _ => return .remarks level s.line s.text outputs

end Script

open Script

def Body.passage (ctx : Context) : Body → Int → Nat → Except Expression.IndexFault Passage
  | .nil, _, outputs => return .none outputs
  | .comment s rest, level, outputs => do
    let after ← rest.passage ctx level outputs
    return (Passage.remarks level s.1.line (commentBody s.1.text) outputs).followed after
  | .plain s rest, level, outputs => do
    let here ← plainPassage ctx level outputs s.1
    let after ← rest.passage ctx level here.outputs
    return here.followed after
  | .pretest _ head body tail rest, level, outputs => do
    let head' := Passage.here level head.1.line [← headCode head.1.form] outputs
    let inside ← body.passage ctx (level + 1) outputs
    let after ← rest.passage ctx level inside.outputs
    let inside := (roundPassage ctx (level + 1) outputs head.1).followed inside
    return (head'.followed (inside.block (level + 1) tail.1.line)).followed after
  | .posttest head body test rest, level, outputs => do
    let head' := Passage.here level head.1.line [.forever] outputs
    let inside ← body.passage ctx (level + 1) outputs
    let test' := Passage.here (level + 1) test.1.line [← headCode test.1.form] inside.outputs
    let leave' := Passage.here (level + 2) test.1.line [.leaveLoop] inside.outputs
    let after ← rest.passage ctx level inside.outputs
    return (head'.followed (inside.followed (test'.followed leave'))).followed after
  | .choice head _ yes tail rest, level, outputs => do
    let head' := Passage.here level head.1.line [← headCode head.1.form] outputs
    let inside ← yes.passage ctx (level + 1) outputs
    let after ← rest.passage ctx level inside.outputs
    return (head'.followed (inside.block (level + 1) tail.1.line)).followed after
  | .choiceElse head _ yes middle no tail rest, level, outputs => do
    let head' := Passage.here level head.1.line [← headCode head.1.form] outputs
    let inside ← yes.passage ctx (level + 1) outputs
    let middle' := Passage.here level middle.1.line [.otherwise] inside.outputs
    let inside' ← no.passage ctx (level + 1) inside.outputs
    let after ← rest.passage ctx level inside'.outputs
    return ((head'.followed (inside.block (level + 1) middle.1.line)).followed
      (middle'.followed (inside'.block (level + 1) tail.1.line))).followed after

namespace Script

namespace Emitter

open Text Expression

/-! ### The pass writes passages -/

def grown (e : Emitter) (origin : Option Nat) (p : Passage) : Emitter where
  listing := { e.listing with origin, lines := e.listing.lines ++ (p.lines.map some).toArray }
  filled := match e.filled with
    | [] => []
    | filled :: outer => (filled || p.acts) :: outer
  outputs := p.outputs

/-- The state of the pass at the start of a block. -/
def entered (e : Emitter) : Emitter :=
  { e with listing := e.listing.indent, filled := false :: e.filled }

variable (e : Emitter) (origin origin' : Option Nat) (p q : Passage)

@[simp] theorem level_grown : (e.grown origin p).listing.level = e.listing.level := rfl

@[simp] theorem level_entered : e.entered.listing.level = e.listing.level + 1 := rfl

theorem head_filled_grown {e : Emitter} (h : e.filled ≠ []) (hacts : p.acts = true) :
    (e.grown origin p).filled.head? = some true := by
  unfold grown
  cases hfilled : e.filled with
  | nil => exact absurd hfilled h
  | cons => simp [hacts]

theorem grown_grown : (e.grown origin p).grown origin' q = e.grown origin' (p.followed q) := by
  unfold grown
  cases e.filled <;> simp [Bool.or_assoc]

theorem grown_none : e.grown e.listing.origin (.none e.outputs) = e := by
  obtain ⟨⟨level, origin, lines⟩, filled, outputs⟩ := e
  cases filled <;> simp [grown]

theorem entered_grown_none :
    (e.grown origin p).entered.grown origin (.none p.outputs) = (e.grown origin p).entered :=
  grown_none _

theorem setOrigin_grown (number : Nat) :
    { e.grown origin p with listing := (e.grown origin p).listing.setOrigin (some number) } =
      e.grown (some number) p := rfl

theorem setOutputs_grown (n : Nat) :
    { e.grown origin p with outputs := n } = e.grown origin (p.followed (.none n)) := by
  simp [grown]

theorem line_grown (number : Nat) (code : Code) (hcode : code.isRemark = false) :
    (e.grown (some number) p).line code =
      e.grown (some number) (p.followed (.here e.listing.level number [code] p.outputs)) := by
  unfold grown line
  cases e.filled <;> simp [emit, hcode]

theorem comment_grown (number : Nat) (t : Text) :
    (e.grown (some number) p).comment t =
      e.grown (some number) (p.followed (.remarks e.listing.level number t p.outputs)) := by
  have hlines : (Passage.remarks e.listing.level number t p.outputs).lines =
      (cutAt (· == '\n') t).map (⟨.comment ·, e.listing.level, some number⟩) := by
    simp [Passage.remarks]
  unfold grown comment
  cases e.filled <;> simp [emitAll_eq, hlines, Function.comp_def]

theorem openBlock_grown (number : Nat) {code : Code} (hcode : code.isRemark = false) :
    (e.grown (some number) p).openBlock code =
      (e.grown (some number)
        (p.followed (.here e.listing.level number [code] p.outputs))).entered := by
  rw [← line_grown _ _ _ _ hcode]
  rfl

/-- A block that is closed is a part of the lines around it. Its head stands
before it, so the block around it has a line that does something. -/
theorem closeBlock_grown (number : Nat) {e : Emitter} (hfilled : e.filled.head? = some true)
    (hlevel : 0 ≤ e.listing.level) :
    (e.entered.grown (some number) p).closeBlock =
      e.grown (some number) (p.block (e.listing.level + 1) number) := by
  obtain ⟨⟨level, origin, lines⟩, filled, outputs⟩ := e
  have hback : max 0 level = level := Int.max_eq_right hlevel
  cases filled with
  | nil => simp at hfilled
  | cons filled =>
    obtain rfl : filled = true := by simpa using hfilled
    cases hacts : p.acts <;>
      simp [grown, entered, closeBlock, Passage.block, indent, dedent, emit, hback, hacts]

theorem leaveIf_grown (number : Nat) (test : Text) {e : Emitter}
    (hfilled : e.filled.head? = some true) (hlevel : 0 ≤ e.listing.level) :
    (e.entered.grown (some number) p).leaveIf test =
      e.grown (some number) (p.followed
        ((Passage.here (e.listing.level + 1) number [.ifTest test] p.outputs).followed
          (.here (e.listing.level + 2) number [.leaveLoop] p.outputs))) := by
  obtain ⟨⟨level, origin, lines⟩, filled, outputs⟩ := e
  have hstart : 0 ≤ level := hlevel
  cases filled with
  | nil => simp at hfilled
  | cons filled =>
    obtain rfl : filled = true := by simpa using hfilled
    simp [grown, entered, leaveIf, line, closeBlock, indent, dedent, emit]
    exact ⟨by omega, by rw [Int.add_assoc]; rfl⟩

/-! ### Statements -/

/-- The line of the text at which the pass over a body is in the end. -/
def lastLine (origin : Option Nat) (body : List Statement) : Option Nat :=
  body.foldl (fun _ s => some s.line) origin

variable (ctx : Context)

theorem statement_comment (s : StatementOf .comment) :
    statement ctx (e.grown origin p) s.1 = pure (e.grown (some s.1.line) (p.followed
      (.remarks e.listing.level s.1.line (commentBody s.1.text) p.outputs))) := by
  obtain ⟨⟨text, line, form⟩, h⟩ := s
  cases form with
  | comment => simp only [statement, setOrigin_grown, comment_grown]
  | _ => cases h

theorem statement_plain (s : PlainStatement) :
    statement ctx (e.grown origin p) s.1 = (do
      return e.grown (some s.1.line)
        (p.followed (← plainPassage ctx e.listing.level p.outputs s.1))) := by
  obtain ⟨⟨text, line, form⟩, h⟩ := s
  unfold statement plainPassage
  simp only [setOrigin_grown]
  cases form with
  | declare =>
    simp only [trace, line_grown _ _ _ (.declare ..) rfl,
      line_grown _ _ _ (.trace ..) rfl, Passage.followed_assoc]
    rfl
  | read target name index =>
    cases index <;>
      simp only [trace, line_grown _ _ _ (.read ..) rfl,
        line_grown _ _ _ (.trace ..) rfl, Passage.followed_assoc, bind_assoc] <;>
      rfl
  | write =>
    simp only [write, trace, setOutputs_grown, line_grown _ _ _ (.compose ..) rfl,
      line_grown _ _ _ (.write ..) rfl, line_grown _ _ _ (.trace ..) rfl,
      Passage.followed_assoc, bind_assoc]
    rfl
  | returnScope =>
    cases ctx.inFunction <;>
      simp only [trace, if_true, Bool.false_eq_true, if_false,
        line_grown _ _ _ .leaveScope rfl, line_grown _ _ _ (.trace ..) rfl,
        Passage.followed_assoc] <;>
      rfl
  | call => simp only [line_grown _ _ _ (.call ..) rfl, bind_assoc, pure_bind]
  | legacyArray | unrecognized => simp only [comment_grown, pure_bind]
  | _ => cases h

theorem statement_head {s : Statement} {block : Block} (h : s.kind.opens? = some block)
    (hblock : block.isScope = false) :
    statement ctx (e.grown origin p) s = (do
      let code ← headCode s.form
      return (e.grown (some s.line) (p.followed
          (.here e.listing.level s.line [code] p.outputs))).entered.grown (some s.line)
        (roundPassage ctx (e.listing.level + 1) p.outputs s)) := by
  obtain ⟨text, line, form⟩ := s
  unfold statement headCode
  simp only [setOrigin_grown]
  cases form with
  | whileLoop c | ifTest c =>
    simp only [bind_assoc]
    refine bind_congr fun test => congrArg Except.ok ?_
    rw [openBlock_grown _ _ _ rfl]
    exact (entered_grown_none ..).symm
  | repeatLoop =>
    rw [openBlock_grown _ _ _ rfl]
    exact congrArg Except.ok (entered_grown_none ..).symm
  | forLoop =>
    simp only [bind_assoc]
    refine bind_congr fun start => bind_congr fun stop => congrArg Except.ok ?_
    rw [openBlock_grown _ _ _ rfl, trace, ← entered_grown_none, line_grown _ _ _ _ rfl]
    rfl
  | _ =>
    simp only [kind, Form.kind, Kind.opens?, reduceCtorEq, Option.some.injEq] at h <;>
    simp [← h, Block.isScope] at hblock

theorem foldlM_mark (mark : Option (StatementOf .thenBranch)) :
    (markStatements mark).foldlM (statement ctx) (e.grown origin p) =
      pure (e.grown (lastLine origin (markStatements mark)) p) := by
  cases mark with
  | none => rfl
  | some s =>
    obtain ⟨⟨text, line, form⟩, h⟩ := s
    cases form with
    | thenBranch => rfl
    | _ => cases h

theorem statement_tail {s : Statement} {e : Emitter}
    (h : s.kind = .endWhile ∨ s.kind = .endFor ∨ s.kind = .endIf) (hfilled : e.filled.head? = some true)
    (hlevel : 0 ≤ e.listing.level) :
    statement ctx (e.entered.grown origin p) s =
      pure (e.grown (some s.line) (p.block (e.listing.level + 1) s.line)) := by
  obtain ⟨text, line, form⟩ := s
  cases form with
  | endWhile | endFor | endIf => exact congrArg Except.ok (closeBlock_grown p line hfilled hlevel)
  | _ => nomatch h

theorem statement_until (s : StatementOf .untilTest) {e : Emitter}
    (hfilled : e.filled.head? = some true) (hlevel : 0 ≤ e.listing.level) :
    statement ctx (e.entered.grown origin p) s.1 = (do
      let code ← headCode s.1.form
      return e.grown (some s.1.line) (p.followed
        ((Passage.here (e.listing.level + 1) s.1.line [code] p.outputs).followed
          (.here (e.listing.level + 2) s.1.line [.leaveLoop] p.outputs)))) := by
  obtain ⟨⟨text, line, form⟩, h⟩ := s
  cases form with
  | untilTest =>
    simp only [statement, headCode, setOrigin_grown, leaveIf_grown p line _ hfilled hlevel,
      bind_assoc, pure_bind]
  | _ => cases h

theorem statement_middle (s : StatementOf .elseBranch) {e : Emitter}
    (hfilled : e.filled.head? = some true) (hlevel : 0 ≤ e.listing.level) :
    statement ctx (e.entered.grown origin p) s.1 =
      pure ((e.grown (some s.1.line) ((p.block (e.listing.level + 1) s.1.line).followed
        (.here e.listing.level s.1.line [.otherwise] p.outputs))).entered.grown (some s.1.line)
          (.none p.outputs)) := by
  obtain ⟨⟨text, line, form⟩, h⟩ := s
  cases form with
  | elseBranch =>
    simp only [statement, setOrigin_grown, closeBlock_grown p line hfilled hlevel]
    rw [openBlock_grown _ _ _ rfl, Passage.outputs_block]
    exact congrArg pure (entered_grown_none ..).symm
  | _ => cases h

/-! ### Bodies -/

/-- The pass over the statements writes the lines of the body after what was
written before, wherever it is. -/
def Follows (b : Body) : Prop :=
  ∀ {e : Emitter} {origin : Option Nat} {p : Passage}, 0 ≤ e.listing.level → e.filled ≠ [] →
    b.statements.foldlM (statement ctx) (e.grown origin p) = (do
      return e.grown (lastLine origin b.statements)
        (p.followed (← b.passage ctx e.listing.level p.outputs)))

theorem isRemark_of_headCode {form : Form} {code : Code} (h : headCode form = .ok code) :
    code.isRemark = false := by
  have hok {cond : Except IndexFault Text} {make : Text → Code} (hmake : ∀ t, (make t).isRemark = false)
      (h : (do return make (← cond)) = .ok code) :
      code.isRemark = false := by
    cases cond with
    | error => simp [bind, Except.bind] at h
    | ok t =>
      obtain rfl : make t = code := Except.ok.inj h
      exact hmake t
  cases form with
  | whileLoop c | ifTest c | untilTest c => exact hok (fun _ => rfl) h
  | forLoop counter start =>
    cases hstart : condition start with
    | error => simp [headCode, hstart, bind, Except.bind] at h
    | ok =>
      rw [headCode, hstart] at h
      exact hok (fun _ => rfl) h
  | _ =>
    cases h
    rfl

theorem bind_headCode_congr {α : Type} {form : Form} {f g : Code → Except IndexFault α}
    (h : ∀ code, code.isRemark = false → f code = g code) :
    (headCode form >>= f) = headCode form >>= g := by
  cases hcode : headCode form with
  | error => rfl
  | ok code => exact h code (isRemark_of_headCode hcode)

theorem headCode_repeatLoop (s : StatementOf .repeatLoop) : headCode s.1.form = pure .forever := by
  obtain ⟨⟨text, line, form⟩, h⟩ := s
  cases form with
  | repeatLoop => rfl
  | _ => cases h

theorem roundPassage_eq_none {s : Statement} (h : s.kind ≠ .forLoop) (level : Int) (outputs : Nat) :
    roundPassage ctx level outputs s = .none outputs := by
  obtain ⟨text, line, form⟩ := s
  cases form with
  | forLoop => exact absurd rfl h
  | _ => rfl

@[simp] theorem outputs_roundPassage (level : Int) (outputs : Nat) (s : Statement) :
    (roundPassage ctx level outputs s).outputs = outputs := by
  unfold roundPassage
  split <;> rfl

variable {ctx} in
theorem foldlM_block {head tail : Statement} {block : Block} (h : head.kind.opens? = some block)
    (hblock : block.isScope = false)
    (htail : tail.kind = .endWhile ∨ tail.kind = .endFor ∨ tail.kind = .endIf)
    (mark : Option (StatementOf .thenBranch)) {b rest : Body} (hbody : Follows ctx b)
    (hrest : Follows ctx rest) {e : Emitter} {origin : Option Nat} {p : Passage}
    (hlevel : 0 ≤ e.listing.level) (hfilled : e.filled ≠ []) :
    (head :: (markStatements mark ++ (b.statements ++ tail :: rest.statements))).foldlM
        (statement ctx) (e.grown origin p) = (do
      let code ← headCode head.form
      let inside ← b.passage ctx (e.listing.level + 1) p.outputs
      let after ← rest.passage ctx e.listing.level inside.outputs
      let inside := (roundPassage ctx (e.listing.level + 1) p.outputs head).followed inside
      return e.grown (lastLine (some tail.line) rest.statements)
        (p.followed (((Passage.here e.listing.level head.line [code] p.outputs).followed
          (inside.block (e.listing.level + 1) tail.line)).followed after))) := by
  simp only [foldlM_cons, foldlM_append, statement_head _ _ _ ctx h hblock, bind_assoc,
    pure_bind, foldlM_mark]
  refine bind_headCode_congr fun code hcode => ?_
  have hopened : (e.grown (some head.line) (p.followed
      (.here e.listing.level head.line [code] p.outputs))).filled.head? = some true :=
    head_filled_grown _ _ hfilled (by simp [hcode])
  have hdeeper : 0 ≤ e.listing.level + 1 := by omega
  rw [hbody hdeeper (cons_ne_nil _ _)]
  simp only [bind_assoc, pure_bind, statement_tail _ _ ctx htail hopened hlevel, grown_grown,
    hrest hlevel hfilled, outputs_roundPassage]
  simp only [level_entered, level_grown, Passage.outputs_followed, Passage.outputs_block,
    Passage.followed_assoc]

theorem follows_body (b : Body) : Follows ctx b := by
  -- By induction on the blocks. The state before a block is kept as it is:
  -- inside the block it is `entered`, and every statement only grows it.
  induction b with
  | nil =>
    intro e origin p _ _
    simp [statements, passage, lastLine]
  | comment s rest ih =>
    intro e origin p hlevel hfilled
    simp only [statements, passage, foldlM_cons, statement_comment,
      ih hlevel hfilled, bind_assoc, pure_bind, Passage.followed_assoc]
    rfl
  | plain s rest ih =>
    intro e origin p hlevel hfilled
    simp only [statements, passage, foldlM_cons, statement_plain,
      ih hlevel hfilled, bind_assoc, pure_bind, Passage.followed_assoc]
    rfl
  | pretest counted head body tail rest ihbody ih =>
    intro e origin p hlevel hfilled
    have hopens : ∃ block, head.1.kind.opens? = some block ∧ block.isScope = false := by
      rw [head.2]
      cases counted <;> exact ⟨_, rfl, rfl⟩
    have htail : tail.1.kind = .endWhile ∨ tail.1.kind = .endFor ∨ tail.1.kind = .endIf := by
      rw [tail.2]
      cases counted <;> simp [Kind.pretestTail]
    obtain ⟨block, hhead, hblock⟩ := hopens
    refine (foldlM_block hhead hblock htail none ihbody ih hlevel hfilled).trans ?_
    simp only [passage, statements, bind_assoc, pure_bind, lastLine, foldl_cons, foldl_append]
  | posttest head body test rest ihbody ih =>
    -- The test closes the block, so its condition can fail after the body.
    intro e origin p hlevel hfilled
    have hround := roundPassage_eq_none ctx (by simp [head.2] : head.1.kind ≠ .forLoop)
    have hopened : (e.grown (some head.1.line) (p.followed
        (.here e.listing.level head.1.line [.forever] p.outputs))).filled.head? = some true :=
      head_filled_grown _ _ hfilled (by simp [Code.isRemark])
    have hdeeper : 0 ≤ e.listing.level + 1 := by omega
    simp only [statements, passage, foldlM_cons, foldlM_append,
      statement_head _ _ _ ctx (congrArg Kind.opens? head.2) rfl, headCode_repeatLoop, hround,
      pure_bind]
    rw [ihbody hdeeper (cons_ne_nil _ _)]
    simp only [bind_assoc, pure_bind, statement_until _ _ ctx test hopened hlevel, grown_grown,
      ih hlevel hfilled, lastLine, foldl_cons, foldl_append]
    simp only [level_entered, level_grown, Passage.outputs_followed, Passage.outputs_here,
      Passage.outputs_none, Passage.none_followed, Passage.followed_assoc]
  | choice head mark yes tail rest ihyes ih =>
    intro e origin p hlevel hfilled
    have hround := roundPassage_eq_none ctx (by simp [head.2] : head.1.kind ≠ .forLoop)
    refine (foldlM_block (congrArg Kind.opens? head.2) rfl (.inr (.inr tail.2)) mark ihyes ih hlevel
      hfilled).trans ?_
    simp only [passage, statements, hround, bind_assoc, pure_bind, lastLine,
      foldl_cons, foldl_append, Passage.none_followed]
  | choiceElse head mark yes middle no tail rest ihyes ihno ih =>
    intro e origin p hlevel hfilled
    have hround := roundPassage_eq_none ctx (by simp [head.2] : head.1.kind ≠ .forLoop)
    have hdeeper : 0 ≤ e.listing.level + 1 := by omega
    simp only [statements, passage, foldlM_cons, foldlM_append,
      statement_head _ _ _ ctx (congrArg Kind.opens? head.2) rfl, foldlM_mark, hround, bind_assoc,
      pure_bind]
    refine bind_headCode_congr fun code hcode => ?_
    have hopened (origin : Option Nat) : (e.grown origin (p.followed
        (.here e.listing.level head.1.line [code] p.outputs))).filled.head? = some true :=
      head_filled_grown _ _ hfilled (by simp [hcode])
    have hmiddle (origin : Option Nat) (q : Passage) : (e.grown origin (p.followed
        ((Passage.here e.listing.level head.1.line [code] p.outputs).followed q))).filled.head? =
          some true :=
      head_filled_grown _ _ hfilled (by simp [hcode])
    rw [ihyes hdeeper (cons_ne_nil _ _)]
    simp only [bind_assoc, pure_bind, statement_middle _ _ ctx middle (hopened _) hlevel,
      grown_grown, Passage.followed_assoc]
    refine bind_congr fun inside => ?_
    -- The second branch starts as deep as the first one, after its lines.
    rw [ihno hdeeper (cons_ne_nil _ _)]
    simp only [bind_assoc, pure_bind,
      statement_tail _ _ ctx (.inr (.inr tail.2)) (hmiddle _ _) hlevel,
      grown_grown, ih hlevel hfilled, lastLine, foldl_cons, foldl_append]
    simp only [level_entered, level_grown, Passage.outputs_followed, Passage.outputs_block,
      Passage.outputs_none, Passage.none_followed, Passage.followed_assoc]

/-- A loop that does nothing, a counted loop, a loop that tests last and a
choice with an empty branch. -/
def sampleTree : Body :=
  .pretest false ⟨⟨"mientras(a < 2)", 3, .whileLoop "a < 2"⟩, rfl⟩
    (.comment ⟨⟨"// nada", 4, .comment "nada"⟩, rfl⟩ .nil)
    ⟨⟨"finmientras", 5, .endWhile⟩, rfl⟩ <|
  .posttest ⟨⟨"Repetir", 6, .repeatLoop⟩, rfl⟩
    (.pretest true ⟨⟨"para a<-1 hasta 2", 7, .forLoop "a" "1" "2"⟩, rfl⟩ .nil
      ⟨⟨"finpara", 8, .endFor⟩, rfl⟩ .nil)
    ⟨⟨"hasta(a > 1)", 9, .untilTest "a > 1"⟩, rfl⟩ <|
  .choiceElse ⟨⟨"si a > 1", 10, .ifTest "a > 1"⟩, rfl⟩ none .nil
    ⟨⟨"sino", 11, .elseBranch⟩, rfl⟩
    (.plain ⟨⟨"volver", 12, .returnScope⟩, rfl⟩ .nil)
    ⟨⟨"finsi", 13, .endIf⟩, rfl⟩ .nil

def sampleContext : Context :=
  ⟨[⟨"main", "a"⟩], [], "main", false⟩

def sampleStart : Emitter :=
  enter { level := 2 } ["a"] []

end Emitter

end Script

end Pseudocode
