import Pseudocode.Proofs.Origins
import Pseudocode.Proofs.Program.Numbering
import Pseudocode.Proofs.Script.Outline
import Pseudocode.Script.Emit

/-!
# The outline of a program's script

The pass that writes a script keeps a level of indentation and a stack of
open blocks, and closes a block by going one level back. For the outline
only the number of open blocks matters: the routine itself is never
closed, so a closing statement too many changes nothing.

* `statementMarks`, `blocksAfter`: what one statement adds to the outline,
  and the number of open blocks after it. `Emitter.At.statement` says that
  the pass does just this.
* `written`: the outline of a body, by the number of blocks open before.
* `written_statements`: the outline of a nested body is that of its
  blocks.
* `outline_ofProgram`: the outline of the script of a program: a routine
  for each function, which reports lines of that function only, and then
  the main routine.
-/

namespace Pseudocode.Script

open Text Expression List

variable {lines : List Nat} {level : Int} {stmts : List Statement}

/-! ### Listings -/

namespace Lines

variable (l : Lines)

theorem outline_emit (code : Code) :
    outline (l.emit code) = l.outline ++ code.mark?.toList.map (l.level, ·) := by
  simp only [outline, Listing.emit]
  cases hmark : code.mark? <;> simp [hmark]

theorem outline_emitAll {codes : List Code} (h : ∀ code ∈ codes, code.mark? = none) :
    outline (l.emitAll codes) = l.outline := by
  rw [Listing.emitAll_eq]
  simpa [outline] using h

theorem level_emitAll (codes : List Code) : (l.emitAll codes).level = l.level := by
  rw [Listing.emitAll_eq]

theorem outline_blank : outline l.blank = l.outline := by
  simp [outline, Listing.blank]

theorem dedent_level (h : l.level = level + 1) (hlevel : 0 ≤ level) : l.dedent.level = level := by
  show max 0 (l.level - 1) = level
  omega

end Lines

/-! ### What a statement adds -/

def blocksAfter (depth : Nat) : Kind → Nat
  | .whileLoop | .forLoop | .repeatLoop | .ifTest => depth + 1
  | .endWhile | .endFor | .endIf | .untilTest => depth - 1
  | .elseBranch => depth - 1 + 1
  | _ => depth

def statementMarks (inFunction : Bool) (base : Int) (depth : Nat) (s : Statement) :
    List (Int × Mark) :=
  match s.kind with
  | .declare | .read | .write => [(base + depth, .step s.line)]
  | .whileLoop => [(base + depth, .loop)]
  | .forLoop => [(base + depth, .count), (base + depth + 1, .step s.line)]
  | .repeatLoop => [(base + depth, .forever)]
  | .untilTest => [(base + depth, .choice), (base + depth + 1, .leaveLoop)]
  | .ifTest => [(base + depth, .choice)]
  | .elseBranch => [(base + (depth - 1 : Nat), .otherwise)]
  | .returnScope =>
    (if inFunction then [(base + depth, Mark.step s.line)] else []) ++
      [(base + depth, .leaveScope)]
  | _ => []

def written (inFunction : Bool) (base : Int) : Nat → List Statement → List (Int × Mark)
  | _, [] => []
  | depth, s :: rest =>
    statementMarks inFunction base depth s ++
      written inFunction base (blocksAfter depth s.kind) rest

namespace Emitter

variable {base : Int} {depth : Nat} {e e' : Emitter}

/-- The pass is in a routine at a level, with some blocks open. -/
structure At (base : Int) (depth : Nat) (e : Emitter) : Prop where
  level : e.listing.level = base + depth
  filled : e.filled.length = depth + 1

/-- The pass has added some marks and is in a place. -/
structure Adds (e : Emitter) (marks : List (Int × Mark)) (base : Int) (depth : Nat)
    (e' : Emitter) : Prop extends At base depth e' where
  outline : e'.listing.outline = e.listing.outline ++ marks

theorem At.adds (h : At base depth e) : Adds e [] base depth e :=
  ⟨h, (append_nil _).symm⟩

theorem Adds.trans {e'' : Emitter} {depth' : Nat} {marks marks' : List (Int × Mark)}
    (h : Adds e marks base depth e') (h' : Adds e' marks' base depth' e'') :
    Adds e (marks ++ marks') base depth' e'' :=
  ⟨h'.toAt, by rw [h'.outline, h.outline, append_assoc]⟩

section

variable (h : At base depth e)
include h

theorem At.line (code : Code) :
    Adds e (code.mark?.toList.map (base + depth, ·)) base depth (e.line code) := by
  refine ⟨⟨h.level, ?_⟩, ?_⟩
  · rw [← h.filled, Emitter.line]
    cases e.filled <;> rfl
  · rw [← h.level]
    exact Lines.outline_emit _ code

theorem At.setOrigin (origin : Option Nat) :
    At base depth { e with listing := e.listing.setOrigin origin } :=
  { h with }

theorem At.comment (t : Text) : Adds e [] base depth (e.comment t) := by
  refine ⟨⟨(Lines.level_emitAll _ _).trans h.level, h.filled⟩, ?_⟩
  rw [append_nil]
  refine Lines.outline_emitAll _ ?_
  simp [Code.mark?]

theorem At.openBlock (head : Code) :
    Adds e (head.mark?.toList.map (base + depth, ·)) base (depth + 1) (e.openBlock head) := by
  obtain ⟨⟨hlevel, hfilled⟩, houtline⟩ := h.line head
  refine ⟨⟨?_, ?_⟩, houtline⟩
  · show (e.line head).listing.level + 1 = _
    omega
  · exact congrArg (· + 1) hfilled

theorem At.closeBlock (hbase : 0 ≤ base) : Adds e [] base (depth - 1) e.closeBlock := by
  have hfilled := h.filled
  have hback (l : Lines) (hl : l.level = base + depth) (hdepth : 1 ≤ depth) :
      l.dedent.level = base + (depth - 1 : Nat) :=
    Lines.dedent_level l (by omega) (by omega)
  have houter {b : Bool} {filled : List Bool} (hne : filled ≠ []) (hcons : e.filled = b :: filled) :
      1 ≤ depth ∧ filled.length = depth - 1 + 1 := by
    have hpos := length_pos_iff.mpr hne
    rw [hcons, length_cons] at hfilled
    omega
  unfold Emitter.closeBlock
  split
  · next hnil => simp [hnil] at hfilled
  · next hlast =>
    obtain rfl : depth = 0 := by simpa [hlast] using hfilled.symm
    exact h.line .pass
  · next hlast =>
    obtain rfl : depth = 0 := by simpa [hlast] using hfilled.symm
    exact h.adds
  · next filled hne hcons =>
    obtain ⟨hdepth, hrest⟩ := houter hne hcons
    exact ⟨⟨hback _ h.level hdepth, hrest⟩, (append_nil _).symm⟩
  · next filled hne hcons =>
    obtain ⟨hdepth, hrest⟩ := houter hne hcons
    exact ⟨⟨hback _ h.level hdepth, hrest⟩, Lines.outline_emit _ .pass⟩

theorem At.closeMany (hbase : 0 ≤ base) (n : Nat) : Adds e [] base (depth - n) (e.closeMany n) := by
  induction n generalizing e depth with
  | zero => exact h.adds
  | succ n ih =>
    have hone := h.closeBlock hbase
    have hrest := hone.trans (ih hone.toAt)
    rwa [Nat.sub_sub, Nat.add_comm 1 n] at hrest

theorem At.leaveIf (hbase : 0 ≤ base) (condition : Text) :
    Adds e [(base + depth, .choice), (base + depth + 1, .leaveLoop)] base (depth - 1)
      (e.leaveIf condition) := by
  have htest := h.line (.ifTest condition)
  -- The line inside the choice is written one level deeper and changes no block.
  have hleave : Adds (e.line (.ifTest condition)) [(base + depth + 1, .leaveLoop)] base depth
      { e.line (.ifTest condition) with
        listing := ((e.line (.ifTest condition)).listing.indent.emit .leaveLoop).dedent } := by
    refine ⟨⟨?_, htest.filled⟩, ?_⟩
    · show max 0 ((e.line (.ifTest condition)).listing.level + 1 - 1) = _
      rw [htest.level]
      omega
    · rw [← htest.level]
      exact Lines.outline_emit _ .leaveLoop
  exact (htest.trans hleave).trans (hleave.toAt.closeBlock hbase)

theorem At.trace (ctx : Context) (line : Nat) (state : Text → SlotState) (output : Option Nat) :
    Adds e [(base + depth, .step line)] base depth (e.trace ctx line state output) :=
  h.line (.trace line (ctx.snapshot state) output)

theorem At.write {ctx : Context} {line : Nat} {args : List Text}
    (hok : e.write ctx line args = .ok e') : Adds e [(base + depth, .step line)] base depth e' := by
  obtain ⟨parts, -, rfl⟩ := exists_of_return_eq_ok hok
  have hnumber : Adds e [] base depth { e with outputs := e.outputs + 1 } :=
    ⟨{ h with }, (append_nil _).symm⟩
  have hcompose := hnumber.toAt.line (.compose e.outputs parts)
  have hwrite := hcompose.toAt.line (.write e.outputs)
  exact ((hnumber.trans hcompose).trans hwrite).trans (hwrite.toAt.trace ctx line asIs _)

variable {ctx : Context}

theorem At.statement (hbase : 0 ≤ base) {s : Statement} (hok : statement ctx e s = .ok e') :
    Adds e (statementMarks ctx.inFunction base depth s) base (blocksAfter depth s.kind) e' := by
  unfold Emitter.statement at hok
  have horigin := h.setOrigin (some s.line)
  -- Every case is stated from the state with the origin set, whose outline is the same.
  suffices hsuff : Adds { e with listing := e.listing.setOrigin (some s.line) }
      (statementMarks ctx.inFunction base depth s) base (blocksAfter depth s.kind) e' from
    ⟨hsuff.toAt, hsuff.outline⟩
  obtain ⟨text, line, form⟩ := s
  cases form with
  | comment =>
    cases hok
    exact horigin.comment _
  | declare type name size =>
    cases hok
    have hline := horigin.line (.declare type name size)
    exact hline.trans (hline.toAt.trace ctx line asIs none)
  | read target name index =>
    have hread (cell : Text) := horigin.line (.read cell name)
    have htrace (cell : Text) := (hread cell).trans ((hread cell).toAt.trace ctx line asIs none)
    cases index with
    | some =>
      obtain ⟨cell, -, rfl⟩ := exists_of_return_eq_ok hok
      exact htrace cell
    | none =>
      cases hok
      exact htrace name
  | whileLoop =>
    obtain ⟨test, -, rfl⟩ := exists_of_return_eq_ok hok
    exact horigin.openBlock (.whileTest test)
  | forLoop counter =>
    obtain ⟨first, -, hok⟩ := exists_of_bind_eq_ok hok
    obtain ⟨last, -, rfl⟩ := exists_of_return_eq_ok hok
    have hopen := horigin.openBlock (.count counter first last)
    have htrace := hopen.toAt.trace ctx line
      (fun name => if name = counter then .forced else .value) none
    rw [Int.natCast_succ, ← Int.add_assoc] at htrace
    exact hopen.trans htrace
  | repeatLoop =>
    cases hok
    exact horigin.openBlock .forever
  | untilTest =>
    obtain ⟨test, -, rfl⟩ := exists_of_return_eq_ok hok
    exact horigin.leaveIf hbase test
  | ifTest =>
    obtain ⟨test, -, rfl⟩ := exists_of_return_eq_ok hok
    exact horigin.openBlock (.ifTest test)
  | elseBranch =>
    cases hok
    have hclose := horigin.closeBlock hbase
    exact hclose.trans (hclose.toAt.openBlock .otherwise)
  | endWhile | endFor | endIf =>
    cases hok
    exact horigin.closeBlock hbase
  | thenBranch =>
    cases hok
    exact horigin.adds
  | write => exact horigin.write hok
  | returnScope =>
    cases hok
    unfold statementMarks
    dsimp only [Statement.kind, Form.kind]
    split
    · have htrace := horigin.trace ctx line (fun _ => .cleared) none
      exact htrace.trans (htrace.toAt.line .leaveScope)
    · exact horigin.line .leaveScope
  | call callee =>
    obtain ⟨text', -, rfl⟩ := exists_of_return_eq_ok hok
    exact horigin.line (.call (ctx.functions.contains callee) text')
  | _ =>
    cases hok
    exact horigin.comment _

theorem At.foldlM_statement (hbase : 0 ≤ base)
    (hok : stmts.foldlM (Emitter.statement ctx) e = .ok e') :
    ∃ depth', Adds e (written ctx.inFunction base depth stmts) base depth' e' := by
  induction stmts generalizing e depth with
  | nil =>
    cases hok
    exact ⟨depth, h.adds⟩
  | cons s rest ih =>
    obtain ⟨middle, hmiddle, hok⟩ := exists_of_bind_eq_ok hok
    have hstep := h.statement hbase hmiddle
    obtain ⟨depth', hrest⟩ := ih hstep.toAt hok
    exact ⟨depth', hstep.trans hrest⟩

end

theorem At.body (h : At base 0 e) (hbase : 0 ≤ base) (hok : e.body ctx stmts = .ok e') :
    Adds e (written ctx.inFunction base 0 stmts) base 0 e' := by
  obtain ⟨last, hlast, rfl⟩ := exists_of_return_eq_ok hok
  obtain ⟨depth, hadds⟩ := h.foldlM_statement hbase hlast
  have hclose := hadds.trans (hadds.toAt.closeMany hbase (last.filled.length - 1))
  rw [hadds.filled, Nat.add_sub_cancel, Nat.sub_self, append_nil] at hclose
  rw [hadds.filled]
  exact hclose

theorem at_enter {l : Lines} (names params : List Text) (hl : l.level = base) :
    Adds ⟨l, [false], 0⟩ [] base 0 (enter l names params) := by
  have hstart : At base 0 ⟨l, [false], 0⟩ := ⟨by simpa using hl, rfl⟩
  unfold enter
  generalize names.filter (!params.contains ·) = names
  generalize (⟨l, [false], 0⟩ : Emitter) = e at hstart ⊢
  induction names generalizing e with
  | nil => exact hstart.adds
  | cons name rest ih =>
    have hline := hstart.line (.unset name)
    exact hline.trans (ih _ hline.toAt)

end Emitter

/-! ### The outline of a body -/

theorem written_mark (base : Int) (depth : Nat) (mark : Option (StatementOf .thenBranch))
    (rest : List Statement) : written false base depth (Body.markStatements mark ++ rest) =
      written false base depth rest := by
  rcases mark with _ | ⟨mark, hmark⟩
  · rfl
  · simp only [Body.markStatements, Option.map_some, Option.toList_some, cons_append,
      nil_append, written, statementMarks, hmark, blocksAfter]

theorem written_statements (base : Int) (depth : Nat) (b : Body) (rest : List Statement) :
    written false base depth (b.statements ++ rest) =
      bodyOutline (base + depth) b ++ written false base depth rest := by
  have hdepth (depth : Nat) : base + (depth + 1 : Nat) = base + depth + 1 := by omega
  induction b generalizing depth rest with
  | nil => rfl
  | comment s more ih =>
    simp only [Body.statements, cons_append, written, statementMarks, s.2, blocksAfter, ih,
      bodyOutline, nil_append]
  | plain s more ih =>
    obtain ⟨s, hs⟩ := s
    have hmarks : statementMarks false base depth s = plainOutline (base + depth) s := by
      unfold statementMarks plainOutline
      revert hs
      cases s.kind <;> simp [Kind.isPlain, Kind.isStep]
    have hblocks : blocksAfter depth s.kind = depth := by
      revert hs
      cases s.kind <;> simp [Kind.isPlain, blocksAfter]
    simp only [Body.statements, cons_append, written, hmarks, hblocks, ih, bodyOutline,
      append_assoc]
  | pretest counted head body tail more ihBody ihMore =>
    cases counted <;>
      simp only [Body.statements, cons_append, append_assoc, written, statementMarks,
        show head.1.kind = _ from head.2, show tail.1.kind = _ from tail.2, Kind.pretestHead,
        Kind.pretestTail, Bool.false_eq_true, if_false, if_true, blocksAfter, ihBody, ihMore,
        bodyOutline, hdepth, nil_append, Nat.add_sub_cancel]
  | posttest head body test more ihBody ihMore =>
    simp only [Body.statements, cons_append, append_assoc, written, statementMarks, head.2, test.2,
      blocksAfter, ihBody, ihMore, bodyOutline, hdepth, nil_append, Nat.add_sub_cancel]
  | choice head mark yes tail more ihYes ihMore =>
    simp only [Body.statements, cons_append, append_assoc, written, written_mark, statementMarks,
      head.2, tail.2, blocksAfter, ihYes, ihMore, bodyOutline, hdepth, nil_append,
      Nat.add_sub_cancel]
  | choiceElse head mark yes middle no tail more ihYes ihNo ihMore =>
    simp only [Body.statements, cons_append, append_assoc, written, written_mark, statementMarks,
      head.2, middle.2, tail.2, blocksAfter, ihYes, ihNo, ihMore, bodyOutline, hdepth, nil_append,
      Nat.add_sub_cancel]

/-! ### The outline of a script -/

/-- The mark can be in a routine that reports some lines. -/
def Mark.isOf (lines : List Nat) : Mark → Prop
  | .step line => line ∈ lines
  | .foreign => False
  | _ => True

/-- The marks are in a block at a level that reports only some lines. -/
def Within (level : Int) (lines : List Nat) (marks : List (Int × Mark)) : Prop :=
  ∀ p ∈ marks, level ≤ p.1 ∧ p.2.isOf lines

theorem within_append {xs ys : List (Int × Mark)} :
    Within level lines (xs ++ ys) ↔ Within level lines xs ∧ Within level lines ys :=
  forall_mem_append

theorem Within.above {xs : List (Int × Mark)} (h : Within level lines xs) : Above level xs :=
  fun p hp => (h p hp).1

theorem within_statementMarks {inFunction : Bool} {base : Int} {depth : Nat} {s : Statement}
    (h : s.line ∈ lines) : Within base lines (statementMarks inFunction base depth s) := by
  have hat : base ≤ base + depth := by omega
  have hinner : base ≤ base + depth + 1 := by omega
  have hback : base ≤ base + (depth - 1 : Nat) := by omega
  unfold statementMarks Within
  cases s.kind with
  | returnScope => cases inFunction <;> simp [Mark.isOf, h, hat]
  | _ => simp [Mark.isOf, h, hat, hinner, hback]

theorem within_written {inFunction : Bool} {base : Int} (depth : Nat)
    (h : ∀ s ∈ stmts, s.line ∈ lines) :
    Within base lines (written inFunction base depth stmts) := by
  induction stmts generalizing depth with
  | nil => nofun
  | cons s rest ih =>
    obtain ⟨hs, hrest⟩ := forall_mem_cons.mp h
    exact within_append.mpr ⟨within_statementMarks hs, ih _ hrest⟩

/-- The outline of a routine of the script, by its name and what is in
it. -/
def routineMarks (r : Text × List (Int × Mark)) : List (Int × Mark) :=
  (1, .define r.1) :: r.2

section Routines

variable {slots : List Slot} {functions : List Text} {l l' : Lines}

theorem outline_head (l : Lines) (code : Code) {name : Text}
    (hcode : code.mark? = some (.define name)) (hl : l.level = 1) :
    Lines.outline (l.emit code).indent = l.outline ++ [(1, .define name)] := by
  refine (Lines.outline_emit l code).trans ?_
  rw [hcode, hl]
  rfl

theorem functionLines_outline {f : Function × ScopeTable} (hl : l.level = 1)
    (hok : functionLines slots functions l f = .ok l') :
    l'.level = 1 ∧ ∃ r, l'.outline = l.outline ++ routineMarks r ∧ Within 2 f.1.lines r.2 := by
  obtain ⟨f, table⟩ := f
  obtain ⟨e', hbody, rfl⟩ := exists_of_return_eq_ok hok
  have hhead := outline_head (l.blank.setOrigin (some f.headerLine)) (.define f.name f.params)
    rfl hl
  have hblank : Lines.outline (l.blank.setOrigin (some f.headerLine)) = l.outline :=
    Lines.outline_blank l
  have hlevel :
      ((l.blank.setOrigin (some f.headerLine)).emit (.define f.name f.params)).indent.level = 2 :=
    congrArg (· + 1) hl
  have henter := Emitter.at_enter table.names f.params hlevel
  have htrace := henter.trans (henter.toAt.trace ⟨slots, functions, table.scope, true⟩
    f.headerLine Emitter.asIs none)
  have hadds := htrace.trans (htrace.toAt.body (by decide) hbody)
  refine ⟨Lines.dedent_level e'.listing (by simpa using hadds.level) (by decide),
    (f.name, (2, .step f.headerLine) :: written true 2 0 f.body), ?_, ?_⟩
  · have houtline := hadds.outline
    rw [hhead, hblank, append_assoc] at houtline
    exact houtline
  · refine forall_mem_cons.mpr ⟨⟨Int.le_refl 2, mem_cons_self ..⟩, within_written 0 ?_⟩
    exact fun s hs => mem_cons_of_mem _ (mem_map_of_mem hs)

theorem foldlM_functionLines_outline {fs : List (Function × ScopeTable)} (lines : List Nat)
    (hlines : ∀ f ∈ fs, f.1.lines ⊆ lines) (hl : l.level = 1)
    (hok : fs.foldlM (functionLines slots functions) l = .ok l') :
    l'.level = 1 ∧ ∃ rs : List (Text × List (Int × Mark)),
      l'.outline = l.outline ++ rs.flatMap routineMarks ∧ ∀ r ∈ rs, Within 2 lines r.2 := by
  induction fs generalizing l with
  | nil =>
    cases hok
    exact ⟨hl, [], (append_nil _).symm, nofun⟩
  | cons f rest ih =>
    obtain ⟨hf, hrest⟩ := forall_mem_cons.mp hlines
    obtain ⟨middle, hmiddle, hok⟩ := exists_of_bind_eq_ok hok
    obtain ⟨hlevel, r, houtline, hwithin⟩ := functionLines_outline hl hmiddle
    obtain ⟨hlevel', rs, houtline', hwithin'⟩ := ih hrest hlevel hok
    refine ⟨hlevel', r :: rs, ?_, forall_mem_cons.mpr ⟨fun p hp => ?_, hwithin'⟩⟩
    · rw [houtline', houtline, append_assoc]
      rfl
    · obtain ⟨hp, hmark⟩ := hwithin p hp
      refine ⟨hp, ?_⟩
      cases hm : p.2 with
      | step =>
        rw [hm] at hmark
        exact hf hmark
      | foreign =>
        rw [hm] at hmark
        exact hmark
      | _ => trivial

theorem mainLines_outline {table : ScopeTable} {b : Body} (hl : l.level = 1)
    (hok : mainLines slots functions table b.statements l = .ok l') :
    l'.outline = l.outline ++ routineMarks ("__main", bodyOutline 2 b) := by
  obtain ⟨e', hbody, rfl⟩ := exists_of_return_eq_ok hok
  have hhead := outline_head l.blank .defineMain rfl hl
  rw [Lines.outline_blank] at hhead
  have hlevel : (l.blank.emit .defineMain).indent.level = 2 := congrArg (· + 1) hl
  have henter := Emitter.at_enter table.names [] hlevel
  have hadds := henter.trans (henter.toAt.body (by decide) hbody)
  have hclose := (hadds.toAt.setOrigin none).closeBlock (by decide)
  have houtline := hadds.outline
  have hwritten := written_statements 2 0 b []
  rw [append_nil] at hwritten
  rw [hhead, hwritten] at houtline
  refine hclose.outline.trans ((append_nil _).trans (houtline.trans ?_))
  simp [routineMarks, written]

end Routines

theorem outline_ofProgram {settings : Settings} {v : Variables} {p : Program} {l : Lines}
    {b : Body} (hb : b.statements = p.main) (hok : ofProgram settings v p = .ok l) :
    ∃ rs : List (Text × List (Int × Mark)),
      l.outline = rs.flatMap routineMarks ++ routineMarks ("__main", bodyOutline 2 b) ∧
        ∀ r ∈ rs, Within 2 (p.functions.flatMap Function.lines) r.2 := by
  obtain ⟨middle, hmiddle, hok⟩ := exists_of_bind_eq_ok hok
  obtain ⟨last, hlast, rfl⟩ := exists_of_return_eq_ok hok
  have hsupport : ∀ code ∈ supportLines.map Code.support, code.mark? = none := by
    simp [Code.mark?]
  obtain ⟨hlevel, rs, houtline, hwithin⟩ := foldlM_functionLines_outline
    (p.functions.flatMap Function.lines)
    (fun f hf line hline => mem_flatMap.mpr ⟨f.1, (of_mem_zip hf).1, hline⟩)
    (Lines.level_emitAll _ _) hmiddle
  refine ⟨rs, ?_, hwithin⟩
  rw [← hb] at hlast
  have hmain := mainLines_outline hlevel hlast
  refine (Lines.outline_emit _ _).trans ?_
  rw [Lines.outline_blank, hmain, houtline, Lines.outline_emitAll _ hsupport]
  exact append_nil _

end Pseudocode.Script
