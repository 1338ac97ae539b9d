import Pseudocode.Proofs.OneLine
import Pseudocode.Proofs.Origins
import Pseudocode.Script.Emit

/-!
# The lines of each statement in a script

The pass that writes a routine adds, for each statement, lines that come from
it. Apart from comments and from the `pass` of an empty block, which do
nothing, they depend on the statement, on the scope and on the number of
output variables in use.

* `statementCodes`: the lines of one statement that do something.
* `Emitter.emits_statement`: the pass adds them, and nothing else that does
  something.
-/

namespace Pseudocode.Script

open Text Expression List Emitter Listing

variable {s : Statement} {body : List Statement}

def Code.isFiller : Code → Bool
  | .comment _ | .pass => true
  | _ => false

/-- The lines from one place that do something. -/
def Lines.acts (l : Lines) (n : Nat) : List Code :=
  (Listing.codesFrom l n).filter fun code => !code.isFiller

/-- A report of a step in the scope of a routine. -/
def Context.report (ctx : Context) (line : Nat) (state : Text → SlotState) (output : Option Nat) :
    Code :=
  .trace line (ctx.snapshot state) output

/-- The lines of one statement that do something, when `n` output variables
are in use. -/
def statementCodes (ctx : Context) (n : Nat) (s : Statement) : Except IndexFault (List Code) := do
  match s.form with
  | .declare type name size =>
    return [.declare type name size, ctx.report s.line Emitter.asIs none]
  | .read _ name index =>
    let target ← match index with
      | some index => shiftCell name index
      | none => pure name
    return [.read target name, ctx.report s.line Emitter.asIs none]
  | .whileLoop c => return [.whileTest (← condition c)]
  | .forLoop counter start stop =>
    return [.count counter (← condition start) (← condition stop),
      ctx.report s.line (fun name => if name = counter then .forced else .value) none]
  | .repeatLoop => return [.forever]
  | .untilTest c => return [.ifTest (← condition c), .leaveLoop]
  | .ifTest c => return [.ifTest (← condition c)]
  | .elseBranch => return [.otherwise]
  | .write args =>
    return [.compose n (← (arguments args).mapM Emitter.outputPart), .write n,
      ctx.report s.line Emitter.asIs (some n)]
  | .returnScope =>
    return (if ctx.inFunction then [ctx.report s.line (fun _ => .cleared) none] else []) ++
      [.leaveScope]
  | .call callee => return [.call (ctx.functions.contains callee) (← shift s.text)]
  | _ => return []

namespace Emitter

variable {e e' e'' : Emitter} {cs cs' : List Code} {ctx : Context}

/-- The pass has added lines from where it is, of which those that do
something are given. -/
def Emits (e : Emitter) (cs : List Code) (e' : Emitter) : Prop :=
  ∃ all, e.listing.Extends all e'.listing ∧ (all.filter fun code => !code.isFiller) = cs ∧
    ∀ code ∈ all, code.isFiller = true → OneLine code.text

theorem Emits.refl (e : Emitter) : Emits e [] e :=
  ⟨[], .refl _, rfl, nofun⟩

theorem Emits.trans (h : Emits e cs e') (h' : Emits e' cs' e'') : Emits e (cs ++ cs') e'' := by
  obtain ⟨all, hadded, rfl, hfill⟩ := h
  obtain ⟨all', hadded', rfl, hfill'⟩ := h'
  exact ⟨all ++ all', hadded.trans hadded', filter_append .., forall_mem_append.mpr ⟨hfill, hfill'⟩⟩

theorem Emits.dedent (h : Emits e cs e') (filled : List Bool) :
    Emits e cs { e' with listing := e'.listing.dedent, filled } := by
  obtain ⟨all, hadded, hacts, hfill⟩ := h
  exact ⟨all, hadded.dedent, hacts, hfill⟩

theorem emits_of_emit {code : Code} (h : code.isFiller = false)
    (hadded : e.listing.Extends [code] e'.listing) : Emits e [code] e' := by
  refine ⟨[code], hadded, by simp [h], forall_mem_singleton.mpr fun hfill => ?_⟩
  rw [h] at hfill
  cases hfill

section

variable (e : Emitter)

theorem emits_line {code : Code} (h : code.isFiller = false) : Emits e [code] (e.line code) :=
  emits_of_emit h (extends_emit _ _)

theorem emits_comment (t : Text) : Emits e [] (e.comment t) := by
  refine ⟨_, extends_emitAll _ _, by simp [Code.isFiller], ?_⟩
  intro code hcode _
  obtain ⟨part, hpart, rfl⟩ := mem_map.mp hcode
  exact OneLine.append (by decide) (oneLine_of_mem_cutAt hpart)

theorem emits_openBlock {head : Code} (h : head.isFiller = false) :
    Emits e [head] (e.openBlock head) :=
  emits_of_emit h (extends_emit _ _).indent

theorem emits_closeBlock : Emits e [] e.closeBlock := by
  have hpass : Emits e [] (e.line .pass) :=
    ⟨[.pass], extends_emit _ _, rfl, forall_mem_singleton.mpr fun _ => by decide⟩
  unfold closeBlock
  split
  · exact .refl e
  · exact hpass
  · exact .refl e
  · exact (Emits.refl e).dedent _
  · exact hpass.dedent _

theorem emits_closeMany (n : Nat) : Emits e [] (e.closeMany n) := by
  induction n generalizing e with
  | zero => exact .refl e
  | succ n ih => exact (emits_closeBlock e).trans (ih _)

theorem emits_leaveIf (condition : Text) :
    Emits e [.ifTest condition, .leaveLoop] (e.leaveIf condition) := by
  have htest : Emits e [.ifTest condition] (e.line (.ifTest condition)) := emits_line e rfl
  have hleave : Emits (e.line (.ifTest condition)) [.leaveLoop] { e.line (.ifTest condition) with
      listing := ((e.line (.ifTest condition)).listing.indent.emit .leaveLoop).dedent } :=
    emits_of_emit rfl
      (((Extends.refl _).indent).trans (extends_emit _ _)).dedent
  exact (htest.trans hleave).trans (emits_closeBlock _)

theorem emits_trace (ctx : Context) (line : Nat) (state : Text → SlotState) (output : Option Nat) :
    Emits e [ctx.report line state output] (e.trace ctx line state output) :=
  emits_line e rfl

end

theorem emits_write {line : Nat} {args : List Text} (hok : e.write ctx line args = .ok e') :
    ∃ parts, args.mapM outputPart = .ok parts ∧
      Emits e [.compose e.outputs parts, .write e.outputs, ctx.report line asIs (some e.outputs)]
        e' := by
  obtain ⟨parts, hparts, rfl⟩ := exists_of_return_eq_ok hok
  have hcompose : Emits e [.compose e.outputs parts]
      ({ e with outputs := e.outputs + 1 }.line (.compose e.outputs parts)) :=
    emits_line { e with outputs := e.outputs + 1 } rfl
  exact ⟨parts, hparts, (hcompose.trans (emits_line _ rfl)).trans (emits_trace _ ctx line _ _)⟩

theorem emits_statement (hok : statement ctx e s = .ok e') :
    ∃ cs, statementCodes ctx e.outputs s = .ok cs ∧
      Emits { e with listing := e.listing.setOrigin (some s.line) } cs e' := by
  unfold statement at hok
  have houtputs : e.outputs =
      { e with listing := e.listing.setOrigin (some s.line) }.outputs := rfl
  rw [houtputs]
  revert hok
  generalize { e with listing := e.listing.setOrigin (some s.line) } = e
  intro hok
  obtain ⟨text, line, form⟩ := s
  cases form with
  | comment =>
    cases hok
    exact ⟨_, rfl, emits_comment e _⟩
  | declare =>
    cases hok
    exact ⟨_, rfl, (emits_line e rfl).trans (emits_trace _ ctx line _ none)⟩
  | read target name index =>
    have hread (cell : Text) : Emits e _ ((e.line (.read cell name)).trace ctx line asIs none) :=
      (emits_line e rfl).trans (emits_trace _ ctx line asIs none)
    cases index with
    | some =>
      obtain ⟨cell, hcell, rfl⟩ := exists_of_return_eq_ok hok
      exact ⟨_, bind_eq_ok hcell rfl, hread cell⟩
    | none =>
      cases hok
      exact ⟨_, rfl, hread name⟩
  | whileLoop =>
    obtain ⟨test, htest, rfl⟩ := exists_of_return_eq_ok hok
    exact ⟨_, bind_eq_ok htest rfl, emits_openBlock e rfl⟩
  | forLoop =>
    obtain ⟨first, hfirst, hok⟩ := exists_of_bind_eq_ok hok
    obtain ⟨last, hlast, rfl⟩ := exists_of_return_eq_ok hok
    refine ⟨_, bind_eq_ok hfirst (bind_eq_ok hlast rfl), ?_⟩
    exact (emits_openBlock e rfl).trans (emits_trace _ ctx line _ none)
  | repeatLoop =>
    cases hok
    exact ⟨_, rfl, emits_openBlock e rfl⟩
  | untilTest =>
    obtain ⟨test, htest, rfl⟩ := exists_of_return_eq_ok hok
    exact ⟨_, bind_eq_ok htest rfl, emits_leaveIf e test⟩
  | ifTest =>
    obtain ⟨test, htest, rfl⟩ := exists_of_return_eq_ok hok
    exact ⟨_, bind_eq_ok htest rfl, emits_openBlock e rfl⟩
  | elseBranch =>
    cases hok
    exact ⟨_, rfl, (emits_closeBlock e).trans (emits_openBlock _ rfl)⟩
  | endWhile | endFor | endIf =>
    cases hok
    exact ⟨_, rfl, emits_closeBlock e⟩
  | thenBranch =>
    obtain rfl := Except.ok.inj hok
    exact ⟨_, rfl, .refl e⟩
  | write =>
    obtain ⟨parts, hparts, hemits⟩ := emits_write hok
    exact ⟨_, bind_eq_ok hparts rfl, hemits⟩
  | returnScope =>
    cases hok
    refine ⟨_, rfl, ?_⟩
    cases ctx.inFunction with
    | true => exact (emits_trace e _ line _ none).trans (emits_line _ rfl)
    | false => exact emits_line e rfl
  | call =>
    obtain ⟨text', htext, rfl⟩ := exists_of_return_eq_ok hok
    exact ⟨_, bind_eq_ok htext rfl, emits_line e rfl⟩
  | _ =>
    cases hok
    exact ⟨_, rfl, emits_comment e _⟩

/-! ### By the line they come from -/

theorem Emits.acts (h : Emits e cs e') (n : Nat) :
    e'.listing.acts n = e.listing.acts n ++ if e.listing.origin = some n then cs else [] := by
  obtain ⟨all, hadded, rfl, -⟩ := h
  unfold Lines.acts
  rw [hadded.codesFrom, filter_append]
  split <;> rfl

theorem acts_statement (hok : statement ctx e s = .ok e') :
    ∃ cs, statementCodes ctx e.outputs s = .ok cs ∧
      ∀ n, e'.listing.acts n = e.listing.acts n ++ if s.line = n then cs else [] := by
  obtain ⟨cs, hcodes, hemits⟩ := emits_statement hok
  refine ⟨cs, hcodes, fun n => (hemits.acts n).trans ?_⟩
  show e.listing.acts n ++ (if some s.line = some n then cs else []) = _
  simp only [Option.some.injEq]

theorem acts_statement_of_ne (n : Nat) (e : Emitter) (s : Statement) (e' : Emitter)
    (hok : statement ctx e s = .ok e') (hne : n ∉ [s.line]) :
    e'.listing.acts n = e.listing.acts n := by
  obtain ⟨cs, -, hacts⟩ := acts_statement hok
  rw [hacts, if_neg fun he => hne (mem_singleton.mpr he.symm), append_nil]

theorem acts_body_of_not_mem (hok : e.body ctx body = .ok e') {n : Nat}
    (hn : n ∉ body.map Statement.line) : e'.listing.acts n = e.listing.acts n := by
  obtain ⟨last, hlast, rfl⟩ := exists_of_return_eq_ok hok
  have hclose := (emits_closeMany last (last.filled.length - 1)).acts n
  rw [ite_self, append_nil] at hclose
  rw [hclose]
  refine foldlM_view (acts_statement_of_ne n) hlast ?_
  rwa [← map_eq_flatMap]

theorem exists_acts_body (hok : e.body ctx body = .ok e')
    (hnodup : (body.map Statement.line).Nodup) (hs : s ∈ body) :
    ∃ k cs, statementCodes ctx k s = .ok cs ∧
      e'.listing.acts s.line = e.listing.acts s.line ++ cs := by
  obtain ⟨last, hlast, rfl⟩ := exists_of_return_eq_ok hok
  have hclose := (emits_closeMany last (last.filled.length - 1)).acts s.line
  rw [ite_self, append_nil] at hclose
  obtain ⟨before, after, hstatement, hbefore, hafter⟩ :=
    exists_of_foldlM_mem (acts_statement_of_ne s.line) hlast
      (by rwa [← map_eq_flatMap]) hs (mem_singleton_self _)
  obtain ⟨cs, hcodes, hacts⟩ := acts_statement hstatement
  refine ⟨_, cs, hcodes, ?_⟩
  rw [hclose, hafter, hacts, if_pos rfl, hbefore]

theorem emits_enter (l : Lines) (names params : List Text) :
    Emits ⟨l, [false], 0⟩ ((names.filter (!params.contains ·)).map Code.unset)
      (enter l names params) := by
  unfold enter
  generalize names.filter (!params.contains ·) = names
  generalize (⟨l, [false], 0⟩ : Emitter) = e
  induction names generalizing e with
  | nil => exact .refl e
  | cons name rest ih => exact (emits_line e rfl).trans (ih (e.line (.unset name)))

end Emitter

/-! ### The lines of a script -/

variable {slots : List Slot} {functions : List Text} {l l' : Lines}

theorem Lines.acts_blank (l : Lines) (n : Nat) : Lines.acts l.blank n = l.acts n := by
  rw [Lines.acts, codesFrom_blank, Lines.acts]

theorem exists_functionLines {f : Function × ScopeTable}
    (hok : functionLines slots functions l f = .ok l') :
    ∃ e e' : Emitter, e.body ⟨slots, functions, f.2.scope, true⟩ f.1.body = .ok e' ∧
      Emits ⟨l.blank.setOrigin (some f.1.headerLine), [false], 0⟩
        (.define f.1.name f.1.params ::
          (f.2.names.filter (!f.1.params.contains ·)).map Code.unset ++
            [Context.report ⟨slots, functions, f.2.scope, true⟩ f.1.headerLine asIs none]) e ∧
      l'.coded = e'.listing.coded := by
  obtain ⟨f, table⟩ := f
  obtain ⟨last, hlast, rfl⟩ := exists_of_return_eq_ok hok
  have hheader : Emits ⟨l.blank.setOrigin (some f.headerLine), [false], 0⟩
      [.define f.name f.params]
      ⟨((l.blank.setOrigin (some f.headerLine)).emit (.define f.name f.params)).indent, [false], 0⟩ :=
    emits_of_emit rfl (extends_emit _ _).indent
  exact ⟨_, last, hlast, (hheader.trans (emits_enter _ table.names f.params)).trans
    (emits_trace _ ⟨slots, functions, table.scope, true⟩ f.headerLine asIs none),
    rfl⟩

theorem Lines.acts_of_coded (h : l'.coded = l.coded) (n : Nat) : l'.acts n = l.acts n := by
  unfold Lines.acts codesFrom
  rw [h]

theorem acts_header {f : Function} {e : Emitter} {cs : List Code}
    (h : Emits ⟨l.blank.setOrigin (some f.headerLine), [false], 0⟩ cs e) {n : Nat}
    (hn : f.headerLine ≠ n) : e.listing.acts n = l.acts n := by
  refine (h.acts n).trans ?_
  show Lines.acts l.blank n ++ (if some f.headerLine = some n then cs else []) = _
  rw [if_neg (mt Option.some.inj hn), append_nil, Lines.acts_blank]

theorem acts_functionLines_of_not_mem (n : Nat) (l : Lines) (f : Function × ScopeTable)
    (l' : Lines) (hok : functionLines slots functions l f = .ok l') (hn : n ∉ f.1.lines) :
    l'.acts n = l.acts n := by
  obtain ⟨e, e', hbody, hbefore, hafter⟩ := exists_functionLines hok
  obtain ⟨hheader, hrest⟩ := not_or.mp (mt mem_cons.mpr hn)
  rw [Lines.acts_of_coded hafter, acts_body_of_not_mem hbody hrest,
    acts_header hbefore fun he => hheader he.symm]

theorem origin_functionLines (l : Lines) (f : Function × ScopeTable) (l' : Lines)
    (hok : functionLines slots functions l f = .ok l') : l'.origin = none := by
  obtain ⟨last, hlast, rfl⟩ := exists_of_return_eq_ok hok
  rfl

theorem exists_acts_functionLines (l : Lines) (f : Function × ScopeTable) (l' : Lines)
    (hok : functionLines slots functions l f = .ok l') (hnodup : f.1.lines.Nodup)
    (hs : s ∈ f.1.body) :
    ∃ cs, (∃ ctx k, statementCodes ctx k s = .ok cs) ∧ l'.acts s.line = l.acts s.line ++ cs := by
  obtain ⟨e, e', hbody, hbefore, hafter⟩ := exists_functionLines hok
  obtain ⟨hheader, hnodup⟩ := nodup_cons.mp hnodup
  obtain ⟨k, cs, hcodes, hacts⟩ := exists_acts_body hbody hnodup hs
  have hne : f.1.headerLine ≠ s.line := fun he => hheader (he ▸ mem_map_of_mem hs)
  refine ⟨cs, ⟨_, k, hcodes⟩, ?_⟩
  rw [Lines.acts_of_coded hafter, hacts, acts_header hbefore hne]

theorem exists_mainLines {table : ScopeTable}
    (hok : mainLines slots functions table body l = .ok l') :
    ∃ e e' e'' : Emitter, e.body ⟨slots, functions, table.scope, false⟩ body = .ok e' ∧
      Emits ⟨l.blank, [false], 0⟩
        (.defineMain :: (table.names.filter (!([]).contains ·)).map Code.unset) e ∧
      Emits { e' with listing := e'.listing.setOrigin none } [] e'' ∧
      l'.coded = e''.listing.coded ∧ l'.origin = e''.listing.origin := by
  obtain ⟨last, hlast, rfl⟩ := exists_of_return_eq_ok hok
  have hheader : Emits ⟨l.blank, [false], 0⟩ [.defineMain]
      ⟨(l.blank.emit .defineMain).indent, [false], 0⟩ :=
    emits_of_emit rfl (extends_emit _ _).indent
  exact ⟨_, last, _, hlast, hheader.trans (emits_enter _ table.names []),
    emits_closeBlock _, rfl, rfl⟩

theorem exists_acts_mainLines {table : ScopeTable}
    (hok : mainLines slots functions table body l = .ok l') (hl : l.origin = none) (s : Statement) :
    (s.line ∉ body.map Statement.line → l'.acts s.line = l.acts s.line) ∧
      ((body.map Statement.line).Nodup → s ∈ body →
        ∃ cs, (∃ ctx k, statementCodes ctx k s = .ok cs) ∧
          l'.acts s.line = l.acts s.line ++ cs) := by
  obtain ⟨e, e', e'', hbody, hbefore, hclose, hafter, -⟩ := exists_mainLines hok
  have hstart : e.listing.acts s.line = l.acts s.line := by
    refine (hbefore.acts s.line).trans ?_
    show Lines.acts l.blank s.line ++ (if l.origin = some s.line then _ else []) = _
    rw [hl, if_neg nofun, append_nil, Lines.acts_blank]
  have hend : l'.acts s.line = e'.listing.acts s.line := by
    rw [Lines.acts_of_coded hafter, hclose.acts, ite_self, append_nil]
    rfl
  constructor
  · intro hnot
    rw [hend, acts_body_of_not_mem hbody hnot, hstart]
  · intro hnodup hs
    obtain ⟨k, cs, hcodes, hacts⟩ := exists_acts_body hbody hnodup hs
    exact ⟨cs, ⟨_, k, hcodes⟩, by rw [hend, hacts, hstart]⟩

theorem Lines.acts_of_extends {codes : List Code} (h : l.Extends codes l') (hl : l.origin = none)
    (n : Nat) : l'.acts n = l.acts n := by
  rw [Lines.acts, h.codesFrom_of_none hl, Lines.acts]

theorem extends_support (settings : Settings) :
    ({} : Lines).Extends
      ([.comment "Generated by pseudoflow 0.1.0: instrumented program",
        .entry settings.entryPoint] ++ supportLines.map Code.support)
      (((({} : Lines).emit (.comment "Generated by pseudoflow 0.1.0: instrumented program")).emit
        (.entry settings.entryPoint)).indent.emitAll (supportLines.map Code.support)) :=
  (((extends_emit _ _).trans (extends_emit _ _)).indent).trans
    (extends_emitAll _ _)

theorem exists_acts_ofProgram {settings : Settings} {v : Variables} {p : Program}
    (hok : ofProgram settings v p = .ok l) (hlength : p.functions.length = v.functions.length)
    (hnodup : (p.functions.flatMap Function.lines ++ p.main.map Statement.line).Nodup)
    (hs : s ∈ p.functions.flatMap Function.body ++ p.main) :
    ∃ ctx k, statementCodes ctx k s = .ok (l.acts s.line) := by
  obtain ⟨afterFunctions, hfunctions, hok⟩ := exists_of_bind_eq_ok hok
  obtain ⟨afterMain, hmain, rfl⟩ := exists_of_return_eq_ok hok
  have hfst : (p.functions.zip v.functions).map Prod.fst = p.functions :=
    map_fst_zip (Nat.le_of_eq hlength)
  have hsupport := extends_support settings
  have horigin : afterMain.origin = none := by
    obtain ⟨_, _, _, -, -, ⟨all, hadded, -⟩, -, horigin⟩ := exists_mainLines hmain
    exact horigin.trans hadded.origin
  obtain ⟨cs, ⟨ctx, k, hcodes⟩, hacts⟩ :=
    exists_written (fun l => l.origin = none) (hfst.symm ▸ hnodup) (hfst.symm ▸ hs)
      (acts_functionLines_of_not_mem s.line)
      (fun l f l' hok hnodup hs => exists_acts_functionLines l f l' hok hnodup hs)
      origin_functionLines
      (fun l l' hok hl => exists_acts_mainLines hok hl s) hsupport.origin hfunctions hmain
  refine ⟨ctx, k, hcodes.trans (congrArg Except.ok ?_)⟩
  have hend : Lines.acts (afterMain.blank.emit (.support "await __main()")).dedent s.line =
      afterMain.acts s.line :=
    (Lines.acts_of_extends (extends_emit afterMain.blank _) horigin _).trans
      (Lines.acts_blank afterMain _)
  rw [hend, hacts, Lines.acts_of_extends hsupport rfl]
  rfl

end Pseudocode.Script
