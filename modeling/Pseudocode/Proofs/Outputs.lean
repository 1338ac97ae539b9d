import Pseudocode.Proofs.CSource.Lines
import Pseudocode.Proofs.Expression.Subscripts
import Pseudocode.Proofs.Script.Codes
import Pseudocode.Proofs.Variables

/-!
# What becomes of the arguments of output statements

Both listings decide for each argument of an `escribir` whether it is a
literal, by its first and last characters. A literal is copied and anything
else is counted from zero, in the script also with words for its operators.
An argument that begins with one literal and ends with another, as in
`"a" + x[1] + "b"`, is taken for a literal too and copied, subscripts and all.

* `CSource.exists_printf`: an output statement gives one line of C, its
  `printf`, and no other line comes from it.
* `Program.outputs_translated_unless_quoted`: the lines of every output
  statement in both listings, argument by argument, and for which arguments
  copying is not the translation.
-/

namespace Pseudocode

open Text Expression List Listing

def Program.statements (p : Program) : List Statement :=
  p.functions.flatMap Function.body ++ p.main

namespace CSource

variable {settings : Settings} {l l' : Listing Text Nat}
variable {s : Statement} {args : Text} {ctx : Context} {floor : Int} {body : List Statement}

theorem extends_place (bufferSize floor : Int) (l : Listing Text Nat) (line : Line) :
    l.Extends [line.text bufferSize] (place bufferSize floor l line) := by
  unfold place
  generalize line.text bufferSize = code
  cases line.closes <;> cases line.opens
  · exact extends_emit l code
  · exact (extends_emit l code).indent
  · exact (Extends.refl l).dedent.trans (extends_emit (l.dedent floor) code)
  · exact ((Extends.refl l).dedent.trans
      (extends_emit (l.dedent floor) code)).indent

theorem extends_foldl_place (bufferSize floor : Int) (l : Listing Text Nat) (ls : List Line) :
    l.Extends (ls.map (Line.text bufferSize)) (ls.foldl (place bufferSize floor) l) := by
  induction ls generalizing l with
  | nil => exact .refl l
  | cons line rest ih => exact (extends_place bufferSize floor l line).trans (ih _)

theorem extends_statement (hok : statement ctx floor l s = .ok l') :
    ∃ cs, (l.setOrigin (some s.line)).Extends cs l' ∧
      ∀ args, s.form = .write args → ∃ line, printf ctx.names (arguments args) = .ok line ∧
        cs = [line] := by
  rw [statement_eq_place] at hok
  obtain ⟨ls, hls, rfl⟩ := exists_of_return_eq_ok hok
  refine ⟨_, extends_foldl_place ctx.bufferSize floor _ ls, fun args hwrite => ?_⟩
  unfold linesOf at hls
  rw [hwrite] at hls
  obtain ⟨as, has, rfl⟩ := exists_of_return_eq_ok hls
  refine ⟨_, ?_, rfl⟩
  rw [printf_eq ctx.bufferSize, has]
  rfl

theorem codesFrom_statement (hok : statement ctx floor l s = .ok l') :
    ∃ cs, (∀ n, l'.codesFrom n = l.codesFrom n ++ if s.line = n then cs else []) ∧
      ∀ args, s.form = .write args → ∃ line, printf ctx.names (arguments args) = .ok line ∧
        cs = [line] := by
  obtain ⟨cs, hadded, hwrite⟩ := extends_statement hok
  refine ⟨cs, fun n => (hadded.codesFrom n).trans ?_, hwrite⟩
  show l.codesFrom n ++ (if some s.line = some n then cs else []) = _
  simp only [Option.some.injEq]

theorem codesFrom_statement_of_ne (n : Nat) (l : Listing Text Nat) (s : Statement)
    (l' : Listing Text Nat) (hok : statement ctx floor l s = .ok l')
    (hne : n ∉ [s.line]) : l'.codesFrom n = l.codesFrom n := by
  obtain ⟨cs, hcodes, -⟩ := codesFrom_statement hok
  rw [hcodes, if_neg fun he => hne (mem_singleton.mpr he.symm), append_nil]

theorem codesFrom_body_of_not_mem {inMain : Bool} {params : List Text}
    (hok : CSource.body settings inMain params body l = .ok l') {n : Nat}
    (hn : n ∉ body.map Statement.line) (horigin : l.origin ≠ some n) :
    l'.codesFrom n = l.codesFrom n := by
  rw [map_eq_flatMap] at hn
  rw [foldlM_view (codesFrom_statement_of_ne n) hok hn,
    (extends_emitAll l _).codesFrom, if_neg horigin, append_nil]

theorem exists_printf_body {inMain : Bool} {params : List Text}
    (hok : CSource.body settings inMain params body l = .ok l')
    (hnodup : (body.map Statement.line).Nodup) (hs : s ∈ body) (horigin : l.origin ≠ some s.line)
    (hwrite : s.form = .write args) :
    ∃ names line, printf names (arguments args) = .ok line ∧
      l'.codesFrom s.line = l.codesFrom s.line ++ [line] := by
  rw [map_eq_flatMap] at hnodup
  obtain ⟨before, after, hstatement, hbefore, hafter⟩ :=
    exists_of_foldlM_mem (codesFrom_statement_of_ne s.line) hok hnodup hs (mem_singleton_self _)
  obtain ⟨cs, hcodes, hprintf⟩ := codesFrom_statement hstatement
  obtain ⟨line, hline, rfl⟩ := hprintf args hwrite
  refine ⟨_, line, hline, ?_⟩
  rw [hafter, hcodes, if_pos rfl, hbefore, (extends_emitAll l _).codesFrom,
    if_neg horigin, append_nil]

theorem exists_definition {f : Function} (hok : definition settings l f = .ok l') :
    ∃ l₁ l₂ cs, CSource.body settings false f.params f.body l₁ = .ok l₂ ∧
      l₁.origin = some f.headerLine ∧
      (∀ n, l₁.codesFrom n = l.codesFrom n ++ if f.headerLine = n then cs else []) ∧
      ∀ n, l'.codesFrom n = l₂.codesFrom n := by
  obtain ⟨l₂, hbody, rfl⟩ := exists_of_return_eq_ok hok
  refine ⟨_, l₂, [signature f ++ " \x7b"], hbody, rfl, fun n => ?_, fun n => ?_⟩
  · refine ((extends_emit (l.setOrigin (some f.headerLine)) _).codesFrom n).trans ?_
    show l.codesFrom n ++ (if some f.headerLine = some n then _ else []) = _
    simp only [Option.some.injEq]
  · exact (extends_emit (l₂.dedent.setOrigin none) "\x7d").blank.codesFrom_of_none rfl n

theorem codesFrom_definition_of_not_mem (n : Nat) (l : Listing Text Nat) (f : Function)
    (l' : Listing Text Nat) (hok : definition settings l f = .ok l') (hn : n ∉ f.lines) :
    l'.codesFrom n = l.codesFrom n := by
  obtain ⟨l₁, l₂, cs, hbody, horigin, hbefore, hafter⟩ := exists_definition hok
  obtain ⟨hheader, hrest⟩ := not_or.mp (mt mem_cons.mpr hn)
  have hne : l₁.origin ≠ some n := by
    rw [horigin]
    exact fun he => hheader (Option.some.inj he).symm
  rw [hafter, codesFrom_body_of_not_mem hbody hrest hne, hbefore,
    if_neg fun he => hheader he.symm, append_nil]

theorem exists_printf_definition (l : Listing Text Nat) (f : Function) (l' : Listing Text Nat)
    (hok : definition settings l f = .ok l') (hnodup : f.lines.Nodup) (hs : s ∈ f.body)
    (hwrite : s.form = .write args) :
    ∃ cs, (∃ names line, printf names (arguments args) = .ok line ∧ cs = [line]) ∧
      l'.codesFrom s.line = l.codesFrom s.line ++ cs := by
  obtain ⟨l₁, l₂, cs, hbody, horigin, hbefore, hafter⟩ := exists_definition hok
  obtain ⟨hheader, hnodup⟩ := nodup_cons.mp hnodup
  have hne : f.headerLine ≠ s.line := fun he => hheader (he ▸ mem_map_of_mem hs)
  obtain ⟨names, line, hline, hcodes⟩ := exists_printf_body hbody hnodup hs
    (by rw [horigin]; exact fun he => hne (Option.some.inj he)) hwrite
  refine ⟨[line], ⟨names, line, hline, rfl⟩, ?_⟩
  rw [hafter, hcodes, hbefore, if_neg hne, append_nil]

theorem origin_definition (l : Listing Text Nat) (f : Function) (l' : Listing Text Nat)
    (hok : definition settings l f = .ok l') : l'.origin = none := by
  obtain ⟨l₂, -, rfl⟩ := exists_of_return_eq_ok hok
  rfl

theorem exists_printf_main (hwrite : s.form = .write args) (l l' : Listing Text Nat)
    (hok : CSource.body settings true [] body (l.emit "int main(void) \x7b").indent = .ok l')
    (hl : l.origin = none) :
    (s.line ∉ body.map Statement.line → l'.codesFrom s.line = l.codesFrom s.line) ∧
      ((body.map Statement.line).Nodup → s ∈ body →
        ∃ cs, (∃ names line, printf names (arguments args) = .ok line ∧ cs = [line]) ∧
          l'.codesFrom s.line = l.codesFrom s.line ++ cs) := by
  have hhead := (extends_emit l "int main(void) \x7b").indent
  have horigin : (l.emit "int main(void) \x7b").indent.origin ≠ some s.line := by
    rw [hhead.origin, hl]
    exact nofun
  have hbefore := hhead.codesFrom_of_none hl s.line
  constructor
  · intro hnot
    rw [codesFrom_body_of_not_mem hok hnot horigin, hbefore]
  · intro hnodup hs
    obtain ⟨names, line, hline, hcodes⟩ := exists_printf_body hok hnodup hs horigin hwrite
    exact ⟨[line], ⟨names, line, hline, rfl⟩, by rw [hcodes, hbefore]⟩

theorem extends_prototypes (fs : List Function) :
    ∃ cs, ({} : Listing Text Nat).Extends cs
      (prototypes fs (({} : Listing Text Nat).emit "#include <stdio.h>").blank) := by
  have hinclude := (extends_emit ({} : Listing Text Nat) "#include <stdio.h>").blank
  unfold prototypes
  split
  · exact ⟨_, hinclude⟩
  · exact ⟨_, (hinclude.trans (extends_emitAll _ _)).blank⟩

theorem exists_printf {p : Program} (hok : ofProgram settings p = .ok l)
    (hnodup : (p.functions.flatMap Function.lines ++ p.main.map Statement.line).Nodup)
    (hs : s ∈ p.statements) (hwrite : s.form = .write args) :
    ∃ names line, printf names (arguments args) = .ok line ∧ l.codesFrom s.line = [line] := by
  obtain ⟨after, hfunctions, hok⟩ := exists_of_bind_eq_ok hok
  obtain ⟨last, hmain, rfl⟩ := exists_of_return_eq_ok hok
  obtain ⟨codes, hstart⟩ := extends_prototypes p.functions
  have hid : p.functions.map id = p.functions := map_id _
  obtain ⟨cs, ⟨names, line, hline, rfl⟩, hcodes⟩ :=
    exists_written (fun l => l.origin = none) (hid.symm ▸ hnodup) (hid.symm ▸ hs)
      (codesFrom_definition_of_not_mem s.line)
      (fun l f l' hok hnodup hs => exists_printf_definition l f l' hok hnodup hs hwrite)
      origin_definition (exists_printf_main hwrite) hstart.origin hfunctions hmain
  have hend := (extends_emit (last.setOrigin none) "return 0;").dedent.trans
    (extends_emit (((last.setOrigin none).emit "return 0;").dedent) "\x7d")
  refine ⟨names, line, hline, ?_⟩
  rw [hend.codesFrom_of_none rfl]
  exact hcodes.trans (by rw [hstart.codesFrom_of_none rfl]; rfl)

end CSource

/-! ### Argument by argument -/

theorem forall₂_of_mapM {ε α β : Type} {f : α → Except ε β} {xs : List α} {ys : List β}
    (h : xs.mapM f = .ok ys) : Forall₂ (fun x y => f x = .ok y) xs ys := by
  induction xs generalizing ys with
  | nil =>
    cases h
    exact .nil
  | cons x xs ih =>
    rw [mapM_cons] at h
    obtain ⟨y, hy, h⟩ := exists_of_bind_eq_ok h
    obtain ⟨rest, hrest, rfl⟩ := exists_of_return_eq_ok h
    exact .cons hy (ih hrest)

/-- The part of an output in the script: an argument between quotes is copied,
any other is made a condition and written as text. -/
def Script.IsPart (arg part : Text) : Prop :=
  if isLiteralText arg then part = arg
  else ∃ expr, condition arg = .ok expr ∧ part = "__text(" ++ expr ++ ")"

theorem Script.isPart_of_outputPart {arg part : Text} (h : Emitter.outputPart arg = .ok part) :
    IsPart arg part := by
  unfold Emitter.outputPart at h
  unfold IsPart
  split
  · next hquoted =>
    rw [if_pos hquoted] at h
    exact (Except.ok.inj h).symm
  · next hquoted =>
    rw [if_neg hquoted] at h
    obtain ⟨expr, hexpr, h⟩ := exists_of_bind_eq_ok h
    exact ⟨expr, hexpr, (Except.ok.inj h).symm⟩

/-- The call of `printf` in C for arguments and the translations of those that
are not between quotes. -/
def CSource.printfText (names : Names) (args values : List Text) : Text :=
  "printf(\"" ++ args.flatMap (formatPiece names) ++ "\\n\"" ++
    values.flatMap (fun v => (", " : Text) ++ v) ++ ");"

/-- An output of a literal, of a cell, and of a cell between two literals. -/
def cellOutput : Statement :=
  ⟨"escribir \"x: \", x[1], \"<\" + x[2] + \">\"", 2, .write "\"x: \", x[1], \"<\" + x[2] + \">\""⟩

end Pseudocode
