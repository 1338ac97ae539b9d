import Pseudocode.CSource

/-!
# The lines of a listing in C

A listing in C is a sequence of texts. What a line does, whether it opens or
closes a block, declares a name or converts a value, is known when it is
written but can no longer be read off its text, since a part of it is the
user's. This module gives the lines as data, and says that a listing has
the texts of its lines.

* `Line`: a line of C, with `Line.text`.
* `linesOf`: the lines of one statement. `statement_eq_place` says that a
  statement writes them.
-/

namespace Pseudocode.CSource

open Text Expression List

/-- How `scanf` and `printf` convert a value. -/
inductive Conversion where
  | integer
  | character
  | string
  | decimal
deriving DecidableEq, Repr

/-- The conversion as a format of `printf` has it. -/
def Conversion.text : Conversion → Text
  | .integer => "%d"
  | .character => "%c"
  | .string => "%s"
  | .decimal => "%g"

def CType.conversion : CType → Conversion
  | .int => .integer
  | .char => .character
  | .text => .string

inductive Argument where
  /-- A literal, as it is in the format. -/
  | literal (t : Text)
  /-- A value, as the statement and as the call has it. -/
  | value (conversion : Conversion) (source shifted : Text)
deriving DecidableEq, Repr

namespace Argument

def piece : Argument → Text
  | .literal t => t
  | .value conversion _ _ => conversion.text

def passed? : Argument → Option Text
  | .literal _ => none
  | .value _ _ shifted => some shifted

end Argument

inductive Head where
  | function (f : Function)
  | main
  | whileLoop (test : Text)
  | forLoop (declares : Bool) (counter start stop : Text)
  | repeatLoop
  | ifTest (test : Text)
deriving DecidableEq, Repr

inductive Line where
  | directive
  | prototype (f : Function)
  | remark (t : Text)
  | declare (type : CType) (name : Text) (size : Option Nat)
  /-- The type is the one that the conversion is for; the target is a cell
  or the name itself. -/
  | scan (type : CType) (name : Text) (cell : Option Text)
  | print (args : List Argument)
  | leave (inMain : Bool)
  | call (t : Text)
  | head (h : Head)
  /-- The end of a first branch and the start of a second one. -/
  | otherwise
  | close
  /-- The end of a loop that tests last. -/
  | closeUntil (test : Text)
deriving DecidableEq, Repr

/-- The text of the head of a block, with its brace. -/
def Head.text : Head → Text
  | .function f => signature f ++ " \x7b"
  | .main => "int main(void) \x7b"
  | .whileLoop test => "while (" ++ test ++ ") \x7b"
  | .forLoop declares counter start stop =>
    "for (" ++ (if declares then "int " ++ counter else counter) ++ " = " ++ start ++ "; " ++
      counter ++ " <= " ++ stop ++ "; " ++ counter ++ " += 1) \x7b"
  | .repeatLoop => "do \x7b"
  | .ifTest test => "if (" ++ test ++ ") \x7b"

namespace Line

def text (bufferSize : Int) : Line → Text
  | .directive => "#include <stdio.h>"
  | .prototype f => signature f ++ ";"
  | .remark t => CommentStyle.slashStar.comment t
  | .declare type name size =>
    let extent : Text := match size with
      | some size => "[" ++ ofNat size ++ "]"
      | none => []
    match type with
    | .int => "int " ++ name ++ extent ++ ";"
    | .char => "char " ++ name ++ extent ++ ";"
    | .text => "char " ++ name ++ extent ++ "[" ++ ofInt bufferSize ++ "];"
  | .scan type name cell =>
    let target := cell.getD name
    match type with
    | .int => "scanf(\"%d\", &" ++ target ++ ");"
    | .char => "scanf(\" %c\", &" ++ target ++ ");"
    | .text => "scanf(\"%" ++ ofInt (bufferSize - 1) ++ "s\", " ++ target ++ ");"
  | .print args => "printf(\"" ++ args.flatMap Argument.piece ++ "\\n\"" ++
      (args.filterMap Argument.passed?).flatMap (fun v => (", " : Text) ++ v) ++ ");"
  | .leave inMain => if inMain then "return 0;" else "return;"
  | .call t => if t.getLast? = some ';' then t else t ++ ";"
  | .head h => h.text
  | .otherwise => "\x7d else \x7b"
  | .close => "\x7d"
  | .closeUntil test => "\x7d while (!(" ++ test ++ "));"

def opens : Line → Bool
  | .head _ | .otherwise => true
  | _ => false

def closes : Line → Bool
  | .otherwise | .close | .closeUntil _ => true
  | _ => false

end Line

/-! ### The lines of a statement -/

/-- The conversion for an argument that is no literal. -/
def conversionOf (n : Names) (arg : Text) : Conversion :=
  match n.valueType? arg with
  | some .int => .integer
  | some .char => .character
  | _ => if Names.isDecimal arg then .decimal else .string

def argumentOf (n : Names) (arg : Text) : Except IndexFault Argument := do
  if isLiteralText arg then return .literal (formatPiece n arg)
  else return .value (conversionOf n arg) arg (← shift arg)

def remarks (t : Text) : List Line :=
  (cutAt (· == '\n') t).map .remark

def linesOf (ctx : Context) (s : Statement) : Except IndexFault (List Line) := do
  match s.form with
  | .comment _ => return remarks (commentBody s.text)
  | .declare type name size => return [.declare (CType.of type) name size]
  | .read _ name index =>
    let cell ← index.mapM (shiftCell name)
    return [.scan ((ctx.names.typeOf? name).getD .text) name cell]
  | .whileLoop condition => return [.head (.whileLoop (← shift condition))]
  | .forLoop counter start stop =>
    return [.head (.forLoop (!ctx.names.declared.contains counter) counter (← shift start)
      (← shift stop))]
  | .repeatLoop => return [.head .repeatLoop]
  | .untilTest condition => return [.closeUntil (← shift condition)]
  | .ifTest condition => return [.head (.ifTest (← shift condition))]
  | .elseBranch => return [.otherwise]
  | .endWhile | .endFor | .endIf => return [.close]
  | .thenBranch => return []
  | .write args => return [.print (← (arguments args).mapM (argumentOf ctx.names))]
  | .returnScope => return [.leave ctx.inMain]
  | .call _ => return [.call (← shift s.text)]
  | _ => return remarks s.text

/-- One more line, one level back if it closes a block, and one level deeper
after it if it opens one. -/
def place (bufferSize floor : Int) (l : Listing Text Nat) (line : Line) : Listing Text Nat :=
  let l := if line.closes then l.dedent floor else l
  let l := l.emit (line.text bufferSize)
  if line.opens then l.indent else l

theorem text_conversionOf (n : Names) (arg : Text) :
    (conversionOf n arg).text = conversion n arg := by
  unfold conversionOf conversion
  cases n.valueType? arg with
  | none => dsimp only; split <;> rfl
  | some type =>
    cases type with
    | int | char => rfl
    | text => dsimp only; split <;> rfl

def formatOf (args : List Argument) : Text × List Text :=
  (args.flatMap Argument.piece, args.filterMap Argument.passed?)

theorem formatOf_cons (arg : Argument) (args : List Argument) :
    formatOf (arg :: args) =
      (arg.piece ++ (formatOf args).1, arg.passed?.toList ++ (formatOf args).2) := by
  cases arg <;> rfl

theorem map_formatOf_mapM (n : Names) (args : List Text) :
    (args.mapM (argumentOf n)).map formatOf =
      ((args.filter (!isLiteralText ·)).mapM shift).map (args.flatMap (formatPiece n), ·) := by
  induction args with
  | nil => rfl
  | cons arg rest ih =>
    -- Both sides do the first argument and then what they do for the others.
    have hcons (a : Argument) (found : Except IndexFault (List Argument)) :
        (found >>= fun as => pure (a :: as)).map formatOf = (found.map formatOf).map fun p =>
          (a.piece ++ p.1, a.passed?.toList ++ p.2) := by
      cases found with
      | error => rfl
      | ok as => exact congrArg Except.ok (formatOf_cons a as)
    rw [mapM_cons, filter_cons, flatMap_cons]
    by_cases hliteral : isLiteralText arg = true
    · have harg : argumentOf n arg = .ok (.literal (formatPiece n arg)) := if_pos hliteral
      rw [harg, if_neg (by simp [hliteral])]
      refine (hcons (.literal (formatPiece n arg)) _).trans ?_
      rw [ih]
      cases (rest.filter (!isLiteralText ·)).mapM shift <;> rfl
    · have harg : argumentOf n arg = (shift arg).map (.value (conversionOf n arg) arg) := by
        unfold argumentOf
        rw [if_neg hliteral]
        cases shift arg <;> rfl
      have hpiece : formatPiece n arg = (conversionOf n arg).text := by
        rw [text_conversionOf, formatPiece, if_neg hliteral]
      rw [harg, if_pos (by simpa using hliteral), mapM_cons, hpiece]
      cases shift arg with
      | error => rfl
      | ok shifted =>
        refine (hcons (.value (conversionOf n arg) arg shifted) _).trans ?_
        rw [ih]
        cases (rest.filter (!isLiteralText ·)).mapM shift <;> rfl

theorem printf_eq (bufferSize : Int) (n : Names) (args : List Text) :
    printf n args = (args.mapM (argumentOf n)).map fun as => (Line.print as).text bufferSize := by
  have hformat := map_formatOf_mapM n args
  unfold printf
  generalize args.mapM (argumentOf n) = found at hformat
  generalize (args.filter (!isLiteralText ·)).mapM shift = values at hformat
  cases found with
  | error =>
    cases values with
    | error =>
      simp only [Except.map, Except.error.injEq] at hformat
      exact congrArg Except.error hformat.symm
    | ok => simp [Except.map] at hformat
  | ok =>
    cases values with
    | error => simp [Except.map] at hformat
    | ok =>
      simp only [Except.map, Except.ok.injEq, formatOf, Prod.mk.injEq] at hformat
      rw [← hformat.1, ← hformat.2]
      rfl

theorem scanf_eq (ctx : Context) (name : Text) (index : Option Text) :
    scanf ctx name index = (index.mapM (shiftCell name)).map fun cell =>
      (Line.scan ((ctx.names.typeOf? name).getD .text) name cell).text ctx.bufferSize := by
  unfold scanf
  cases index with
  | none => rfl
  | some index =>
    simp only [Option.mapM_some]
    cases shiftCell name index <;> rfl

theorem forHeader_eq (bufferSize : Int) (n : Names) (counter start stop : Text) :
    forHeader n counter start stop =
      (Line.head (.forLoop (!n.declared.contains counter) counter start stop)).text bufferSize := by
  unfold forHeader
  cases n.declared.contains counter <;> rfl

/-! ### Statements -/

theorem emitAll_comments (bufferSize floor : Int) (l : Listing Text Nat) (t : Text) :
    l.emitAll (CommentStyle.slashStar.comments t) =
      (remarks t).foldl (place bufferSize floor) l := by
  rw [CommentStyle.comments, remarks, Listing.emitAll, foldl_map, foldl_map]
  rfl

theorem statement_eq_place (ctx : Context) (floor : Int) (l : Listing Text Nat) (s : Statement) :
    statement ctx floor l s = (linesOf ctx s).map
      (·.foldl (place ctx.bufferSize floor) (l.setOrigin (some s.line))) := by
  unfold statement linesOf
  cases s.form with
  | comment => exact congrArg Except.ok (emitAll_comments ..)
  | read target name index =>
    dsimp only
    rw [scanf_eq]
    cases index.mapM (shiftCell name) <;> rfl
  | whileLoop c | untilTest c | ifTest c =>
    dsimp only
    cases shift c <;> rfl
  | forLoop counter start stop =>
    dsimp only
    cases shift start with
    | error => rfl
    | ok =>
      cases shift stop with
      | error => rfl
      | ok =>
        simp only [forHeader_eq ctx.bufferSize]
        rfl
  | write args =>
    dsimp only
    rw [printf_eq ctx.bufferSize]
    cases (arguments args).mapM (argumentOf ctx.names) <;> rfl
  | call =>
    cases shift s.text <;> rfl
  | declare type =>
    cases type <;> rfl
  | repeatLoop | elseBranch | endWhile | endFor | endIf | thenBranch | returnScope => rfl
  | _ => exact congrArg Except.ok (emitAll_comments ..)

end Pseudocode.CSource
