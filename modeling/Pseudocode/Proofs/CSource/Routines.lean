import Pseudocode.Proofs.CSource.Blocks

/-!
# The lines of a whole listing

A listing in C is a preamble with the prototypes, the functions and the main
routine. A function and the main routine are written alike: a head, the
buffers of the names that are read and never declared, the lines of the
statements, and a tail.

* `Routine`, `Routine.lines`: a function or the main routine, and its lines.
* `map_codes_ofProgram`: the listing has the texts of these lines, blank
  lines apart, and fails where they do.
-/

namespace Pseudocode.CSource

open Text Expression

structure Routine where
  head : Head
  params : List Text
  body : List Statement
  tail : List Line
deriving DecidableEq, Repr

namespace Routine

def ofFunction (f : Function) : Routine :=
  ⟨.function f, f.params, f.body, [.close]⟩

def ofMain (body : List Statement) : Routine :=
  ⟨.main, [], body, [.leave true, .close]⟩

/-- What is known when the body is written. -/
def context (bufferSize : Int) (r : Routine) : Context :=
  ⟨bufferSize, .ofBody r.params r.body, r.head == .main⟩

def lines (bufferSize : Int) (r : Routine) : Except IndexFault (List Line) := do
  let ctx := r.context bufferSize
  return .head r.head :: (bufferLines ctx.names ++ (← r.body.mapM (linesOf ctx)).flatten ++ r.tail)

end Routine

end Pseudocode.CSource

namespace Pseudocode

open CSource List

def Program.routines (p : Program) : List Routine :=
  p.functions.map .ofFunction ++ [.ofMain p.main]

def Program.preamble (p : Program) : List Line :=
  .directive :: p.functions.map .prototype

/-- The codes of a listing, blank lines apart. -/
def Listing.codes {α : Type} (l : Listing α Nat) : List α :=
  l.coded.map Prod.snd

namespace CSource

open Text Expression

/-! ### The listing has the texts of the lines -/

section Texts

variable {bufferSize floor : Int} {l : Listing Text Nat}
variable {result : Except IndexFault (Listing Text Nat)} {written : Except IndexFault (List Line)}

theorem codes_emit (code : Text) : (l.emit code).codes = l.codes ++ [code] := by
  simp [Listing.codes, Listing.coded_emit]

theorem codes_emitAll (codes : List Text) : (l.emitAll codes).codes = l.codes ++ codes := by
  simp [Listing.codes, (Listing.extends_emitAll l codes).coded, Function.comp_def]

theorem codes_blank : l.blank.codes = l.codes := by
  rw [Listing.codes, Listing.coded_blank, Listing.codes]

theorem codes_place (line : Line) :
    (place bufferSize floor l line).codes = l.codes ++ [line.text bufferSize] := by
  have hemit (l' : Listing Text Nat) (h : l'.codes = l.codes) :
      (l'.emit (line.text bufferSize)).codes = l.codes ++ [line.text bufferSize] := by
    rw [codes_emit, h]
  unfold place
  cases line.opens <;> cases line.closes <;> exact hemit _ rfl

theorem codes_foldl_place (ls : List Line) :
    (ls.foldl (place bufferSize floor) l).codes = l.codes ++ ls.map (Line.text bufferSize) := by
  induction ls generalizing l with
  | nil => simp
  | cons line rest ih => rw [foldl_cons, ih, codes_place, append_assoc]; rfl

/-- A computation adds the texts of some lines to a listing, or both fail. -/
inductive Writes (bufferSize : Int) (l : Listing Text Nat) :
    Except IndexFault (Listing Text Nat) → Except IndexFault (List Line) → Prop
  | error (fault : IndexFault) : Writes bufferSize l (.error fault) (.error fault)
  | ok {l' : Listing Text Nat} {ls : List Line} :
      l'.codes = l.codes ++ ls.map (Line.text bufferSize) → Writes bufferSize l (.ok l') (.ok ls)

theorem Writes.bind {written' : Except IndexFault (List Line)}
    {f : Listing Text Nat → Except IndexFault (Listing Text Nat)}
    (h : Writes bufferSize l result written) (hf : ∀ l', Writes bufferSize l' (f l') written') :
    Writes bufferSize l (result >>= f) (do return (← written) ++ (← written')) := by
  cases h with
  | error fault => exact .error fault
  | @ok l' ls hls =>
    have hrest := hf l'
    show Writes bufferSize l (f l') (do return ls ++ (← written'))
    revert hrest
    generalize f l' = result
    rintro (fault | ⟨hls'⟩)
    · exact .error fault
    · refine .ok ?_
      rw [hls', hls, append_assoc, ← map_append]

theorem Writes.after {rest : Listing Text Nat → Listing Text Nat} {tail : List Line}
    (h : Writes bufferSize l result written)
    (hrest : ∀ l', (rest l').codes = l'.codes ++ tail.map (Line.text bufferSize)) :
    Writes bufferSize l (do return rest (← result)) (do return (← written) ++ tail) := by
  cases h with
  | error fault => exact .error fault
  | ok hls =>
    refine .ok ?_
    rw [hrest, hls, append_assoc, ← map_append]

theorem Writes.before {first : Listing Text Nat} {head : List Line}
    (h : Writes bufferSize l result written)
    (hfirst : l.codes = first.codes ++ head.map (Line.text bufferSize)) :
    Writes bufferSize first result (do return head ++ (← written)) := by
  cases h with
  | error fault => exact .error fault
  | ok hls =>
    refine .ok ?_
    rw [hls, hfirst, append_assoc, ← map_append]

theorem Writes.foldlM {γ : Type}
    {step : Listing Text Nat → γ → Except IndexFault (Listing Text Nat)}
    {lines : γ → Except IndexFault (List Line)}
    (h : ∀ l x, Writes bufferSize l (step l x) (lines x)) (xs : List γ) :
    Writes bufferSize l (xs.foldlM step l) ((xs.mapM lines).map flatten) := by
  induction xs generalizing l with
  | nil => exact .ok (append_nil _).symm
  | cons x rest ih =>
    have hcons : ((x :: rest).mapM lines).map flatten =
        (do return (← lines x) ++ (← (rest.mapM lines).map flatten)) := by
      rw [mapM_cons]
      cases lines x with
      | error => rfl
      | ok => cases rest.mapM lines <;> rfl
    rw [hcons]
    exact (h l x).bind fun l' => ih

theorem writes_statement (ctx : Context) (l : Listing Text Nat) (s : Statement) :
    Writes ctx.bufferSize l (statement ctx floor l s) (linesOf ctx s) := by
  rw [statement_eq_place]
  cases linesOf ctx s with
  | error fault => exact .error fault
  | ok ls => exact .ok (codes_foldl_place ls)

theorem writes_body (settings : Settings) (inMain : Bool) (params : List Text)
    (body : List Statement) :
    Writes settings.bufferSize l (CSource.body settings inMain params body l)
      (do return bufferLines (.ofBody params body) ++ (← (body.mapM
        (linesOf ⟨settings.bufferSize, .ofBody params body, inMain⟩)).map flatten)) := by
  have hbuffers : (Names.ofBody params body).buffers.map (fun name =>
        "char " ++ name ++ "[" ++ ofInt settings.bufferSize ++ "];") =
      (bufferLines (.ofBody params body)).map (Line.text settings.bufferSize) := by
    rw [bufferLines, map_map]
    exact map_congr_left fun name _ => (text_buffer settings.bufferSize name).symm
  unfold CSource.body
  dsimp only
  rw [hbuffers]
  exact (Writes.foldlM (writes_statement ⟨settings.bufferSize, .ofBody params body, inMain⟩)
    body).before (codes_emitAll _)

theorem writes_routine {settings : Settings} {r : Routine} {inMain : Bool}
    (hmain : (r.head == .main) = inMain) {l' : Listing Text Nat}
    {rest : Listing Text Nat → Listing Text Nat} (hhead : l'.codes = l.codes ++ [r.head.text])
    (hrest : ∀ l, (rest l).codes = l.codes ++ r.tail.map (Line.text settings.bufferSize)) :
    Writes settings.bufferSize l
      (do return rest (← body settings inMain r.params r.body l'))
      (r.lines settings.bufferSize) := by
  subst hmain
  have hstart : l'.codes = l.codes ++ [Line.head r.head].map (Line.text settings.bufferSize) := hhead
  have h := ((writes_body settings (r.head == .main) r.params r.body).before hstart).after hrest
  unfold Routine.lines Routine.context
  dsimp only
  revert h
  generalize (r.body.mapM (linesOf ⟨settings.bufferSize, .ofBody r.params r.body, r.head == .main⟩))
    = lss
  intro h
  cases lss with
  | error | ok => exact h

theorem writes_definition (settings : Settings) (l : Listing Text Nat) (f : Function) :
    Writes settings.bufferSize l (definition settings l f)
      ((Routine.ofFunction f).lines settings.bufferSize) := by
  refine writes_routine (r := .ofFunction f) rfl ?_ fun l' => ?_
  · exact codes_emit _
  · rw [codes_blank]
    exact codes_emit _

theorem writes_main (settings : Settings) (l : Listing Text Nat) (body : List Statement) :
    Writes settings.bufferSize l
      (do
        let l ← CSource.body settings true [] body (l.emit "int main(void) \x7b").indent
        return ((l.setOrigin none).emit "return 0;").dedent.emit "\x7d")
      ((Routine.ofMain body).lines settings.bufferSize) := by
  have htail (l' : Listing Text Nat) :
      (((l'.setOrigin none).emit "return 0;").dedent.emit "\x7d").codes =
        l'.codes ++ (Routine.ofMain body).tail.map (Line.text settings.bufferSize) := by
    rw [codes_emit]
    show ((l'.setOrigin none).emit "return 0;").codes ++ _ = _
    rw [codes_emit, append_assoc]
    rfl
  exact writes_routine (r := .ofMain body) rfl (codes_emit _) htail

theorem codes_prototypes (bufferSize : Int) (fs : List Function) :
    (prototypes fs l).codes = l.codes ++ (fs.map Line.prototype).map (Line.text bufferSize) := by
  unfold prototypes
  split
  · next h =>
    rw [isEmpty_iff.mp h]
    exact (append_nil _).symm
  · rw [codes_blank, codes_emitAll, map_map]
    rfl

theorem map_codes_ofProgram (settings : Settings) (p : Program) :
    (ofProgram settings p).map Listing.codes =
      (p.routines.mapM (Routine.lines settings.bufferSize)).map fun lss =>
        (p.preamble ++ lss.flatten).map (Line.text settings.bufferSize) := by
  have hstart : (prototypes p.functions
      (({} : Listing Text Nat).emit "#include <stdio.h>").blank).codes =
        ({} : Listing Text Nat).codes ++ p.preamble.map (Line.text settings.bufferSize) := by
    have hlines := codes_prototypes (l := (({} : Listing Text Nat).emit "#include <stdio.h>").blank)
      settings.bufferSize p.functions
    rw [hlines, codes_blank]
    rfl
  have hwrites : Writes settings.bufferSize {} (ofProgram settings p) _ :=
    ((Writes.foldlM (writes_definition settings) p.functions).bind fun l =>
      writes_main settings l p.main).before hstart
  have hlines : (p.routines.mapM (Routine.lines settings.bufferSize)).map flatten =
      (do return (← (p.functions.mapM fun f =>
          (Routine.ofFunction f).lines settings.bufferSize).map flatten) ++
        (← (Routine.ofMain p.main).lines settings.bufferSize)) := by
    rw [Program.routines, mapM_append, mapM_map, mapM_cons]
    show Except.map _ (mapM (fun f => (Routine.ofFunction f).lines _) _ >>= _) = _
    cases p.functions.mapM fun f => (Routine.ofFunction f).lines settings.bufferSize with
    | error => rfl
    | ok =>
      cases (Routine.ofMain p.main).lines settings.bufferSize <;>
        simp [Except.map, bind, Except.bind, pure, Except.pure]
  rw [← hlines] at hwrites
  revert hwrites
  generalize ofProgram settings p = result
  generalize p.routines.mapM (Routine.lines settings.bufferSize) = lss
  intro hwrites
  cases lss with
  | error =>
    cases hwrites
    rfl
  | ok =>
    cases hwrites with
    | ok hlss => exact congrArg Except.ok hlss

end Texts

end CSource

end Pseudocode
