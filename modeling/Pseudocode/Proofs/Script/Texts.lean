import Pseudocode.Proofs.Script.Snapshots
import Pseudocode.Run.Value

/-!
# The texts that a script writes

An output statement puts a text together, stores it in a variable of its own,
writes it and reports it. Its parts are literals, which stand as they were
written, and calls of the routine that turns a value into a text. Whether the
parts of a script that was read are such can be decided by reading it once:
what looks like a literal may be any expression.

* `Expr.isText`: the value of the expression is a text, if it has one.
* `isTextAction`: the three statements of an output statement.
* `RoutineOf.givesText`, `RoutineOf.isWriter`: the routines for them.
* `textRules`: nothing is written but by these statements, and neither the
  core, nor these routines, nor the variables of output statements are
  mentioned otherwise.
* `Executable.writesText`: a script keeps to these rules. `HasTexts` and
  `exists_texts` say what it consists of then.
-/

namespace Pseudocode.Script

open Text List

/-! ### Texts -/

/-- The expression has a text as its value, by a test for the expressions in
it. A text can be joined with a text only, so one part of a sum decides. -/
def Expr.isText (obeys : Expr → Bool) : Expr → Bool
  | .str _ => true
  | .template parts => obeys (.template parts)
  | .located _ e => e.isText obeys
  | .binary .add left right =>
    left.isText obeys && (right.isText obeys || obeys right) ||
      obeys left && right.isText obeys
  | .and left right | .or left right => left.isText obeys && right.isText obeys
  | .choice test yes no => obeys test && yes.isText obeys && no.isText obeys
  | .call (.name f) args named =>
    (f == "__text" || f == "str") && args.all obeys && named.all (obeys ·.2)
  | _ => false

/-- The further argument of a report is a variable of an output statement, or
there is none. -/
def isOutput (outputs : List Text) : List Expr → Bool
  | [] => true
  | [.name t] => outputs.contains t
  | _ => false

/-- The statement stores a text in a variable of an output statement, writes
such a variable or reports a step with it. -/
def isTextAction (outputs : List Text) (obeys : Expr → Bool) : Action → Bool
  | .assign [.name t] e => outputs.contains t && e.isText obeys
  | .evaluate (.call (.name f) [.name t] []) => f == "__write" && outputs.contains t
  | .evaluate (.call (.name f) (.int _ :: .list es :: rest) []) =>
    f == "__trace" && es.all obeys && isOutput outputs rest
  | _ => false

def textNames (entryPoint : Text) (outputs : List Text) : List Text :=
  coreNames entryPoint ++ ["__text".toList, "__write"] ++ outputs

/-- The host is asked for inputs only, and no step is reported but by the
statements for texts. The name of the builtin for texts has no other
value. -/
def textRules (entryPoint : Text) (outputs : List Text) : Rules where
  hidden := textNames entryPoint outputs
  unbound := ["str"]
  reports _ _ := false
  asks := (· == "read")
  also := isTextAction outputs

/-! ### The routines -/

/-- The statements end with a text, whatever the tests before it give. -/
def isTextBody (obeys : Expr → Bool) : List Node → Bool
  | [.action _ (.leaveScope (some e))] => e.isText obeys
  | .choice _ test [.action _ (.leaveScope (some e))] [] :: rest =>
    obeys test && e.isText obeys && isTextBody obeys rest
  | _ => false

def RoutineOf.givesText (rules : Rules) (r : Routine) : Bool :=
  !r.isAsync && !r.yields && r.obeys rules && isTextBody (Expr.obeys rules) r.body

/-- The parameters of the routine that writes a text. -/
def writerParams : List (Param Expr) :=
  [⟨.plain, "text", none, none⟩]

/-- What it does: the host is asked to write. -/
def writerCall : Expr :=
  .call (.attribute (.name "io") "write") [.name "text"] []

/-- The parameters are those of the routine. -/
def isWriterParams : List (Param Expr) → Bool
  | [⟨.plain, text, none, none⟩] => text == "text"
  | _ => false

/-- The statements are those of the routine. -/
def isWriterBody : List Node → Bool
  | [.action _ (.evaluate (.call (.attribute (.name io) write) [.name text] []))] =>
    io == "io" && write == "write" && text == "text"
  | _ => false

def RoutineOf.isWriter (r : Routine) : Bool :=
  !r.isAsync && !r.yields && r.locals.contains "text" && isWriterParams r.params &&
    isWriterBody r.body

theorem eq_writerParams {params : List (Param Expr)} (h : isWriterParams params = true) :
    params = writerParams := by
  unfold isWriterParams at h
  split at h
  · rw [eq_of_beq h]
    rfl
  · cases h

theorem exists_writerBody {body : List Node} (h : isWriterBody body = true) :
    ∃ l, body = [.action l (.evaluate writerCall)] := by
  unfold isWriterBody at h
  split at h
  · simp only [Bool.and_eq_true, beq_iff_eq] at h
    obtain ⟨⟨rfl, rfl⟩, rfl⟩ := h
    exact ⟨_, rfl⟩
  · cases h

/-! ### Scripts that write texts -/

/-- A variable of an output statement is known by its name, which is that of
no routine and of nothing that every script knows. -/
def isOutputName (entryPoint name : Text) : Bool :=
  "__out".toList.isPrefixOf name && name != entryPoint && (Run.builtinValue? name).isNone

/-- The names of the routines for texts, and what they need. -/
def writerNames : List Text :=
  ["__text", "__write", "text", "str"]

/-- The script has the form of one and writes texts only: its third and
fourth routines are those that give a text and that write one, the second
one reports a step, the last one is that of the main body, and all others
keep to the rules. -/
def Executable.writesText (x : Executable) (outputs : List Text) : Bool :=
  let rules := textRules x.entryPoint outputs
  match x.routines? with
  | some (slot :: tracer :: text :: writer :: rest) =>
    match rest.getLast? with
    | some main =>
      !reservedNames.contains x.entryPoint && !writerNames.contains x.entryPoint &&
        outputs.all (isOutputName x.entryPoint) &&
        tracer.name == "__trace" && tracer.isTracer && tracer.isDirect &&
        tracer.locals.contains "output" &&
        text.name == "__text" && text.givesText rules && text.isDirect &&
        writer.name == "__write" && writer.isWriter && writer.isDirect &&
        (slot :: rest.dropLast).all (RoutineOf.isKept rules) && main.isMain &&
        obeysBlock rules main.body
    | none => false
  | _ => false

/-- A script has the routines of a program, among them those for texts, and
they keep to the rules for texts. -/
structure HasTexts (x : Executable) (outputs : List Text) (slot tracer text writer : Routine)
    (others : List Routine) (main : Routine) : Prop
    extends HasRoutines x slot tracer (text :: writer :: others) main where
  apart : x.entryPoint ∉ writerNames
  marked : ∀ name ∈ outputs, isOutputName x.entryPoint name = true
  output : tracer.locals.contains "output" = true
  text_name : text.name = "__text"
  givesText : text.givesText (textRules x.entryPoint outputs) = true
  writer_name : writer.name = "__write"
  isWriter : writer.isWriter = true
  names : ∀ r ∈ slot :: others, (textRules x.entryPoint outputs).mayBind r.name = true
  obeys : ∀ r ∈ slot :: others, r.obeys (textRules x.entryPoint outputs) = true
  main_obeys : obeysBlock (textRules x.entryPoint outputs) main.body = true

theorem exists_texts {x : Executable} {outputs : List Text} (h : x.writesText outputs = true) :
    ∃ slot tracer text writer others main,
      HasTexts x outputs slot tracer text writer others main := by
  unfold Executable.writesText at h
  split at h
  next slot tracer text writer rest hroutines =>
    split at h
    next main hlast =>
      simp only [Bool.and_eq_true, beq_iff_eq, all_eq_true, RoutineOf.isKept] at h
      obtain ⟨⟨⟨⟨⟨⟨⟨⟨⟨⟨⟨⟨⟨⟨⟨hentry, hapart⟩, houtputs⟩, htracer⟩, hisTracer⟩, hdirect⟩, houtput⟩, htext⟩,
        hgives⟩, hdirect'⟩, hwriter⟩, hisWriter⟩, hdirect''⟩, hothers⟩, hmain⟩, hobeys⟩ := h
      replace hapart : x.entryPoint ∉ writerNames := by simpa using hapart
      have hcore : ∀ name ∈ writerNames, name ∉ coreNames "" → name ∉ coreNames x.entryPoint :=
        fun name hname hcore => not_mem_coreNames hcore fun heq => hapart (heq ▸ hname)
      have hbeside : ∀ r ∈ slot :: rest.dropLast,
          r.name ∉ coreNames x.entryPoint ∧ r.isDirect = true := fun r hr =>
        ⟨fun hname => (Rules.mayBind_iff.mp (hothers r hr).1.1).1
          (mem_append_left _ (mem_append_left _ hname)), (hothers r hr).1.2⟩
      refine ⟨slot, tracer, text, writer, rest.dropLast, main, ⟨?_, by simpa using hentry, htracer,
        hisTracer, hdirect, hmain, ?_⟩, hapart, houtputs, houtput, htext, hgives, hwriter,
        hisWriter, fun r hr => (hothers r hr).1.1, fun r hr => (hothers r hr).2, hobeys⟩
      · rw [hroutines, cons_append, cons_append, dropLast_append_getLast? main hlast]
      · refine forall_mem_cons.mpr ⟨hbeside slot (by simp), forall_mem_cons.mpr ⟨⟨?_,
          hdirect'⟩, forall_mem_cons.mpr ⟨⟨?_, hdirect''⟩, fun r hr =>
            hbeside r (mem_cons_of_mem _ hr)⟩⟩⟩
        · rw [htext]
          exact hcore _ (by decide) (by decide)
        · rw [hwriter]
          exact hcore _ (by decide) (by decide)
    · cases h
  · cases h

end Pseudocode.Script

namespace Pseudocode

open Script

def Script.Code.output? : Code → Option Text
  | .compose n _ => some (outputName n)
  | _ => none

/-- The variables of the output statements of a script. -/
def Script.Lines.outputs (l : Lines) : List Text :=
  l.lines.toList.filterMap fun line => line.bind (·.code.output?)

/-- The script of an analysis is read as one that writes texts only, or is not
a program at all. -/
def Analysis.WritesText (a : Analysis) : Prop :=
  (match load a.settings a.script with
    | .ok x => x.writesText a.script.outputs
    | .error (.invalid _) => true
    | .error .nullCharacter => false) = true

instance (a : Analysis) : Decidable a.WritesText :=
  decidable_of_iff ((match evalLoad a.settings a.script with
    | .ok x => x.writesText a.script.outputs
    | .error (.invalid _) => true
    | .error .nullCharacter => false) = true) (by
    rw [evalLoad_eq]
    rfl)

end Pseudocode
