import Pseudocode.Analysis
import Pseudocode.Proofs.Script.Emitted
import Pseudocode.Script.Load

/-!
# A script is read as it was written

The text of a script holds expressions that a user wrote, so it can be read
as something else than what was written: a quote in a line may swallow the
next ones, a semicolon may hide a statement that leaves a loop, and a
variable may have a name of the script's own routines. `ReadAsWritten` leaves
these texts out. It can be decided by reading the script once.

* `Executable.routines?`: the routines that a script defines, if it has the
  form of one.
* `Executable.isWritten`: the script has the outline that was written, and
  what a user wrote keeps away from the names of the core.
* `HasRoutines`, `HasForm`, `exists_form`: what follows for the script of a program whose
  main body is nested. Its main routine mirrors the body, and the other
  routines report none of its lines.
-/

namespace Pseudocode.Script

open Text List

variable {name : Text} {x : Executable}

/-! ### The form of a script -/

/-- The names that stand for the core of a script. -/
def coreNames (entryPoint : Text) : List Text :=
  ["io", "__trace", "__main", "hook", "getattr", entryPoint]

/-- The names that a script needs before its routines are defined, and those
of the routine that reports a step. Its own routine has none of them. -/
def reservedNames : List Text :=
  ["io", "__trace", "__main", "hook", "getattr", "line", "snapshot", "output", "object", "__UNSET"]

theorem not_mem_coreNames {entryPoint : Text} (hcore : name ∉ coreNames "")
    (hentry : name ≠ entryPoint) : name ∉ coreNames entryPoint := by
  simp only [coreNames, mem_cons, not_or, not_mem_nil, not_false_eq_true, and_true] at hcore ⊢
  exact ⟨hcore.1, hcore.2.1, hcore.2.2.1, hcore.2.2.2.1, hcore.2.2.2.2.1, hentry⟩

/-- The expression has the same value everywhere and makes no object. -/
def Expr.isConstant : Expr → Bool
  | .nothing | .bool _ | .int _ | .float _ | .str _ => true
  | _ => false

/-- Nothing is run when the routine is defined. -/
def RoutineOf.isDirect (r : Routine) : Bool :=
  r.note.isNone && r.params.all fun p => p.note.isNone && p.initial.all Expr.isConstant

/-- The routine can be defined beside the core. -/
def RoutineOf.isApart (hidden : List Text) (r : Routine) : Bool :=
  !hidden.contains r.name && r.isDirect && avoidsParams hidden r.params

def RoutineOf.isMain (r : Routine) : Bool :=
  r.name == "__main" && r.isAsync && !r.yields && r.params.isEmpty && r.note.isNone

def RoutineOf.isEntry (r : Routine) : Bool :=
  r.isAsync && !r.yields && r.note.isNone &&
    match r.params with
    | [⟨.plain, name, none, none⟩] => name == "io"
    | _ => false

/-- The expression waits for the main routine. -/
def Expr.awaitsMain : Expr → Bool
  | .await (.call (.name t) [] []) => t == "__main"
  | _ => false

/-- The statement makes the value of a variable without a value. -/
def Node.makesUnset : Node → Bool
  | .action _ (.assign [.name unset] (.call (.name object) [] [])) =>
    unset == "__UNSET" && object == "object"
  | _ => false

/-- The routines that statements define, if the main one is run next and
then nothing else. -/
def definitions? : List Node → Option (List Routine)
  | .define _ r :: rest => (definitions? rest).map (r :: ·)
  | [.action _ (.evaluate e)] => if e.awaitsMain then some [] else none
  | _ => none

def Executable.routines? (x : Executable) : Option (List Routine) :=
  match x.body with
  | [.define _ entry] =>
    match entry.body with
    | first :: rest =>
      if entry.isEntry && entry.name == x.entryPoint && first.makesUnset then definitions? rest
      else none
    | [] => none
  | _ => none

theorem exists_of_routines? {rs : List Routine} (h : x.routines? = some rs) :
    ∃ l entry first rest, x.body = [.define l entry] ∧ entry.body = first :: rest ∧
      entry.isEntry = true ∧ entry.name = x.entryPoint ∧ first.makesUnset = true ∧
        definitions? rest = some rs := by
  unfold Executable.routines? at h
  split at h
  · next l entry hbody =>
    split at h
    · next first rest hentry =>
      split at h
      · next hparts =>
        simp only [Bool.and_eq_true, beq_iff_eq] at hparts
        exact ⟨l, entry, first, rest, hbody, hentry, hparts.1.1, hparts.1.2, hparts.2, h⟩
      · cases h
    · cases h
  · cases h

/-- The number of routines that are the same in every script and come after
the one that reports a step. -/
def supportRest : Nat := 5

/-- The script has the outline that was written and keeps to the names that
are its own. Its routines come in the order in which they were written: the
second one reports a step, those of the program follow the ones that every
script has, and the last one is that of the main body. -/
def Executable.isWritten (x : Executable) (lines : List Nat) (outline : List (Int × Mark)) : Bool :=
  let hidden := coreNames x.entryPoint
  match x.routines? with
  | some (slot :: tracer :: rest) =>
    let support := slot :: rest.take supportRest
    let functions := (rest.drop supportRest).dropLast
    match (rest.drop supportRest).getLast? with
    | some main =>
      !reservedNames.contains x.entryPoint && tracer.name == "__trace" &&
        tracer.isTracer && tracer.isDirect && main.isMain &&
        (support ++ functions).all (RoutineOf.isApart hidden) &&
        support.all (quietAll hidden lines ·.body) &&
        (functions ++ [main]).all (quietAll hidden [] ·.body) &&
        agree ((functions ++ [main]).flatMap (RoutineOf.outline 1)) outline
    | none => false
  | _ => false

/-! ### What was read is within what was written -/

section Within

variable {hidden : List Text} {lines own : List Nat} {level : Int}

theorem Mark.isOf_of_fits {m m' : Mark} (h : m.fits m' = true) (hm : m'.isOf lines) :
    m.isOf lines := by
  simp only [Mark.fits, Bool.or_eq_true, beq_iff_eq, Bool.and_eq_true] at h
  rcases h with rfl | ⟨rfl, -⟩
  · exact hm
  · trivial

theorem Within.of_agree {xs ys : List (Int × Mark)} (h : agree xs ys = true)
    (hys : Within level lines ys) : Within level lines xs := by
  induction xs generalizing ys with
  | nil => exact forall_mem_nil _
  | cons p xs ih =>
    cases ys with
    | nil => cases h
    | cons =>
      obtain ⟨hlevel, hfits, hrest⟩ := agree_cons h
      obtain ⟨hq, hys⟩ := forall_mem_cons.mp hys
      refine forall_mem_cons.mpr ⟨⟨?_, Mark.isOf_of_fits hfits hq.2⟩, ih hrest hys⟩
      rw [hlevel]
      exact hq.1

theorem Action.quiet_of_isOf {a : Action} (hquiet : a.quiet hidden [] = true)
    (hown : ∀ m ∈ a.mark?, m.isOf own) (hapart : ∀ n ∈ own, n ∉ lines) :
    a.quiet hidden lines = true := by
  cases a with
  | evaluate e =>
    rcases hreport : e.report? with _ | ⟨line, args⟩
    · simpa only [Action.quiet, hreport] using hquiet
    · have hline : line ∈ own := hown (.step line) (by simp [Action.mark?, hreport])
      simp only [Action.quiet, hreport, Bool.and_eq_true] at hquiet ⊢
      exact ⟨by simpa using hapart line hline, hquiet.2⟩
  | _ => exact hquiet

mutual

theorem Node.quiet_of_isOf (hapart : ∀ n ∈ own, n ∉ lines) :
    (level : Int) → (node : Node) → node.quiet hidden [] = true →
      (∀ p ∈ node.outline level, p.2.isOf own) → node.quiet hidden lines = true
  | level, .action _ a, hquiet, hown => by
    unfold Node.quiet at hquiet ⊢
    unfold Node.outline at hown
    exact Action.quiet_of_isOf hquiet (fun m hm => hown (level, m) (by simpa using hm)) hapart
  | level, .choice _ _ body otherwise, hquiet, hown
  | level, .whileLoop _ _ body otherwise, hquiet, hown
  | level, .forLoop _ _ _ body otherwise, hquiet, hown => by
    unfold Node.outline at hown
    obtain ⟨-, hown⟩ := forall_mem_cons.mp hown
    obtain ⟨hbody, hown⟩ := forall_mem_append.mp hown
    obtain ⟨-, hotherwise⟩ := forall_mem_append.mp hown
    simp only [Node.quiet, Bool.and_eq_true] at hquiet ⊢
    exact ⟨⟨hquiet.1.1, quietAll_of_isOf hapart (level + 1) body hquiet.1.2 hbody⟩,
      quietAll_of_isOf hapart (level + 1) otherwise hquiet.2 hotherwise⟩
  | level, .guarded .., _, hown | level, .define .., _, hown => by
    unfold Node.outline at hown
    exact (hown _ (mem_singleton_self _)).elim

theorem quietAll_of_isOf (hapart : ∀ n ∈ own, n ∉ lines) :
    (level : Int) → (nodes : List Node) → quietAll hidden [] nodes = true →
      (∀ p ∈ outlineAll level nodes, p.2.isOf own) → quietAll hidden lines nodes = true
  | _, [], _, _ => rfl
  | level, node :: rest, hquiet, hown => by
    simp only [quietAll, Bool.and_eq_true] at hquiet ⊢
    unfold outlineAll at hown
    obtain ⟨hnode, hrest⟩ := forall_mem_append.mp hown
    exact ⟨node.quiet_of_isOf hapart level hquiet.1 hnode,
      quietAll_of_isOf hapart level rest hquiet.2 hrest⟩

end

end Within

/-! ### The routines of a program -/

theorem below_routines (rs : List Routine) : Below 2 (rs.flatMap (RoutineOf.outline 1)) := by
  cases rs with
  | nil => nofun
  | cons => exact below_cons

theorem below_routineMarks (rs : List (Text × List (Int × Mark)))
    (r : Text × List (Int × Mark)) : Below 2 (rs.flatMap routineMarks ++ routineMarks r) := by
  cases rs with
  | nil | cons => exact below_cons

theorem agree_routine {r : Routine} {w : Text × List (Int × Mark)} {xs ys : List (Int × Mark)}
    (hw : Above 2 w.2) (hxs : Below 2 xs) (hys : Below 2 ys)
    (h : agree (r.outline 1 ++ xs) (routineMarks w ++ ys) = true) :
    agree (outlineAll 2 r.body) w.2 = true ∧ agree xs ys = true :=
  agree_append (agree_cons h).2.2 (above_outlineAll 2 r.body) hxs hw hys

theorem agree_routines {lines : List Nat} {functions : List Routine} {main : Routine}
    {rs : List (Text × List (Int × Mark))} {marks : List (Int × Mark)}
    (hrs : ∀ r ∈ rs, Within 2 lines r.2) (hmarks : Above 2 marks)
    (h : agree ((functions ++ [main]).flatMap (RoutineOf.outline 1))
      (rs.flatMap routineMarks ++ routineMarks (name, marks)) = true) :
    (∀ r ∈ functions, Within 2 lines (outlineAll 2 r.body)) ∧
      agree (outlineAll 2 main.body) marks = true := by
  -- A routine of one side begins where one of the other side does, so the last ones meet.
  induction functions generalizing rs with
  | nil =>
    cases rs with
    | nil =>
      have hlast : agree (main.outline 1 ++ []) (routineMarks (name, marks) ++ []) = true := by
        simpa using h
      exact ⟨nofun, (agree_routine hmarks below_nil below_nil hlast).1⟩
    | cons r rs =>
      rw [flatMap_cons, append_assoc] at h
      have hrest := (agree_routine (hrs r (mem_cons_self ..)).above below_nil
        (below_routineMarks rs _) h).2
      cases rs with
      | nil | cons => cases hrest
  | cons f fs ih =>
    cases rs with
    | nil =>
      have hlast : agree (f.outline 1 ++ (fs ++ [main]).flatMap (RoutineOf.outline 1))
          (routineMarks (name, marks) ++ []) = true := by
        rwa [append_nil]
      have hrest := (agree_routine hmarks (below_routines _) below_nil hlast).2
      cases fs with
      | nil | cons => cases hrest
    | cons r rs =>
      obtain ⟨hr, hrs⟩ := forall_mem_cons.mp hrs
      rw [flatMap_cons, append_assoc] at h
      obtain ⟨hf, hrest⟩ := agree_routine hr.above (below_routines _) (below_routineMarks rs _) h
      obtain ⟨hfs, hmain⟩ := ih hrs hrest
      exact ⟨forall_mem_cons.mpr ⟨.of_agree hf hr, hfs⟩, hmain⟩

structure HasRoutines (x : Executable) (slot tracer : Routine) (others : List Routine)
    (main : Routine) : Prop where
  routines : x.routines? = some (slot :: tracer :: (others ++ [main]))
  entryPoint : x.entryPoint ∉ reservedNames
  tracer_name : tracer.name = "__trace"
  isTracer : tracer.isTracer = true
  tracer_direct : tracer.isDirect = true
  isMain : main.isMain = true
  beside : ∀ r ∈ slot :: others, r.name ∉ coreNames x.entryPoint ∧ r.isDirect = true

theorem HasRoutines.not_mem_coreNames {slot tracer main : Routine} {others : List Routine}
    (h : HasRoutines x slot tracer others main) (hname : name ∈ reservedNames)
    (hcore : name ∉ coreNames "") : name ∉ coreNames x.entryPoint :=
  Script.not_mem_coreNames hcore fun heq => h.entryPoint (heq ▸ hname)

structure HasForm (x : Executable) (lines : List Nat) (b : Body) (slot tracer : Routine)
    (others : List Routine) (main : Routine) : Prop
    extends HasRoutines x slot tracer others main where
  apart : ∀ r ∈ slot :: others, r.isApart (coreNames x.entryPoint) = true
  quiet : ∀ r ∈ slot :: others, quietAll (coreNames x.entryPoint) lines r.body = true
  mirrors : Mirrors (coreNames x.entryPoint) b main.body

theorem exists_form {settings : Settings} {v : Variables} {p : Program} {l : Lines} {b : Body}
    (hb : b.statements = p.main) (hl : ofProgram settings v p = .ok l)
    (hapart : ∀ n ∈ p.functions.flatMap Function.lines, n ∉ p.main.map Statement.line)
    (h : x.isWritten (p.main.map Statement.line) l.outline = true) :
    ∃ slot tracer others main, HasForm x (p.main.map Statement.line) b slot tracer others main := by
  unfold Executable.isWritten at h
  split at h
  next slot tracer rest hroutines =>
    split at h
    next main hlast =>
      generalize hfunctions : (rest.drop supportRest).dropLast = functions at h
      have hrest : rest = rest.take supportRest ++ functions ++ [main] := by
        have hdrop : rest.drop supportRest = functions ++ [main] := by
          rw [← hfunctions]
          exact (dropLast_append_getLast? main hlast).symm
        rw [append_assoc, ← hdrop, take_append_drop]
      simp only [Bool.and_eq_true, beq_iff_eq, all_eq_true] at h
      obtain ⟨⟨⟨⟨⟨⟨⟨⟨hentry, hname⟩, htracer⟩, hdirect⟩, hmain⟩, hroutine⟩, hsupport⟩, hquiet⟩,
        hagree⟩ := h
      obtain ⟨rs, houtline, hwithin⟩ := outline_ofProgram hb hl
      rw [houtline] at hagree
      obtain ⟨hown, hmirrors⟩ := agree_routines hwithin (above_bodyOutline 2 b) hagree
      refine ⟨slot, tracer, rest.take supportRest ++ functions, main, ?_⟩
      refine ⟨⟨?_, by simpa using hentry, hname, htracer, hdirect, hmain, fun r hr => ?_⟩,
        hroutine, ?_, ?_⟩
      · rw [hroutines, ← hrest]
      · have happart := hroutine r hr
        simp only [RoutineOf.isApart, Bool.and_eq_true] at happart
        exact ⟨by simpa using happart.1.1, happart.1.2⟩
      · intro r hr
        rw [← cons_append] at hr
        rcases mem_append.mp hr with hr | hr
        · exact hsupport r hr
        · refine quietAll_of_isOf hapart 2 r.body (hquiet r (mem_append_left _ hr)) ?_
          exact fun q hq => (hown r hr q hq).2
      · exact mirrors_of_agree (hquiet main (by simp)) hmirrors
    · cases h
  · cases h

/-! ### Evaluation -/

/-- A function at a text whose characters are worked out first. -/
def onCodes {α : Type} (f : Text → α) : Text → α
  | [] => f []
  | c :: t =>
    -- The cases make the code a numeral; without them it is worked out
    -- again for every test that `f` makes of the character.
    match c.toNat with
    | 0 => onCodes (fun u => f (Char.ofNat 0 :: u)) t
    | n + 1 => onCodes (fun u => f (Char.ofNat (n + 1) :: u)) t

theorem onCodes_eq {α : Type} (f : Text → α) (t : Text) : onCodes f t = f t := by
  induction t generalizing f with
  | nil => rfl
  | cons c t ih =>
    have hc : Char.ofNat c.toNat = c := Char.ofNat_toNat c
    unfold onCodes
    split
    next h => rw [ih, ← h, hc]
    next n h => rw [ih, ← Nat.succ_eq_add_one, ← h, hc]

/-- What `load` gives, in a form that is evaluated in less time. -/
def evalLoad (settings : Settings) (l : Lines) : Except LoadFault Executable :=
  onCodes (loadText settings.entryPoint (l.lines.map (Listing.originOf Code.text)))
    (l.render settings.scriptIndent Code.text)

theorem evalLoad_eq (settings : Settings) (l : Lines) : evalLoad settings l = load settings l :=
  onCodes_eq _ _

end Pseudocode.Script

namespace Pseudocode

open Script

/-- The script of an analysis is read as it was written, or is not a
program at all. -/
def Analysis.ReadAsWritten (a : Analysis) : Prop :=
  (match load a.settings a.script with
    | .ok x => x.isWritten (a.program.main.map Statement.line) a.script.outline
    | .error (.invalid _) => true
    | .error .nullCharacter => false) = true

instance (a : Analysis) : Decidable a.ReadAsWritten :=
  decidable_of_iff ((match evalLoad a.settings a.script with
    | .ok x => x.isWritten (a.program.main.map Statement.line) a.script.outline
    | .error (.invalid _) => true
    | .error .nullCharacter => false) = true) (by
    rw [evalLoad_eq]
    rfl)

theorem parts_of_ofText {settings : Settings} {t : Text} {a : Analysis}
    (h : Analysis.ofText settings t = .ok a) :
    Program.parse settings t = .ok a.parsed ∧
      ofProgram settings a.scopes a.program = .ok a.script ∧ a.settings = settings ∧
        a.chart = Flow.Chart.ofBody a.program.main ∧
          a.scopes = Variables.ofProgram a.program := by
  unfold Analysis.ofText at h
  split at h
  · cases h
  · obtain ⟨parsed, hparsed, h⟩ := exists_of_bind_eq_ok h
    obtain ⟨listing, -, h⟩ := exists_of_bind_eq_ok h
    obtain ⟨script, hscript, rfl⟩ := exists_of_return_eq_ok h
    exact ⟨eq_ok_of_mapError hparsed, eq_ok_of_mapError hscript, rfl, rfl, rfl⟩

end Pseudocode
