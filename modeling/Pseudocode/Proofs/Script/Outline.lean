import Pseudocode.Proofs.Course
import Pseudocode.Proofs.Script.Quiet
import Pseudocode.Script.Code

/-!
# The outline of a script

A script is written line by line and then read as a text. Whether it says
what was written depends on expressions that a user wrote. What matters
to the order of its steps is only its outline: the heads of its blocks,
its reports and the statements that leave a block, each with its level.

* `Mark`: what a line or a statement is in an outline.
* `Lines.outline`: the outline of a listing.
* `outlineAll`, `RoutineOf.outline`: the outline of what was read.
* `bodyOutline`: the outline that the routine of a nested body has.
* `agree`: an outline that was read is the one that was written.
* `Mirrors`, `mirrors_of_agree`: statements whose outline agrees with that
  of a nested body have its blocks, too.

Statements without a mark go on to the next one, so they may stand
anywhere: a line that a user wrote can be read as several of them.
-/

namespace Pseudocode.Script

open List Node

variable {level : Int}

/-! ### Outlines -/

inductive Mark where
  | step (line : Nat)
  | loop
  /-- The head of a loop whose test always holds. -/
  | forever
  /-- The head of a loop over values. -/
  | count
  | choice
  /-- The head of the other branch. -/
  | otherwise
  | leaveLoop
  | leaveScope
  /-- The head of a routine. -/
  | define (name : Text)
  /-- Something that is never written. -/
  | foreign
deriving DecidableEq, Repr

variable {xs ys : List (Int × Mark)}

def Code.mark? : Code → Option Mark
  | .trace line _ _ => some (.step line)
  | .whileTest _ => some .loop
  | .forever => some .forever
  | .count _ _ _ => some .count
  | .ifTest _ => some .choice
  | .otherwise => some .otherwise
  | .leaveLoop => some .leaveLoop
  | .leaveScope => some .leaveScope
  | .define name _ => some (.define name)
  | .defineMain => some (.define "__main")
  | _ => none

def Lines.outline (l : Lines) : List (Int × Mark) :=
  l.lines.toList.filterMap fun line => line.bind fun line => line.code.mark?.map (line.level, ·)

/-- The mark of an action; one without a mark goes on to the next
statement. -/
def Action.mark? : Action → Option Mark
  | .evaluate e => e.report?.map fun report => .step report.1
  | .leaveLoop => some .leaveLoop
  | .leaveScope _ => some .leaveScope
  | .nextRound => some .foreign
  | _ => none

def Expr.loopMark : Expr → Mark
  | .bool true => .forever
  | _ => .loop

/-- The head of the other branch, unless there is none. -/
def elseMark (level : Int) (otherwise : List Node) : List (Int × Mark) :=
  if otherwise.isEmpty then [] else [(level, .otherwise)]

mutual

def Node.outline (level : Int) : Node → List (Int × Mark)
  | .action _ a => a.mark?.toList.map (level, ·)
  | .choice _ _ body otherwise =>
    (level, .choice) :: (outlineAll (level + 1) body ++
      (elseMark level otherwise ++ outlineAll (level + 1) otherwise))
  | .whileLoop _ test body otherwise =>
    (level, test.loopMark) :: (outlineAll (level + 1) body ++
      (elseMark level otherwise ++ outlineAll (level + 1) otherwise))
  | .forLoop _ _ _ body otherwise =>
    (level, .count) :: (outlineAll (level + 1) body ++
      (elseMark level otherwise ++ outlineAll (level + 1) otherwise))
  | .guarded .. | .define .. => [(level, .foreign)]

def outlineAll (level : Int) : List Node → List (Int × Mark)
  | [] => []
  | node :: rest => node.outline level ++ outlineAll level rest

end

def RoutineOf.outline (level : Int) (r : Routine) : List (Int × Mark) :=
  (level, .define r.name) :: outlineAll (level + 1) r.body

/-- The mark that was read is the one that was written. The test of a loop
may happen to hold always. -/
def Mark.fits (read written : Mark) : Bool :=
  read == written || (read == .forever && written == .loop)

def agree : List (Int × Mark) → List (Int × Mark) → Bool
  | [], [] => true
  | (level, m) :: rest, (level', m') :: rest' => level == level' && m.fits m' && agree rest rest'
  | _, _ => false

def plainOutline (level : Int) (s : Statement) : List (Int × Mark) :=
  if s.kind.isStep then [(level, .step s.line)]
  else if s.kind = .returnScope then [(level, .leaveScope)] else []

def bodyOutline (level : Int) : Body → List (Int × Mark)
  | .nil => []
  | .comment _ rest => bodyOutline level rest
  | .plain s rest => plainOutline level s.1 ++ bodyOutline level rest
  | .pretest false _ body _ rest =>
    (level, .loop) :: (bodyOutline (level + 1) body ++ bodyOutline level rest)
  | .pretest true head body _ rest =>
    (level, .count) :: (level + 1, .step head.1.line) ::
      (bodyOutline (level + 1) body ++ bodyOutline level rest)
  | .posttest _ body _ rest =>
    (level, .forever) :: ((bodyOutline (level + 1) body ++
      [(level + 1, .choice), (level + 1 + 1, .leaveLoop)]) ++ bodyOutline level rest)
  | .choice _ _ yes _ rest =>
    (level, .choice) :: (bodyOutline (level + 1) yes ++ bodyOutline level rest)
  | .choiceElse _ _ yes _ no _ rest =>
    (level, .choice) :: (bodyOutline (level + 1) yes ++
      (level, .otherwise) :: (bodyOutline (level + 1) no ++ bodyOutline level rest))

/-! ### Levels -/

/-- The first member, if there is one, stands at a level and does not
begin another branch. -/
def Begins (level : Int) (marks : List (Int × Mark)) : Prop :=
  ∀ p ∈ marks.head?, p.1 = level ∧ p.2 ≠ .otherwise

/-- The first member, if there is one, stands below a level. -/
def Below (level : Int) (marks : List (Int × Mark)) : Prop :=
  ∀ p ∈ marks.head?, p.1 < level

def Above (level : Int) (marks : List (Int × Mark)) : Prop :=
  ∀ p ∈ marks, level ≤ p.1

theorem begins_nil : Begins level [] :=
  nofun

theorem Begins.append (hx : Begins level xs) (hy : Begins level ys) : Begins level (xs ++ ys) := by
  cases xs with
  | nil => exact hy
  | cons => exact hx

theorem Begins.below (h : Begins level xs) : Below (level + 1) xs := by
  intro p hp
  have := (h p hp).1
  omega

theorem Below.append (hx : Below level xs) (hy : Below level ys) : Below level (xs ++ ys) := by
  cases xs with
  | nil => exact hy
  | cons => exact hx

theorem below_nil : Below level [] :=
  nofun

theorem below_cons {m : Mark} : Below (level + 1) ((level, m) :: xs) := by
  rintro p ⟨⟩
  exact Int.lt_succ level

theorem Above.mono (h : Above (level + 1) xs) : Above level xs := by
  intro p hp
  have := h p hp
  omega

theorem above_append : Above level (xs ++ ys) ↔ Above level xs ∧ Above level ys :=
  forall_mem_append

theorem above_cons {p : Int × Mark} : Above level (p :: xs) ↔ level ≤ p.1 ∧ Above level xs :=
  forall_mem_cons

theorem begins_plainOutline (level : Int) (s : Statement) :
    Begins level (plainOutline level s) := by
  unfold plainOutline
  split
  · rintro p ⟨⟩
    exact ⟨rfl, nofun⟩
  · split
    · rintro p ⟨⟩
      exact ⟨rfl, nofun⟩
    · nofun

theorem begins_bodyOutline (level : Int) (b : Body) : Begins level (bodyOutline level b) := by
  induction b with
  | nil => nofun
  | comment s rest ih => exact ih
  | plain s rest ih => exact (begins_plainOutline level s.1).append ih
  | pretest counted =>
    cases counted with
    | false | true =>
      rintro p ⟨⟩
      exact ⟨rfl, nofun⟩
  | posttest head body test rest _ _ | choice head mark body tail rest _ _
  | choiceElse =>
    rintro p ⟨⟩
    exact ⟨rfl, nofun⟩

theorem above_bodyOutline (level : Int) (b : Body) : Above level (bodyOutline level b) := by
  induction b generalizing level with
  | nil => nofun
  | comment s rest ih => exact ih level
  | plain s rest ih =>
    refine above_append.mpr ⟨?_, ih level⟩
    unfold plainOutline
    split
    · exact above_cons.mpr ⟨Int.le_refl _, nofun⟩
    · split
      · exact above_cons.mpr ⟨Int.le_refl _, nofun⟩
      · nofun
  | pretest counted head body tail rest ihBody ihRest =>
    have hparts := above_append.mpr ⟨(ihBody (level + 1)).mono, ihRest level⟩
    cases counted with
    | false => exact above_cons.mpr ⟨Int.le_refl _, hparts⟩
    | true =>
      refine above_cons.mpr ⟨Int.le_refl _, above_cons.mpr ⟨?_, hparts⟩⟩
      exact Int.le_of_lt (Int.lt_succ level)
  | posttest head body test rest ihBody ihRest =>
    refine above_cons.mpr ⟨Int.le_refl _, above_append.mpr ⟨above_append.mpr
      ⟨(ihBody (level + 1)).mono, above_cons.mpr ⟨?_, above_cons.mpr ⟨?_, nofun⟩⟩⟩, ihRest level⟩⟩
    · exact Int.le_of_lt (Int.lt_succ level)
    · omega
  | choice head mark yes tail rest ihYes ihRest =>
    exact above_cons.mpr ⟨Int.le_refl _, above_append.mpr ⟨(ihYes (level + 1)).mono, ihRest level⟩⟩
  | choiceElse head mark yes middle no tail rest ihYes ihNo ihRest =>
    exact above_cons.mpr ⟨Int.le_refl _, above_append.mpr ⟨(ihYes (level + 1)).mono,
      above_cons.mpr ⟨Int.le_refl _, above_append.mpr ⟨(ihNo (level + 1)).mono, ihRest level⟩⟩⟩⟩

theorem above_elseMark (level : Int) (otherwise : List Node) :
    Above level (elseMark level otherwise) := by
  unfold elseMark
  split
  · nofun
  · exact above_cons.mpr ⟨Int.le_refl _, nofun⟩

/-- The outline of two blocks under one head. -/
def outlineBlocks (level : Int) (body otherwise : List Node) : List (Int × Mark) :=
  outlineAll (level + 1) body ++ (elseMark level otherwise ++ outlineAll (level + 1) otherwise)

mutual

theorem Node.above_outline (level : Int) : (node : Node) → Above level (node.outline level)
  | .action _ a => by
    unfold outline
    cases a.mark? with
    | none => nofun
    | some => exact above_cons.mpr ⟨Int.le_refl _, nofun⟩
  | .choice _ _ body otherwise | .whileLoop _ _ body otherwise
  | .forLoop _ _ _ body otherwise => by
    unfold outline
    exact above_cons.mpr ⟨Int.le_refl _, above_append.mpr ⟨(above_outlineAll (level + 1) body).mono,
      above_append.mpr ⟨above_elseMark level otherwise,
        (above_outlineAll (level + 1) otherwise).mono⟩⟩⟩
  | .guarded .. | .define .. => by
    unfold outline
    exact above_cons.mpr ⟨Int.le_refl _, nofun⟩

theorem above_outlineAll (level : Int) : (nodes : List Node) → Above level (outlineAll level nodes)
  | [] => by
    unfold outlineAll
    nofun
  | node :: rest => by
    unfold outlineAll
    exact above_append.mpr ⟨node.above_outline level, above_outlineAll level rest⟩

end

theorem Node.below_outline (level : Int) (node : Node) :
    Below (level + 1) (node.outline level) := by
  cases node with
  | action l a =>
    unfold outline
    cases a.mark? with
    | none => nofun
    | some => exact below_cons
  | _ => exact below_cons

theorem below_outlineAll (level : Int) (nodes : List Node) :
    Below (level + 1) (outlineAll level nodes) := by
  induction nodes with
  | nil => nofun
  | cons node rest ih => exact (node.below_outline level).append ih

/-! ### Agreement -/

theorem agree_cons {l l' : Int} {m m' : Mark} (h : agree ((l, m) :: xs) ((l', m') :: ys) = true) :
    l = l' ∧ m.fits m' = true ∧ agree xs ys = true := by
  simp only [agree, Bool.and_eq_true, beq_iff_eq] at h
  exact ⟨h.1.1, h.1.2, h.2⟩

theorem agree_append {xs' ys' : List (Int × Mark)} (h : agree (xs ++ ys) (xs' ++ ys') = true)
    (hxs : Above level xs) (hys : Below level ys) (hxs' : Above level xs')
    (hys' : Below level ys') : agree xs xs' = true ∧ agree ys ys' = true := by
  induction xs generalizing xs' with
  | nil =>
    cases xs' with
    | nil => exact ⟨rfl, h⟩
    | cons p' =>
      cases ys with
      | nil => cases h
      | cons q =>
        have hlevel := (agree_cons h).1
        have hq := hys q rfl
        have hp' := hxs' p' (mem_cons_self ..)
        omega
  | cons p xs ih =>
    cases xs' with
    | nil =>
      cases ys' with
      | nil => cases h
      | cons q =>
        have hlevel := (agree_cons h).1
        have hq := hys' q rfl
        have hp := hxs p (mem_cons_self ..)
        omega
    | cons p' xs' =>
      obtain ⟨hlevel, hfits, hrest⟩ := agree_cons h
      obtain ⟨hx, hy⟩ := ih hrest (above_cons.mp hxs).2 (above_cons.mp hxs').2
      refine ⟨?_, hy⟩
      show (p.1 == p'.1 && p.2.fits p'.2 && agree xs xs') = true
      rw [hlevel, hfits, hx]
      simp

/-! ### Statements without a mark -/

/-- The statement goes on to the next one and reports nothing. -/
def Node.goesOn (hidden : List Text) : Node → Bool
  | .action _ a => a.mark?.isNone && a.quiet hidden []
  | _ => false

/-- The statement reports the step of a line. -/
def Node.Reports (hidden : List Text) (line : Nat) (node : Node) : Prop :=
  ∃ l e args, node = .action l (.evaluate e) ∧ e.report? = some (line, args) ∧
    avoidsAll hidden args = true

/-- What the statement with a mark that was written is, and the rest of its
outline. -/
def Shape (hidden : List Text) (level : Int) : Mark → Node → List (Int × Mark) → Prop
  | .step line, node, inner => inner = [] ∧ node.Reports hidden line
  | .leaveLoop, node, inner => inner = [] ∧ ∃ l, node = .action l .leaveLoop
  | .leaveScope, node, inner =>
    inner = [] ∧ ∃ l e, node = .action l (.leaveScope e) ∧ avoidsOption hidden e = true
  | .choice, node, inner => ∃ l test body otherwise, node = .choice l test body otherwise ∧
    inner = outlineBlocks level body otherwise ∧ test.avoids hidden = true ∧
      quietAll hidden [] body = true ∧ quietAll hidden [] otherwise = true
  | .loop, node, inner => ∃ l test body otherwise, node = .whileLoop l test body otherwise ∧
    inner = outlineBlocks level body otherwise ∧ test.avoids hidden = true ∧
      quietAll hidden [] body = true
  | .forever, node, inner => ∃ l body otherwise, node = .whileLoop l (.bool true) body otherwise ∧
    inner = outlineBlocks level body otherwise ∧ quietAll hidden [] body = true
  | .count, node, inner => ∃ l target source body otherwise,
    node = .forLoop l target source body otherwise ∧
      inner = outlineBlocks level body otherwise ∧ target.avoids hidden = true ∧
        source.avoids hidden = true ∧ quietAll hidden [] body = true
  | .foreign, _, _ => True
  | .otherwise, _, _ | .define _, _, _ => False

theorem outline_cases {hidden : List Text} {node : Node} (level : Int)
    (hquiet : node.quiet hidden [] = true) :
    node.goesOn hidden = true ∧ node.outline level = [] ∨
      ∃ m rest, node.outline level = (level, m) :: rest ∧
        ∀ m', m.fits m' = true → Shape hidden level m' node rest := by
  -- Only the mark of a loop that always goes on fits another one.
  have hfits {m : Mark} {rest : List (Int × Mark)} (h : Shape hidden level m node rest)
      (hm : m ≠ .forever) (m' : Mark) (hfits : m.fits m' = true) :
      Shape hidden level m' node rest := by
    simp only [Mark.fits, Bool.or_eq_true, beq_iff_eq, Bool.and_eq_true] at hfits
    obtain rfl := hfits.resolve_right fun h => hm h.1
    exact h
  cases node with
  | action l a =>
    simp only [quiet] at hquiet
    rw [outline]
    cases a with
    | evaluate e =>
      rcases hreport : e.report? with _ | ⟨line, args⟩
      · exact .inl ⟨by simp [goesOn, Action.mark?, hreport, hquiet],
          by simp [Action.mark?, hreport]⟩
      · rw [Action.quiet, hreport] at hquiet
        refine .inr ⟨.step line, [], by simp [Action.mark?, hreport],
          hfits ⟨rfl, l, e, args, rfl, hreport, ?_⟩ nofun⟩
        simpa using hquiet
    | leaveLoop => exact .inr ⟨.leaveLoop, _, rfl, hfits ⟨rfl, l, rfl⟩ nofun⟩
    | nextRound => exact .inr ⟨.foreign, _, rfl, hfits trivial nofun⟩
    | leaveScope e => exact .inr ⟨.leaveScope, _, rfl, hfits ⟨rfl, l, e, rfl, hquiet⟩ nofun⟩
    | _ => exact .inl ⟨by simp [goesOn, Action.mark?, hquiet], rfl⟩
  | choice l test body otherwise =>
    simp only [quiet, Bool.and_eq_true] at hquiet
    exact .inr ⟨.choice, _, by rw [outline, outlineBlocks], hfits
      ⟨l, test, body, otherwise, rfl, rfl, hquiet.1.1, hquiet.1.2, hquiet.2⟩ nofun⟩
  | whileLoop l test body otherwise =>
    simp only [quiet, Bool.and_eq_true] at hquiet
    have hloop : Shape hidden level .loop (.whileLoop l test body otherwise)
        (outlineBlocks level body otherwise) :=
      ⟨l, test, body, otherwise, rfl, rfl, hquiet.1.1, hquiet.1.2⟩
    refine .inr ⟨_, _, by rw [outline], fun m' h => ?_⟩
    unfold Expr.loopMark at h
    split at h
    · simp only [Mark.fits, Bool.or_eq_true, beq_iff_eq, Bool.and_eq_true] at h
      rcases h with rfl | ⟨-, rfl⟩
      · exact ⟨l, body, otherwise, rfl, rfl, hquiet.1.2⟩
      · exact hloop
    · exact hfits hloop nofun m' h
  | forLoop l target source body otherwise =>
    simp only [quiet, Bool.and_eq_true] at hquiet
    exact .inr ⟨.count, _, by rw [outline, outlineBlocks], hfits ⟨l, target, source, body,
      otherwise, rfl, rfl, hquiet.1.1.1, hquiet.1.1.2, hquiet.1.2⟩ nofun⟩
  | guarded | define => exact .inr ⟨.foreign, _, by rw [outline], hfits trivial nofun⟩

def GoOn (hidden : List Text) (nodes : List Node) : Prop :=
  ∀ node ∈ nodes, node.goesOn hidden = true

/-! ### Statements that mirror a body -/

/-- A block leaves its loop if a condition holds, and does nothing
else. -/
def LeavesLoop (hidden : List Text) (block : List Node) : Prop :=
  ∃ front l condition front' l' back' back,
    block = front ++ .choice l condition (front' ++ .action l' .leaveLoop :: back') [] :: back ∧
      GoOn hidden front ∧ condition.avoids hidden = true ∧ GoOn hidden front' ∧ GoOn hidden back

inductive Mirrors (hidden : List Text) : Body → List Node → Prop
  | nil : Mirrors hidden .nil []
  | skip {b : Body} {node : Node} {nodes : List Node} :
      node.goesOn hidden = true → Mirrors hidden b nodes → Mirrors hidden b (node :: nodes)
  | comment {s : StatementOf .comment} {rest : Body} {nodes : List Node} :
      Mirrors hidden rest nodes → Mirrors hidden (.comment s rest) nodes
  | step {s : PlainStatement} {rest : Body} {node : Node} {nodes : List Node} :
      s.1.kind.isStep = true → node.Reports hidden s.1.line → Mirrors hidden rest nodes →
        Mirrors hidden (.plain s rest) (node :: nodes)
  | leave {s : PlainStatement} {rest : Body} {l : Nat} {e : Option Expr} {nodes : List Node} :
      s.1.kind = .returnScope → avoidsOption hidden e = true → Mirrors hidden rest nodes →
        Mirrors hidden (.plain s rest) (.action l (.leaveScope e) :: nodes)
  | other {s : PlainStatement} {rest : Body} {nodes : List Node} : s.1.kind.isStep = false →
      Mirrors hidden rest nodes → Mirrors hidden (.plain s rest) nodes
  | whileLoop {head : StatementOf (Kind.pretestHead false)} {body : Body}
      {tail : StatementOf (Kind.pretestTail false)} {rest : Body} {l : Nat} {test : Expr}
      {inner nodes : List Node} : test.avoids hidden = true → Mirrors hidden body inner →
        Mirrors hidden rest nodes → Mirrors hidden (.pretest false head body tail rest)
          (.whileLoop l test inner [] :: nodes)
  | forLoop {head : StatementOf (Kind.pretestHead true)} {body : Body}
      {tail : StatementOf (Kind.pretestTail true)} {rest : Body} {l : Nat} {target source : Expr}
      {front : List Node} {node : Node} {inner nodes : List Node} :
        target.avoids hidden = true → source.avoids hidden = true → GoOn hidden front →
          node.Reports hidden head.1.line → Mirrors hidden body inner →
            Mirrors hidden rest nodes → Mirrors hidden (.pretest true head body tail rest)
              (.forLoop l target source (front ++ node :: inner) [] :: nodes)
  | posttest {head : StatementOf .repeatLoop} {body : Body} {test : StatementOf .untilTest}
      {rest : Body} {l : Nat} {inner leave nodes : List Node} : Mirrors hidden body inner →
        LeavesLoop hidden leave → Mirrors hidden rest nodes →
          Mirrors hidden (.posttest head body test rest)
            (.whileLoop l (.bool true) (inner ++ leave) [] :: nodes)
  | choice {head : StatementOf .ifTest} {mark : Option (StatementOf .thenBranch)} {yes : Body}
      {tail : StatementOf .endIf} {rest : Body} {l : Nat} {test : Expr}
      {inner nodes : List Node} : test.avoids hidden = true → Mirrors hidden yes inner →
        Mirrors hidden rest nodes → Mirrors hidden (.choice head mark yes tail rest)
          (.choice l test inner [] :: nodes)
  | choiceElse {head : StatementOf .ifTest} {mark : Option (StatementOf .thenBranch)} {yes : Body}
      {middle : StatementOf .elseBranch} {no : Body} {tail : StatementOf .endIf} {rest : Body}
      {l : Nat} {test : Expr} {inner inner' nodes : List Node} : test.avoids hidden = true →
        Mirrors hidden yes inner → Mirrors hidden no inner' → Mirrors hidden rest nodes →
          Mirrors hidden (.choiceElse head mark yes middle no tail rest)
            (.choice l test inner inner' :: nodes)

namespace Mirrors

variable {hidden : List Text} {b : Body} {front nodes : List Node}

theorem skipFront (hfront : GoOn hidden front) (h : Mirrors hidden b nodes) :
    Mirrors hidden b (front ++ nodes) := by
  induction front with
  | nil => exact h
  | cons node front ih =>
    obtain ⟨hnode, hfront⟩ := forall_mem_cons.mp hfront
    exact .skip hnode (ih hfront)

theorem skipBack {back : List Node} (h : Mirrors hidden b nodes) (hback : GoOn hidden back) :
    Mirrors hidden b (nodes ++ back) := by
  induction h with
  | nil => simpa using Mirrors.nil.skipFront hback
  | skip hnode _ ih => exact .skip hnode ih
  | comment _ ih => exact .comment ih
  | step hstep hnode _ ih => exact .step hstep hnode ih
  | leave hkind he _ ih => exact .leave hkind he ih
  | other hstep _ ih => exact .other hstep ih
  | whileLoop htest hinner _ _ ih => exact .whileLoop htest hinner ih
  | forLoop htarget hsource hfront hnode hinner _ _ ih =>
    exact .forLoop htarget hsource hfront hnode hinner ih
  | posttest hinner hleave _ _ ih => exact .posttest hinner hleave ih
  | choice htest hyes _ _ ih => exact .choice htest hyes ih
  | choiceElse htest hyes hno _ _ _ ih => exact .choiceElse htest hyes hno ih

end Mirrors

/-! ### From outlines to blocks -/

section Agreement

variable {hidden : List Text} {level level' : Int} {nodes : List Node} {m : Mark}
variable {b : Body}
  {marks : List (Int × Mark)}

theorem goOn_of_agree (hquiet : quietAll hidden [] nodes = true)
    (h : agree (outlineAll level nodes) [] = true) : GoOn hidden nodes := by
  induction nodes with
  | nil => nofun
  | cons node rest ih =>
    simp only [quietAll, Bool.and_eq_true] at hquiet
    rw [outlineAll] at h
    rcases outline_cases level hquiet.1 with ⟨hgoesOn, hnone⟩ | ⟨m, inner, hsome, -⟩
    · rw [hnone] at h
      exact forall_mem_cons.mpr ⟨hgoesOn, ih hquiet.2 h⟩
    · rw [hsome] at h
      cases h

theorem exists_shape (hquiet : quietAll hidden [] nodes = true)
    (h : agree (outlineAll level nodes) ((level', m) :: marks) = true) :
    ∃ front node inner rest, nodes = front ++ node :: rest ∧ GoOn hidden front ∧
      quietAll hidden [] rest = true ∧ Shape hidden level m node inner ∧
        agree (inner ++ outlineAll level rest) marks = true := by
  induction nodes with
  | nil => cases h
  | cons node rest ih =>
    simp only [quietAll, Bool.and_eq_true] at hquiet
    rw [outlineAll] at h
    rcases outline_cases level hquiet.1 with ⟨hgoesOn, hnone⟩ | ⟨m', inner, hsome, hshape⟩
    · rw [hnone] at h
      obtain ⟨front, node', inner, rest', rfl, hfront, hrest⟩ := ih hquiet.2 h
      exact ⟨node :: front, node', inner, rest', rfl, forall_mem_cons.mpr ⟨hgoesOn, hfront⟩, hrest⟩
    · rw [hsome] at h
      obtain ⟨-, hfits, hagree⟩ := agree_cons h
      exact ⟨[], node, inner, rest, rfl, nofun, hquiet.2, hshape m hfits, hagree⟩

theorem agree_blocks {body otherwise rest : List Node}
    (h : agree (outlineBlocks level body otherwise ++ outlineAll level rest) (xs ++ ys) = true)
    (hxs : Above (level + 1) xs) (hys : Below (level + 1) ys) :
    agree (outlineAll (level + 1) body) xs = true ∧
      agree (elseMark level otherwise ++ (outlineAll (level + 1) otherwise ++
        outlineAll level rest)) ys = true := by
  rw [outlineBlocks, append_assoc, append_assoc] at h
  refine agree_append h (above_outlineAll (level + 1) body) ?_ hxs hys
  cases otherwise with
  | nil => exact below_outlineAll level rest
  | cons => exact below_cons

theorem agree_block {body otherwise rest : List Node}
    (h : agree (outlineBlocks level body otherwise ++ outlineAll level rest) (xs ++ ys) = true)
    (hxs : Above (level + 1) xs) (hys : Begins level ys) :
    otherwise = [] ∧ agree (outlineAll (level + 1) body) xs = true ∧
      agree (outlineAll level rest) ys = true := by
  obtain ⟨hbody, hafter⟩ := agree_blocks h hxs hys.below
  cases otherwise with
  | nil => exact ⟨rfl, hbody, hafter⟩
  | cons =>
    cases ys with
    | nil => cases hafter
    | cons p =>
      obtain ⟨level', m⟩ := p
      have hne : m ≠ .otherwise := (hys _ rfl).2
      obtain ⟨-, hfits, -⟩ := agree_cons hafter
      simp only [Mark.fits, Bool.or_eq_true, beq_iff_eq, Bool.and_eq_true] at hfits
      rcases hfits with h' | ⟨h', -⟩
      · exact absurd h'.symm hne
      · cases h'

theorem leavesLoop_of_agree (hquiet : quietAll hidden [] nodes = true)
    (h : agree (outlineAll level nodes) [(level, .choice), (level + 1, .leaveLoop)] = true) :
    LeavesLoop hidden nodes := by
  obtain ⟨front, _, _, rest, rfl, hfront, hrest, hshape, hagree⟩ := exists_shape hquiet h
  obtain ⟨l, test, body, otherwise, rfl, rfl, htest, hbody, -⟩ := hshape
  have hinside : Above (level + 1) [(level + 1, Mark.leaveLoop)] :=
    above_cons.mpr ⟨Int.le_refl _, nofun⟩
  have hafter : Begins level [] := nofun
  obtain ⟨rfl, hyes, hback⟩ := agree_block hagree hinside hafter
  obtain ⟨front', _, _, back', rfl, hfront', -, hshape, -⟩ := exists_shape hbody hyes
  obtain ⟨-, l', rfl⟩ := hshape
  exact ⟨front, l, test, front', l', back', rest, rfl, hfront, htest, hfront',
    goOn_of_agree hrest hback⟩

/-- Statements begin with some that mirror a body, and the rest has an
outline that was written. -/
def MirrorsPart (hidden : List Text) (level : Int) (b : Body) (nodes : List Node)
    (marks : List (Int × Mark)) : Prop :=
  ∃ inner rest, nodes = inner ++ rest ∧ Mirrors hidden b inner ∧
    quietAll hidden [] rest = true ∧ agree (outlineAll level rest) marks = true

theorem MirrorsPart.whole (h : MirrorsPart hidden level b nodes []) : Mirrors hidden b nodes := by
  obtain ⟨inner, rest, rfl, hinner, hquiet, hagree⟩ := h
  exact hinner.skipBack (goOn_of_agree hquiet hagree)

theorem MirrorsPart.imp {c : Body} (h : MirrorsPart hidden level b nodes marks)
    (hbc : ∀ inner, Mirrors hidden b inner → Mirrors hidden c inner) :
    MirrorsPart hidden level c nodes marks := by
  obtain ⟨inner, rest, rfl, hinner, hrest⟩ := h
  exact ⟨inner, rest, rfl, hbc inner hinner, hrest⟩

theorem MirrorsPart.cons {c : Body} {front : List Node} {node : Node}
    (h : MirrorsPart hidden level b nodes marks) (hfront : GoOn hidden front)
    (hnode : ∀ inner, Mirrors hidden b inner → Mirrors hidden c (node :: inner)) :
    MirrorsPart hidden level c (front ++ node :: nodes) marks := by
  obtain ⟨inner, rest, rfl, hinner, hrest⟩ := h
  exact ⟨front ++ node :: inner, rest, by simp, .skipFront hfront (hnode inner hinner), hrest⟩

theorem mirrorsPart_of_agree (b : Body) (hquiet : quietAll hidden [] nodes = true)
    (hmarks : Begins level marks)
    (h : agree (outlineAll level nodes) (bodyOutline level b ++ marks) = true) :
    MirrorsPart hidden level b nodes marks := by
  -- A block is cut off at its level and mirrors its part of the body as a whole; what stands
  -- behind the construct is left to the statements that follow.
  induction b generalizing level nodes marks with
  | nil => exact ⟨[], nodes, rfl, .nil, hquiet, h⟩
  | comment s rest ih => exact (ih hquiet hmarks h).imp fun _ => .comment
  | plain s rest ih =>
    rw [bodyOutline, plainOutline] at h
    by_cases hstep : s.1.kind.isStep = true
    · rw [if_pos hstep] at h
      obtain ⟨front, node, _, after, rfl, hfront, hafter, hshape, hagree⟩ := exists_shape hquiet h
      obtain ⟨rfl, hnode⟩ := hshape
      exact (ih hafter hmarks hagree).cons hfront fun _ => .step hstep hnode
    · rw [if_neg hstep] at h
      split at h
      · next hkind =>
        obtain ⟨front, _, _, after, rfl, hfront, hafter, hshape, hagree⟩ := exists_shape hquiet h
        obtain ⟨rfl, l, e, rfl, he⟩ := hshape
        exact (ih hafter hmarks hagree).cons hfront fun _ => .leave hkind he
      · exact (ih hquiet hmarks h).imp fun _ => .other (by simpa using hstep)
  | pretest counted head body tail rest ihBody ihRest =>
    have hbegins := (begins_bodyOutline level rest).append hmarks
    cases counted with
    | false =>
      rw [bodyOutline, cons_append, append_assoc] at h
      obtain ⟨front, _, _, after, rfl, hfront, hafter, hshape, hagree⟩ := exists_shape hquiet h
      obtain ⟨l, test, block, otherwise, rfl, rfl, htest, hblock⟩ := hshape
      obtain ⟨rfl, hbody, hlast⟩ := agree_block hagree (above_bodyOutline _ body) hbegins
      have hinner := (ihBody hblock begins_nil (by rwa [append_nil])).whole
      exact (ihRest hafter hmarks hlast).cons hfront fun _ => .whileLoop htest hinner
    | true =>
      rw [bodyOutline, cons_append, cons_append, append_assoc] at h
      obtain ⟨front, _, _, after, rfl, hfront, hafter, hshape, hagree⟩ := exists_shape hquiet h
      obtain ⟨l, target, source, block, otherwise, rfl, rfl, htarget, hsource, hblock⟩ := hshape
      obtain ⟨rfl, hbody, hlast⟩ := agree_block hagree
        (above_cons.mpr ⟨Int.le_refl _, above_bodyOutline _ body⟩) hbegins
      obtain ⟨front', node, _, inner, rfl, hfront', hinner, hshape, hbody⟩ :=
        exists_shape hblock hbody
      obtain ⟨rfl, hnode⟩ := hshape
      have hinner := (ihBody hinner begins_nil (by rwa [append_nil])).whole
      exact (ihRest hafter hmarks hlast).cons hfront fun _ =>
        .forLoop htarget hsource hfront' hnode hinner
  | posttest head body test rest ihBody ihRest =>
    have hbegins := (begins_bodyOutline level rest).append hmarks
    rw [bodyOutline, cons_append, append_assoc] at h
    obtain ⟨front, _, _, after, rfl, hfront, hafter, hshape, hagree⟩ := exists_shape hquiet h
    obtain ⟨l, block, otherwise, rfl, rfl, hblock⟩ := hshape
    have habove : Above (level + 1) (bodyOutline (level + 1) body ++
        [(level + 1, .choice), (level + 1 + 1, .leaveLoop)]) := by
      refine above_append.mpr ⟨above_bodyOutline _ body, above_cons.mpr ⟨Int.le_refl _,
        above_cons.mpr ⟨?_, nofun⟩⟩⟩
      exact Int.le_of_lt (Int.lt_succ _)
    obtain ⟨rfl, hbody, hlast⟩ := agree_block hagree habove hbegins
    have hchoice : Begins (level + 1)
        [(level + 1, Mark.choice), (level + 1 + 1, Mark.leaveLoop)] := by
      rintro p ⟨⟩
      exact ⟨rfl, nofun⟩
    obtain ⟨inner, leave, rfl, hinner, hleave, hend⟩ := ihBody hblock hchoice hbody
    exact (ihRest hafter hmarks hlast).cons hfront fun _ =>
      .posttest hinner (leavesLoop_of_agree hleave hend)
  | choice head mark yes tail rest ihYes ihRest =>
    have hbegins := (begins_bodyOutline level rest).append hmarks
    rw [bodyOutline, cons_append, append_assoc] at h
    obtain ⟨front, _, _, after, rfl, hfront, hafter, hshape, hagree⟩ := exists_shape hquiet h
    obtain ⟨l, test, block, otherwise, rfl, rfl, htest, hblock, -⟩ := hshape
    obtain ⟨rfl, hyes, hlast⟩ := agree_block hagree (above_bodyOutline _ yes) hbegins
    have hinner := (ihYes hblock begins_nil (by rwa [append_nil])).whole
    exact (ihRest hafter hmarks hlast).cons hfront fun _ => .choice htest hinner
  | choiceElse head mark yes middle no tail rest ihYes ihNo ihRest =>
    have hbegins := (begins_bodyOutline level rest).append hmarks
    rw [bodyOutline, cons_append, append_assoc, cons_append, append_assoc] at h
    obtain ⟨front, _, _, after, rfl, hfront, hafter, hshape, hagree⟩ := exists_shape hquiet h
    obtain ⟨l, test, block, otherwise, rfl, rfl, htest, hblock, hotherwise⟩ := hshape
    obtain ⟨hyes, hcut⟩ := agree_blocks hagree (above_bodyOutline _ yes) below_cons
    -- The other branch was written, so it is there.
    obtain ⟨hno, hlast⟩ : agree (outlineAll (level + 1) otherwise) (bodyOutline (level + 1) no) =
        true ∧ agree (outlineAll level after) (bodyOutline level rest ++ marks) = true := by
      cases otherwise with
      | nil =>
        obtain ⟨_, _, _, _, -, -, -, hshape, -⟩ := exists_shape hafter hcut
        exact hshape.elim
      | cons =>
        exact agree_append (agree_cons hcut).2.2 (above_outlineAll _ _) (below_outlineAll _ _)
          (above_bodyOutline _ no) hbegins.below
    have hinner := (ihYes hblock begins_nil (by rwa [append_nil])).whole
    have hinner' := (ihNo hotherwise begins_nil (by rwa [append_nil])).whole
    exact (ihRest hafter hmarks hlast).cons hfront fun _ => .choiceElse htest hinner hinner'

theorem mirrors_of_agree (hquiet : quietAll hidden [] nodes = true)
    (h : agree (outlineAll level nodes) (bodyOutline level b) = true) : Mirrors hidden b nodes :=
  (mirrorsPart_of_agree b hquiet begins_nil (by rwa [append_nil])).whole

end Agreement

end Pseudocode.Script
