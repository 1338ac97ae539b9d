import Mathlib.Data.List.Induction
import Pseudocode.Proofs.CSource.Lines
import Pseudocode.Proofs.Origins
import Pseudocode.Proofs.Script.Tree

/-!
# A body in C, block by block

The pass over a body knows its nesting only through a level of indentation,
which never goes below a floor. This module writes the lines of a nested
body by recursion on its blocks and proves that the pass writes the same
lines, at the same levels.

* `Body.inC`: the lines of a body at a level. Heads and ends of blocks stand
  at the level, and what is inside stands one level deeper.
* `follows_body`: the pass over a nested body, by induction on its blocks.
* `Levelled`: levels go up after an opening brace and down before a closing
  one, and nothing else changes them. Braces can then be matched by their
  levels alone (`exists_closing`, `exists_opening`).
* `body_eq_inC`: the lines of a body in a scope, and how its braces match.
-/

namespace Pseudocode

open CSource List Listing Statement Kind

variable {block : Block}

/-- A line of C with its level and origin. -/
abbrev CSource.PlacedLine : Type :=
  ListingLine Line Nat

def Statement.inC (ctx : Context) (level : Int) (s : Statement) :
    Except Expression.IndexFault (List PlacedLine) := do
  return (← linesOf ctx s).map (⟨·, level, some s.line⟩)

def Body.inC (ctx : Context) : Body → Int → Except Expression.IndexFault (List PlacedLine)
  | .nil, _ => return []
  | .comment s rest, level => return (← s.1.inC ctx level) ++ (← rest.inC ctx level)
  | .plain s rest, level => return (← s.1.inC ctx level) ++ (← rest.inC ctx level)
  | .pretest _ head body tail rest, level => return (← head.1.inC ctx level) ++
      (← body.inC ctx (level + 1)) ++ (← tail.1.inC ctx level) ++ (← rest.inC ctx level)
  | .posttest head body test rest, level => return (← head.1.inC ctx level) ++
      (← body.inC ctx (level + 1)) ++ (← test.1.inC ctx level) ++ (← rest.inC ctx level)
  | .choice head _ yes tail rest, level => return (← head.1.inC ctx level) ++
      (← yes.inC ctx (level + 1)) ++ (← tail.1.inC ctx level) ++ (← rest.inC ctx level)
  | .choiceElse head _ yes middle no tail rest, level => return (← head.1.inC ctx level) ++
      (← yes.inC ctx (level + 1)) ++ (← middle.1.inC ctx level) ++
      (← no.inC ctx (level + 1)) ++ (← tail.1.inC ctx level) ++ (← rest.inC ctx level)

namespace CSource

open Text Expression

open Script.Emitter (lastLine)

variable {s head : Statement} {b : Body}

/-! ### What the kinds of statements write -/

section Kinds

variable (ctx : Context)

variable {ls : List Line}

theorem linesOf_head (h : s.kind.opens? = some block) (hblock : block.isScope = false)
    (hls : linesOf ctx s = .ok ls) : ∃ head, ls = [.head head] := by
  obtain ⟨text, line, form⟩ := s
  cases form with
  | whileLoop | ifTest =>
    obtain ⟨_, -, rfl⟩ := exists_of_return_eq_ok hls
    exact ⟨_, rfl⟩
  | forLoop =>
    obtain ⟨_, -, hls⟩ := exists_of_bind_eq_ok hls
    obtain ⟨_, -, rfl⟩ := exists_of_return_eq_ok hls
    exact ⟨_, rfl⟩
  | repeatLoop => exact ⟨_, (Except.ok.inj hls).symm⟩
  | _ =>
    simp only [kind, Form.kind, opens?, reduceCtorEq, Option.some.injEq] at h <;>
    simp [← h, Block.isScope] at hblock

theorem linesOf_tail (h : s.kind.closes? = some block) (hls : linesOf ctx s = .ok ls) :
    ∃ line, ls = [line] ∧ line.closes = true ∧ line.opens = false := by
  obtain ⟨text, line, form⟩ := s
  cases form with
  | endWhile | endFor | endIf => exact ⟨_, (Except.ok.inj hls).symm, rfl, rfl⟩
  | untilTest =>
    obtain ⟨_, -, rfl⟩ := exists_of_return_eq_ok hls
    exact ⟨_, rfl, rfl, rfl⟩
  | _ => cases h

theorem exists_block_pretest {counted : Bool} (head : StatementOf (pretestHead counted))
    (tail : StatementOf (pretestTail counted)) :
    ∃ block, head.1.kind.opens? = some block ∧ block.isScope = false ∧
      tail.1.kind.closes? = some block := by
  rw [head.2, tail.2]
  cases counted <;> exact ⟨_, rfl, rfl, rfl⟩

theorem linesOf_middle (s : StatementOf .elseBranch) : linesOf ctx s.1 = .ok [.otherwise] := by
  obtain ⟨⟨text, line, form⟩, h⟩ := s
  cases form with
  | elseBranch => rfl
  | _ => cases h

theorem linesOf_mark (s : StatementOf .thenBranch) : linesOf ctx s.1 = .ok [] := by
  obtain ⟨⟨text, line, form⟩, h⟩ := s
  cases form with
  | thenBranch => rfl
  | _ => cases h

theorem remarks_flat (t : Text) : ∀ x ∈ remarks t, x.opens = false ∧ x.closes = false := by
  intro x hx
  obtain ⟨t', -, rfl⟩ := mem_map.mp hx
  exact ⟨rfl, rfl⟩

theorem linesOf_flat (h : s.kind = .comment ∨ s.kind.isPlain = true)
    (hls : linesOf ctx s = .ok ls) : ∀ x ∈ ls, x.opens = false ∧ x.closes = false := by
  obtain ⟨text, line, form⟩ := s
  -- A line that is made from a text that can be shifted, or some such texts.
  have hmade {α : Type} {e : Except IndexFault α} {make : α → Line}
      (hmake : ∀ a, (make a).opens = false ∧ (make a).closes = false)
      (he : (do return [make (← e)]) = .ok ls) :
      ∀ x ∈ ls, x.opens = false ∧ x.closes = false := by
    cases e with
    | error => simp at he
    | ok a =>
      cases he
      simpa using hmake a
  cases form with
  | comment =>
    cases hls
    exact remarks_flat _
  | read | write | call => exact hmade (fun _ => ⟨rfl, rfl⟩) hls
  | declare | returnScope =>
    cases hls
    exact forall_mem_singleton.mpr ⟨rfl, rfl⟩
  | legacyArray | unrecognized =>
    cases hls
    exact remarks_flat _
  | _ => nomatch h

end Kinds

/-! ### The pass writes the lines of a body -/

def written (bufferSize : Int) (x : PlacedLine) : Option (ListingLine Text Nat) :=
  some ⟨x.code.text bufferSize, x.level, x.origin⟩

/-- A listing with some lines added to it. -/
def grown (ctx : Context) (l : Listing Text Nat) (origin : Option Nat) (ls : List PlacedLine) :
    Listing Text Nat :=
  { l with origin, lines := l.lines ++ (ls.map (written ctx.bufferSize)).toArray }

variable (ctx : Context) (floor : Int) (l : Listing Text Nat) (origin origin' : Option Nat)

@[simp] theorem level_grown (ls : List PlacedLine) :
    (grown ctx l origin ls).level = l.level := rfl

theorem grown_grown (ls ls' : List PlacedLine) :
    grown ctx (grown ctx l origin ls) origin' ls' = grown ctx l origin' (ls ++ ls') := by
  simp [grown]

theorem indent_grown (ls : List PlacedLine) :
    (grown ctx l origin ls).indent = grown ctx l.indent origin ls := rfl

theorem grown_nil : grown ctx l l.origin [] = l := by
  simp [grown]

theorem setOrigin_eq_grown (number : Nat) :
    l.setOrigin (some number) = grown ctx l (some number) [] := by
  simp [grown, setOrigin]

theorem foldl_place_flat {ls : List Line} (h : ∀ x ∈ ls, x.opens = false ∧ x.closes = false) :
    ls.foldl (place ctx.bufferSize floor) l =
      grown ctx l l.origin (ls.map (⟨·, l.level, l.origin⟩)) := by
  induction ls generalizing l with
  | nil => exact (grown_nil ctx l).symm
  | cons x rest ih =>
    obtain ⟨hx, hrest⟩ := forall_mem_cons.mp h
    have hplace : place ctx.bufferSize floor l x =
        grown ctx l l.origin [⟨x, l.level, l.origin⟩] := by
      simp [place, grown, written, hx.1, hx.2, emit]
    rw [foldl_cons, hplace, ih _ hrest, grown_grown]
    rfl

theorem statement_flat (h : s.kind = .comment ∨ s.kind.isPlain = true) :
    statement ctx floor l s = (do return grown ctx l (some s.line) (← s.inC ctx l.level)) := by
  rw [statement_eq_place]
  unfold inC
  cases hls : linesOf ctx s with
  | error => rfl
  | ok ls =>
    refine congrArg Except.ok ?_
    show ls.foldl _ _ = _
    rw [foldl_place_flat ctx floor _ (linesOf_flat ctx h hls), setOrigin_eq_grown ctx]
    rfl

theorem statement_head (h : s.kind.opens? = some block) (hblock : block.isScope = false) :
    statement ctx floor l s =
      (do return grown ctx l.indent (some s.line) (← s.inC ctx l.level)) := by
  rw [statement_eq_place]
  unfold inC
  cases hls : linesOf ctx s with
  | error => rfl
  | ok =>
    obtain ⟨head, rfl⟩ := linesOf_head ctx h hblock hls
    refine congrArg Except.ok ?_
    simp [place, grown, written, Line.opens, Line.closes, emit, indent, setOrigin]

variable {floor l} in
theorem statement_tail (h : s.kind.closes? = some block) (hfloor : floor ≤ l.level)
    (ls : List PlacedLine) :
    statement ctx floor (grown ctx l.indent origin ls) s =
      (do return grown ctx l (some s.line) (ls ++ (← s.inC ctx l.level))) := by
  rw [statement_eq_place]
  unfold inC
  cases hls : linesOf ctx s with
  | error => rfl
  | ok =>
    obtain ⟨line, rfl, hcloses, hopens⟩ := linesOf_tail ctx h hls
    have hback : max floor l.level = l.level := Int.max_eq_right hfloor
    refine congrArg Except.ok ?_
    simp [place, grown, written, hcloses, hopens, hback, emit, indent, dedent, setOrigin]

variable {floor l} in
theorem statement_middle (s : StatementOf .elseBranch) (hfloor : floor ≤ l.level)
    (ls : List PlacedLine) :
    statement ctx floor (grown ctx l.indent origin ls) s.1 =
      (do return grown ctx l.indent (some s.1.line) (ls ++ (← s.1.inC ctx l.level))) := by
  rw [statement_eq_place]
  unfold inC
  rw [linesOf_middle]
  have hback : max floor l.level = l.level := Int.max_eq_right hfloor
  refine congrArg Except.ok ?_
  simp [place, grown, written, Line.opens, Line.closes, hback, emit, indent, dedent, setOrigin]

theorem foldlM_mark (mark : Option (StatementOf .thenBranch)) (ls : List PlacedLine) :
    (Body.markStatements mark).foldlM (statement ctx floor) (grown ctx l origin ls) =
      pure (grown ctx l (lastLine origin (Body.markStatements mark)) ls) := by
  cases mark with
  | none => rfl
  | some s =>
    show statement ctx floor _ s.1 >>= pure = _
    rw [statement_eq_place, linesOf_mark]
    refine congrArg Except.ok ?_
    rfl

/-- The pass over the statements writes the lines of the body after what was
written before, from any level that is not below the floor. -/
def Follows (b : Body) : Prop :=
  ∀ {l : Listing Text Nat} {origin : Option Nat} {ls : List PlacedLine}, floor ≤ l.level →
    b.statements.foldlM (statement ctx floor) (grown ctx l origin ls) =
      (do return grown ctx l (lastLine origin b.statements) (ls ++ (← b.inC ctx l.level)))

variable {ctx floor} in
theorem foldlM_opened (h : head.kind.opens? = some block) (hblock : block.isScope = false)
    (mark : Option (StatementOf .thenBranch)) (hbody : Follows ctx floor b) {l : Listing Text Nat}
    {origin : Option Nat} {ls : List PlacedLine} (hfloor : floor ≤ l.level) :
    (head :: (Body.markStatements mark ++ b.statements)).foldlM (statement ctx floor)
        (grown ctx l origin ls) =
      (do
        let opening ← head.inC ctx l.level
        let inside ← b.inC ctx (l.level + 1)
        return grown ctx l.indent
          (lastLine (some head.line) (Body.markStatements mark ++ b.statements))
          (ls ++ opening ++ inside)) := by
  have hdeeper : floor ≤ l.indent.level := Int.le_trans hfloor (Int.le.intro 1 rfl)
  simp only [foldlM_cons, foldlM_append, statement_head ctx floor _ h hblock, bind_assoc,
    pure_bind, indent_grown, grown_grown, foldlM_mark, hbody hdeeper, lastLine, foldl_append]
  rfl

variable {ctx floor} in
theorem foldlM_block {tail : Statement} (h : head.kind.opens? = some block)
    (hblock : block.isScope = false) (htail : tail.kind.closes? = some block)
    (mark : Option (StatementOf .thenBranch)) {rest : Body} (hbody : Follows ctx floor b)
    (hrest : Follows ctx floor rest) {l : Listing Text Nat} {origin : Option Nat}
    {ls : List PlacedLine} (hfloor : floor ≤ l.level) :
    (head :: (Body.markStatements mark ++ (b.statements ++ tail :: rest.statements))).foldlM
        (statement ctx floor) (grown ctx l origin ls) =
      (do
        let opening ← head.inC ctx l.level
        let inside ← b.inC ctx (l.level + 1)
        let closing ← tail.inC ctx l.level
        let after ← rest.inC ctx l.level
        return grown ctx l (lastLine (some tail.line) rest.statements)
          (ls ++ (opening ++ inside ++ closing ++ after))) := by
  rw [← append_assoc, ← cons_append, foldlM_append, foldlM_opened h hblock mark hbody hfloor]
  simp only [foldlM_cons, bind_assoc, pure_bind, statement_tail ctx _ htail hfloor,
    hrest hfloor, append_assoc]

theorem follows_body (b : Body) : Follows ctx floor b := by
  -- By induction on the blocks. The listing before a block is kept: inside the
  -- block it is one level deeper, and every statement only grows it.
  induction b with
  | nil =>
    intro l origin ls _
    simp [Body.statements, Body.inC, lastLine]
  | comment s rest ih | plain s rest ih =>
    intro l origin ls hfloor
    have hkind : s.1.kind = .comment ∨ s.1.kind.isPlain = true := by simp [s.2]
    simp only [Body.statements, Body.inC, foldlM_cons, statement_flat ctx floor _ hkind,
      bind_assoc, pure_bind, grown_grown, ih hfloor, append_assoc]
    rfl
  | pretest counted head body tail rest ihbody ih =>
    intro l origin ls hfloor
    obtain ⟨block, hopens, hblock, hcloses⟩ := exists_block_pretest head tail
    refine (foldlM_block hopens hblock hcloses none ihbody ih hfloor).trans ?_
    simp [Body.inC, Body.statements, lastLine]
  | posttest head body test rest ihbody ih =>
    intro l origin ls hfloor
    refine (foldlM_block (congrArg opens? head.2) rfl (congrArg closes? test.2) none
      ihbody ih hfloor).trans ?_
    simp [Body.inC, Body.statements, lastLine]
  | choice head mark yes tail rest ihyes ih =>
    intro l origin ls hfloor
    refine (foldlM_block (congrArg opens? head.2) rfl (congrArg closes? tail.2) mark
      ihyes ih hfloor).trans ?_
    simp [Body.inC, Body.statements, lastLine]
  | choiceElse head mark yes middle no tail rest ihyes ihno ih =>
    -- The second branch is as deep as the first one, and ends as any block.
    intro l origin ls hfloor
    have hdeeper : floor ≤ l.indent.level := Int.le_trans hfloor (Int.le.intro 1 rfl)
    rw [Body.statements, ← append_assoc, ← cons_append, foldlM_append,
      foldlM_opened (congrArg opens? head.2) rfl mark ihyes hfloor, Body.inC]
    simp only [foldlM_cons, foldlM_append, bind_assoc, pure_bind,
      statement_middle ctx _ middle hfloor, ihno hdeeper,
      statement_tail ctx _ (congrArg closes? tail.2) hfloor, ih hfloor, lastLine,
      foldl_cons, foldl_append, append_assoc]
    rfl

/-! ### Levels and braces -/

def Levelled : Int → List PlacedLine → Int → Prop
  | level, [], last => level = last
  | level, x :: rest, last =>
    x.level = (if x.code.closes then level - 1 else level) ∧
      Levelled (if x.code.opens then x.level + 1 else x.level) rest last

section Levelled

variable {first middle last level : Int} {ls ls' : List PlacedLine}

theorem Levelled.append (h : Levelled first ls middle) (h' : Levelled middle ls' last) :
    Levelled first (ls ++ ls') last := by
  induction ls generalizing first with
  | nil =>
    obtain rfl : first = middle := h
    exact h'
  | cons x rest ih => exact ⟨h.1, ih h.2⟩

theorem Levelled.split (h : Levelled first (ls ++ ls') last) :
    ∃ middle, Levelled first ls middle ∧ Levelled middle ls' last := by
  induction ls generalizing first with
  | nil => exact ⟨first, rfl, h⟩
  | cons x rest ih =>
    obtain ⟨middle, hrest, h'⟩ := ih h.2
    exact ⟨middle, ⟨h.1, hrest⟩, h'⟩

/-- A line closes the block that another one opens: it is the next one that is
no deeper, and it stands at the same level. -/
def Closes (ls : List PlacedLine) (i j : Nat) : Prop :=
  i < j ∧ ∃ opening closing, ls[i]? = some opening ∧ ls[j]? = some closing ∧
    opening.code.opens = true ∧ closing.code.closes = true ∧ closing.level = opening.level ∧
      ∀ k x, i < k → k < j → ls[k]? = some x → opening.level < x.level

theorem Closes.right_unique {i j j' : Nat} (h : Closes ls i j) (h' : Closes ls i j') : j' = j := by
  -- The earlier one of two would stand between the head and the later one.
  obtain ⟨hlt, o, c, ho, hc, -, -, hlevel, hdeeper⟩ := h
  obtain ⟨hlt', o', c', ho', hc', -, -, hlevel', hdeeper'⟩ := h'
  obtain rfl : o = o' := Option.some.inj (ho.symm.trans ho')
  rcases Nat.lt_trichotomy j j' with hj | rfl | hj
  · have := hdeeper' j c hlt hj hc
    omega
  · rfl
  · have := hdeeper j' c' hlt' hj hc'
    omega

theorem Closes.left_unique {i i' j : Nat} (h : Closes ls i j) (h' : Closes ls i' j) : i' = i := by
  obtain ⟨hlt, o, c, ho, hc, -, -, hlevel, hdeeper⟩ := h
  obtain ⟨hlt', o', c', ho', hc', -, -, hlevel', hdeeper'⟩ := h'
  obtain rfl : c = c' := Option.some.inj (hc.symm.trans hc')
  rcases Nat.lt_trichotomy i i' with hi | rfl | hi
  · have := hdeeper i' o' hi hlt' ho'
    omega
  · rfl
  · have := hdeeper' i o hi hlt ho
    omega

theorem exists_closing (h : Levelled first ls last) (hfirst : level < first)
    (hlast : last ≤ level) :
    ∃ (j : Nat) (closing : PlacedLine), ls[j]? = some closing ∧ closing.code.closes = true ∧ closing.level = level ∧
      ∀ (k : Nat) (x : PlacedLine), k < j → ls[k]? = some x → level < x.level := by
  induction ls generalizing first with
  | nil =>
    obtain rfl : first = last := h
    omega
  | cons x rest ih =>
    obtain ⟨hx, hrest⟩ := h
    by_cases hback : x.level = level
    · refine ⟨0, x, rfl, ?_, hback, fun k _ hk => absurd hk (Nat.not_lt_zero k)⟩
      by_contra hcloses
      rw [if_neg hcloses] at hx
      omega
    · have hdeeper : level < x.level := by
        split at hx <;> omega
      obtain ⟨j, c, hc, hcloses, hlevel, hbetween⟩ := ih hrest (by split <;> omega)
      refine ⟨j + 1, c, hc, hcloses, hlevel, fun k y hk hy => ?_⟩
      cases k with
      | zero =>
        cases hy
        exact hdeeper
      | succ k => exact hbetween k y (Nat.lt_of_succ_lt_succ hk) hy

theorem exists_opening (h : Levelled first ls last) (hfirst : first ≤ level)
    (hlast : level < last) :
    ∃ (i : Nat) (opening : PlacedLine), ls[i]? = some opening ∧ opening.code.opens = true ∧ opening.level = level ∧
      ∀ (k : Nat) (x : PlacedLine), i < k → ls[k]? = some x → level < x.level := by
  induction ls using reverseRecOn generalizing last with
  | nil =>
    obtain rfl : first = last := h
    omega
  | append_singleton rest x ih =>
    obtain ⟨middle, hrest, hx, hend⟩ := h.split
    replace hend : (if x.code.opens = true then x.level + 1 else x.level) = last := hend
    have hplace : (rest ++ [x])[rest.length]? = some x := by simp
    by_cases hback : x.level = level
    · refine ⟨rest.length, x, hplace, ?_, hback, fun k y hk hy => ?_⟩
      · by_contra hopens
        rw [if_neg hopens] at hend
        omega
      · have hlength := (List.getElem?_eq_some_iff.mp hy).1
        rw [length_append, length_singleton] at hlength
        omega
    · have hdeeper : level < x.level := by
        split at hend <;> omega
      obtain ⟨i, o, ho, hopens, hlevel, hbetween⟩ := ih hrest (by split at hx <;> omega)
      have hi := (List.getElem?_eq_some_iff.mp ho).1
      refine ⟨i, o, by rw [getElem?_append_left hi, ho], hopens, hlevel, fun k y hk hy => ?_⟩
      by_cases hlt : k < rest.length
      · rw [getElem?_append_left hlt] at hy
        exact hbetween k y hk hy
      · have hlength := (List.getElem?_eq_some_iff.mp hy).1
        rw [length_append, length_singleton] at hlength
        obtain rfl : k = rest.length := by omega
        obtain rfl := Option.some.inj (hplace.symm.trans hy)
        exact hdeeper

theorem Levelled.exists_closes (h : Levelled level ls level) (hls : ∀ x ∈ ls, level ≤ x.level) :
    (∀ i x, ls[i]? = some x → x.code.opens = true → ∃ j, Closes ls i j) ∧
      ∀ j x, ls[j]? = some x → x.code.closes = true → ∃ i, Closes ls i j := by
  constructor
  · intro i x hx hopens
    obtain ⟨hi, hget⟩ := List.getElem?_eq_some_iff.mp hx
    have hsplit : ls = (ls.take i ++ [x]) ++ ls.drop (i + 1) := by
      rw [← hget, ← take_succ_eq_append_getElem hi, take_append_drop]
    rw [hsplit] at h
    obtain ⟨middle, hbefore, hafter⟩ := h.split
    obtain ⟨-, -, -, hmiddle⟩ := hbefore.split
    replace hmiddle : x.level + 1 = middle := by
      simpa only [Levelled, hopens, if_true] using hmiddle
    obtain ⟨j, c, hc, hcloses, hlevel, hbetween⟩ :=
      exists_closing hafter (show x.level < _ by omega) (hls x (mem_of_getElem? hx))
    rw [getElem?_drop] at hc
    refine ⟨i + 1 + j, by omega, x, c, hx, hc, hopens, hcloses, hlevel, fun k y hk hkj hy => ?_⟩
    refine hbetween (k - (i + 1)) y (by omega) ?_
    rw [getElem?_drop, show i + 1 + (k - (i + 1)) = k by omega]
    exact hy
  · intro j x hx hcloses
    obtain ⟨hj, hget⟩ := List.getElem?_eq_some_iff.mp hx
    have hsplit : ls = ls.take j ++ x :: ls.drop (j + 1) := by
      rw [← hget, getElem_cons_drop, take_append_drop]
    rw [hsplit] at h
    obtain ⟨middle, hbefore, hback, -⟩ := h.split
    rw [if_pos hcloses] at hback
    obtain ⟨i, o, ho, hopens, hlevel, hbetween⟩ :=
      exists_opening hbefore (hls x (mem_of_getElem? hx)) (by omega)
    have hi : i < j := by
      have := (List.getElem?_eq_some_iff.mp ho).1
      rw [length_take] at this
      omega
    rw [getElem?_take_of_lt hi] at ho
    refine ⟨i, hi, o, x, ho, hx, hopens, hcloses, hlevel.symm, fun k y hk hkj hy => ?_⟩
    rw [hlevel]
    exact hbetween k y hk (by rwa [getElem?_take_of_lt hkj])

/-- The levels of the lines go from one level to another as their braces say,
and not below a third one. -/
structure Nested (floor first : Int) (ls : List PlacedLine) (last : Int) : Prop where
  levelled : Levelled first ls last
  above : ∀ x ∈ ls, floor ≤ x.level

theorem Nested.append {floor : Int} (h : Nested floor first ls middle)
    (h' : Nested floor middle ls' last) : Nested floor first (ls ++ ls') last :=
  ⟨h.levelled.append h'.levelled, fun x hx =>
    (mem_append.mp hx).elim (h.above x) (h'.above x)⟩

theorem Nested.weaken {floor floor' : Int} (h : Nested floor first ls last) (hle : floor' ≤ floor) :
    Nested floor' first ls last :=
  ⟨h.levelled, fun x hx => Int.le_trans hle (h.above x hx)⟩

end Levelled

section Nested

variable {ctx : Context} {level : Int} {s : Statement} {ls : List PlacedLine}

theorem exists_linesOf (h : s.inC ctx level = .ok ls) :
    ∃ found, linesOf ctx s = .ok found ∧ found.map (⟨·, level, some s.line⟩) = ls :=
  exists_of_return_eq_ok h

theorem nested_flat (hkind : s.kind = .comment ∨ s.kind.isPlain = true)
    (h : s.inC ctx level = .ok ls) : Nested level level ls level := by
  obtain ⟨found, hfound, rfl⟩ := exists_linesOf h
  have hflat := linesOf_flat ctx hkind hfound
  refine ⟨?_, by simp⟩
  clear hfound h
  induction found with
  | nil => rfl
  | cons x rest ih =>
    obtain ⟨⟨hopens, hcloses⟩, hrest⟩ := forall_mem_cons.mp hflat
    refine ⟨by simp [hcloses], ?_⟩
    rw [if_neg (by simp [hopens])]
    exact ih hrest

theorem nested_head (hopens : s.kind.opens? = some block)
    (hblock : block.isScope = false) (h : s.inC ctx level = .ok ls) :
    Nested level level ls (level + 1) := by
  obtain ⟨found, hfound, rfl⟩ := exists_linesOf h
  obtain ⟨head, rfl⟩ := linesOf_head ctx hopens hblock hfound
  exact ⟨⟨rfl, rfl⟩, by simp⟩

theorem nested_tail (hcloses : s.kind.closes? = some block)
    (h : s.inC ctx level = .ok ls) : Nested level (level + 1) ls level := by
  obtain ⟨found, hfound, rfl⟩ := exists_linesOf h
  obtain ⟨line, rfl, hline, hnot⟩ := linesOf_tail ctx hcloses hfound
  refine ⟨⟨?_, ?_⟩, by simp⟩
  · simp [hline]
  · simp [hnot, Levelled]

theorem nested_middle (hkind : s.kind = .elseBranch) (h : s.inC ctx level = .ok ls) :
    Nested level (level + 1) ls (level + 1) := by
  obtain ⟨found, hfound, rfl⟩ := exists_linesOf h
  obtain rfl := Except.ok.inj ((linesOf_middle ctx ⟨s, hkind⟩).symm.trans hfound)
  exact ⟨⟨(Int.add_sub_cancel ..).symm, rfl⟩, by simp⟩

theorem nested_block {tail : Statement} {rest : Body} (hopens : head.kind.opens? = some block)
    (hblock : block.isScope = false) (hcloses : tail.kind.closes? = some block)
    (hbody : ∀ {ls}, b.inC ctx (level + 1) = .ok ls → Nested (level + 1) (level + 1) ls (level + 1))
    (hrest : ∀ {ls}, rest.inC ctx level = .ok ls → Nested level level ls level)
    (h : (do return (← head.inC ctx level) ++ (← b.inC ctx (level + 1)) ++
      (← tail.inC ctx level) ++ (← rest.inC ctx level)) = .ok ls) :
    Nested level level ls level := by
  obtain ⟨opening, hopening, h⟩ := exists_of_bind_eq_ok h
  obtain ⟨inside, hinside, h⟩ := exists_of_bind_eq_ok h
  obtain ⟨closing, hclosing, h⟩ := exists_of_bind_eq_ok h
  obtain ⟨after, hafter, rfl⟩ := exists_of_return_eq_ok h
  exact (((nested_head hopens hblock hopening).append
    ((hbody hinside).weaken (Int.le.intro 1 rfl))).append (nested_tail hcloses hclosing)).append
      (hrest hafter)

theorem nested_inC (b : Body) (h : b.inC ctx level = .ok ls) : Nested level level ls level := by
  induction b generalizing level ls with
  | nil =>
    cases h
    exact ⟨rfl, nofun⟩
  | comment s rest ih | plain s rest ih =>
    obtain ⟨here, hhere, h⟩ := exists_of_bind_eq_ok h
    obtain ⟨after, hafter, rfl⟩ := exists_of_return_eq_ok h
    exact (nested_flat (by simp [s.2]) hhere).append (ih hafter)
  | pretest counted head body tail rest ihbody ih =>
    obtain ⟨block, hopens, hblock, hcloses⟩ := exists_block_pretest head tail
    exact nested_block hopens hblock hcloses ihbody ih h
  | posttest head body test rest ihbody ih =>
    exact nested_block (congrArg opens? head.2) rfl (congrArg closes? test.2) ihbody ih h
  | choice head mark yes tail rest ihyes ih =>
    exact nested_block (congrArg opens? head.2) rfl (congrArg closes? tail.2) ihyes ih h
  | choiceElse head mark yes middle no tail rest ihyes ihno ih =>
    obtain ⟨opening, hopening, h⟩ := exists_of_bind_eq_ok h
    obtain ⟨inside, hinside, h⟩ := exists_of_bind_eq_ok h
    obtain ⟨between, hbetween, h⟩ := exists_of_bind_eq_ok h
    obtain ⟨inside', hinside', h⟩ := exists_of_bind_eq_ok h
    obtain ⟨closing, hclosing, h⟩ := exists_of_bind_eq_ok h
    obtain ⟨after, hafter, rfl⟩ := exists_of_return_eq_ok h
    have hle : level ≤ level + 1 := Int.le.intro 1 rfl
    have hfirst := (nested_head (congrArg opens? head.2) rfl hopening).append
      ((ihyes hinside).weaken hle)
    have hsecond := (nested_middle middle.2 hbetween).append ((ihno hinside').weaken hle)
    rw [append_assoc (opening ++ inside)]
    exact ((hfirst.append hsecond).append
      (nested_tail (congrArg closes? tail.2) hclosing)).append (ih hafter)

end Nested

/-! ### The body of a scope -/

def bufferLines (names : Names) : List Line :=
  names.buffers.map fun name => .declare .text name none

theorem text_buffer (bufferSize : Int) (name : Text) :
    (Line.declare .text name none).text bufferSize =
      "char " ++ name ++ "[" ++ ofInt bufferSize ++ "];" := by
  have hextent : ("char " : Text) ++ name ++ [] = ("char " : Text) ++ name := append_nil _
  exact congrArg (· ++ "[" ++ ofInt bufferSize ++ "];") hextent

/-- The lines of a nested body in a scope are its buffers, and its statements
block by block: heads, ends and `else` stand at the level of the scope, or of
the block that they are in, and what is inside a block stands one level deeper.
The pass is at the level of the scope in the end. Every line with an opening
brace has exactly one that closes it, and every line with a closing brace has
exactly one that it closes. -/
theorem body_eq_inC (settings : Settings) (inMain : Bool) (params : List Text) (b : Body)
    (l : Listing Text Nat) :
    let ctx : Context := ⟨settings.bufferSize, .ofBody params b.statements, inMain⟩
    body settings inMain params b.statements l =
        (b.inC ctx l.level).map (fun ls =>
          { level := l.level
            origin := lastLine l.origin b.statements
            lines := l.lines ++
              ((bufferLines ctx.names).map (fun x => (⟨x, l.level, l.origin⟩ : PlacedLine)) ++ ls
                |>.map (written settings.bufferSize)).toArray }) ∧
      ∀ ls, b.inC ctx l.level = .ok ls →
        (∀ i x, ls[i]? = some x → x.code.opens = true → ∃! j, Closes ls i j) ∧
          ∀ j x, ls[j]? = some x → x.code.closes = true → ∃! i, Closes ls i j := by
  intro ctx
  constructor
  · have hbuffers : l.emitAll (ctx.names.buffers.map fun name =>
        "char " ++ name ++ "[" ++ ofInt settings.bufferSize ++ "];") =
          grown ctx l l.origin ((bufferLines ctx.names).map (⟨·, l.level, l.origin⟩)) := by
      refine Eq.trans (b := (bufferLines ctx.names).foldl (place ctx.bufferSize l.level) l) ?_
        (foldl_place_flat ctx l.level l ?_)
      · rw [bufferLines, Listing.emitAll, foldl_map, foldl_map]
        refine congrArg (foldl · l _) (funext fun l => funext fun name => ?_)
        exact congrArg l.emit (text_buffer settings.bufferSize name).symm
      · intro x hx
        obtain ⟨name, -, rfl⟩ := mem_map.mp hx
        exact ⟨rfl, rfl⟩
    show foldlM (statement ctx (l.emitAll _).level) (l.emitAll _) b.statements = _
    rw [hbuffers, level_grown, follows_body ctx l.level b (Int.le_refl _)]
    cases b.inC ctx l.level <;> rfl
  · intro ls hls
    obtain ⟨hopening, hclosing⟩ := (nested_inC b hls).levelled.exists_closes (nested_inC b hls).above
    refine ⟨fun i x hx hopens => ?_, fun j x hx hcloses => ?_⟩
    · obtain ⟨j, hj⟩ := hopening i x hx hopens
      exact ⟨j, hj, fun j' hj' => hj.right_unique hj'⟩
    · obtain ⟨i, hi⟩ := hclosing j x hx hcloses
      exact ⟨i, hi, fun i' hi' => hi.left_unique hi'⟩

end CSource

end Pseudocode
