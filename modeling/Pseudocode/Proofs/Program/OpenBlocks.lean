import Pseudocode.Proofs.Places

/-!
# The blocks that a list of statements leaves open

The pass over a text asks less of a body than nesting does. It keeps the
blocks that are open: an opening statement pushes its block and a closing
one pops the block it closes, but a mark of a branch only needs an open
`si` somewhere in the stack, not on top of it.

* `openAfter`: the stack after a list of statements, if every closing
  statement finds its block on top and every mark an open `si`.
* `wellNested_filter_of_openAfter`: a body that starts and ends with no
  open block is nested without its marks.
* `MarksPlaced`, `wellNested_of_openAfter`: it is nested with its marks if
  each is a direct part of its `si`.
* `count_ifTest_openAfter`: how many `si` are open.
-/

namespace Pseudocode

open List Kind
open Place (settleTop)

variable {k : Kind} {stack stack' : List Block} {xs : List Statement}
variable {places : List Place} {before : List Statement}

/-- The open blocks after a statement of a kind in a body, or nothing if
the statement cannot stand there. -/
def Kind.turn (stack : List Block) (k : Kind) : Option (List Block) :=
  match k.opens?, k.closes? with
  | some block, _ => if block.isScope then none else some (block :: stack)
  | none, some block => if stack.head? = some block then some stack.tail else none
  | none, none =>
    if k.isMark then if .ifTest ∈ stack then some stack else none
    else if k = .program ∨ k = .endScope then none
    else some stack

def openAfter (stack : List Block) (body : List Statement) : Option (List Block) :=
  body.foldlM (fun stack s => s.kind.turn stack) stack

theorem openAfter_cons (stack : List Block) (s : Statement) (rest : List Statement) :
    openAfter stack (s :: rest) = (s.kind.turn stack).bind fun stack => openAfter stack rest :=
  foldlM_cons

theorem openAfter_append (stack : List Block) (xs ys : List Statement) :
    openAfter stack (xs ++ ys) = (openAfter stack xs).bind fun stack => openAfter stack ys :=
  foldlM_append

theorem Kind.turn_cases (h : k.turn stack = some stack') :
    (k.isPlain = true ∨ k = .comment) ∧ stack' = stack ∨
    k.isMark = true ∧ .ifTest ∈ stack ∧ stack' = stack ∨
    (∃ b, k.opens? = some b ∧ b.isScope = false ∧ stack' = b :: stack) ∨
    ∃ b, k.closes? = some b ∧ stack = b :: stack' := by
  cases k with
  | whileLoop | forLoop | repeatLoop | ifTest =>
    exact .inr (.inr (.inl ⟨_, rfl, rfl, (Option.some.inj h).symm⟩))
  | endWhile | endFor | untilTest | endIf =>
    refine .inr (.inr (.inr ⟨_, rfl, ?_⟩))
    cases stack <;> simp_all [turn, opens?, closes?]
  | thenBranch | elseBranch =>
    refine .inr (.inl ⟨rfl, ?_⟩)
    simpa [turn, opens?, closes?, isMark, eq_comm] using h
  | program | endScope | function | malformedFunction | main => cases h
  | _ => exact .inl ⟨by decide, (Option.some.inj h).symm⟩

theorem Kind.turn_of_isMark (hm : k.isMark = true) (h : k.turn stack = some stack') :
    .ifTest ∈ stack ∧ stack' = stack := by
  obtain ⟨hk, -⟩ | ⟨-, hif, rfl⟩ | ⟨block, hk, -⟩ | ⟨block, hk, -⟩ := turn_cases h
  · cases k <;> simp_all [isMark, isPlain]
  · exact ⟨hif, rfl⟩
  · cases k <;> simp_all [isMark, opens?]
  · cases k <;> simp_all [isMark, closes?]

theorem Kind.turn_close {block : Block} (stack : List Block)
    (h : k.closes? = some block) : k.turn (block :: stack) = some stack := by
  cases k <;> simp only [closes?, reduceCtorEq] at h <;>
    simp [turn, opens?, closes?, ← h]

theorem Kind.turn_mark (h : k.isMark = true)
    (hif : .ifTest ∈ stack) : k.turn stack = some stack := by
  cases k <;> first | exact if_pos hif | exact absurd h (by decide)

theorem Kind.turn_scope {inner : List Block} {scope : Block}
    (hscope : scope.isScope = true) (h : k.turn (inner ++ [scope]) = some stack) :
    ∃ inner', stack = inner' ++ [scope] ∧ k.turn inner = some inner' := by
  obtain ⟨hk, rfl⟩ | ⟨hk, hif, rfl⟩ | ⟨block, hopens, hb, rfl⟩ | ⟨block, hcloses, hstack⟩ :=
    turn_cases h
  · refine ⟨inner, rfl, ?_⟩
    obtain hk | rfl := hk
    · cases k <;> first | rfl | exact absurd hk (by decide)
    · rfl
  · have hinner : .ifTest ∈ inner := by
      rcases mem_append.mp hif with hmem | hmem
      · exact hmem
      · rw [← mem_singleton.mp hmem] at hscope
        exact absurd hscope (by decide)
    exact ⟨inner, rfl, turn_mark hk hinner⟩
  · refine ⟨block :: inner, rfl, ?_⟩
    simp [turn, hopens, hb]
  · cases inner with
    | nil =>
      -- No statement of a body closes a scope.
      obtain ⟨rfl, rfl⟩ : scope = block ∧ stack = [] := by simpa using hstack
      cases k <;> cases hcloses <;> exact absurd hscope (by decide)
    | cons top inner =>
      obtain ⟨rfl, rfl⟩ : top = block ∧ inner ++ [scope] = stack := by simpa using hstack
      exact ⟨inner, rfl, turn_close inner hcloses⟩

theorem isScope_of_openAfter
    (h : openAfter stack xs = some stack') (hstack : ∀ b ∈ stack, b.isScope = false) :
    ∀ b ∈ stack', b.isScope = false := by
  induction xs generalizing stack with
  | nil =>
    cases h
    exact hstack
  | cons s rest ih =>
    obtain ⟨middle, hturn, hrest⟩ := Option.bind_eq_some_iff.mp h
    refine ih hrest ?_
    obtain ⟨-, rfl⟩ | ⟨-, -, rfl⟩ | ⟨block, -, hb, rfl⟩ | ⟨block, -, rfl⟩ := turn_cases hturn
    · exact hstack
    · exact hstack
    · exact forall_mem_cons.mpr ⟨hb, hstack⟩
    · exact (forall_mem_cons.mp hstack).2

theorem openAfter_filter (h : openAfter stack xs = some stack') :
    openAfter stack (xs.filter fun s => !s.kind.isMark) = some stack' := by
  induction xs generalizing stack with
  | nil => exact h
  | cons s rest ih =>
    rw [openAfter_cons, Option.bind_eq_some_iff] at h
    obtain ⟨middle, hturn, hrest⟩ := h
    cases hm : s.kind.isMark with
    | true =>
      rw [filter_cons_of_neg (by simp [hm])]
      obtain ⟨-, rfl⟩ := turn_of_isMark hm hturn
      exact ih hrest
    | false =>
      rw [filter_cons_of_pos (by simp [hm]), openAfter_cons, hturn]
      exact ih hrest

theorem Kind.move_of_turn (hmark : k.isMark = false)
    (h : k.turn (places.map Place.block) = some stack) :
    ∃ places', k.move places = some places' ∧ places'.map Place.block = stack := by
  obtain ⟨hk, rfl⟩ | ⟨hk, -⟩ | ⟨block, hopens, hscope, rfl⟩ | ⟨block, hcloses, hstack⟩ :=
    turn_cases h
  · exact ⟨settleTop places, move_plain places hk, by simp⟩
  · rw [hmark] at hk
    exact absurd hk (by decide)
  · exact ⟨Place.start block :: settleTop places, move_open places hopens hscope, by simp⟩
  · cases places with
    | nil => simp at hstack
    | cons p outer =>
      simp only [map_cons, cons.injEq] at hstack
      exact ⟨outer, move_close outer (by rw [hcloses, hstack.1]), hstack.2⟩

/-! ### Marks that are direct parts of their `si` -/

/-- A mark after some statements is a direct part of a `si` before it:
`entonces` stands right after the `si`, and before `sino` there is only the
first branch. -/
def MarkPlaced (before : List Statement) (k : Kind) : Prop :=
  ∃ (outer : List Statement) (head : StatementOf .ifTest) (part : List Statement),
    before = outer ++ head.1 :: part ∧
      (k = .thenBranch ∧ part = [] ∨
        k = .elseBranch ∧ ∃ (mark : Option (StatementOf .thenBranch)) (yes : Body),
          part = Body.markStatements mark ++ yes.statements)

def MarksPlaced (body : List Statement) : Prop :=
  ∀ before m after, body = before ++ m :: after → m.kind.isMark = true → MarkPlaced before m.kind

theorem MarkPlaced.move (hm : MarkPlaced before k) (h : placesAfter [] before = some places) :
    ∃ places', k.move places = some places' ∧
      places'.map Place.block = places.map Place.block := by
  obtain ⟨outer, head, part, rfl, hk⟩ := hm
  have hhead : head.1.kind.opens? = some .ifTest := by rw [head.2]; rfl
  rw [placesAfter_append, Option.bind_eq_some_iff] at h
  obtain ⟨around, -, h⟩ := h
  rw [placesAfter_cons, move_open around hhead rfl] at h
  obtain ⟨rfl, rfl⟩ | ⟨rfl, mark, yes, rfl⟩ := hk
  · cases h
    exact ⟨.yes :: settleTop around, rfl, rfl⟩
  · obtain ⟨p, hp, hyes⟩ := placesAfter_yes mark (settleTop around) (placesAfter_statements yes)
    obtain rfl := Option.some.inj (hyes.symm.trans h)
    refine ⟨.no :: settleTop around, ?_, ?_⟩ <;> obtain rfl | rfl := hp <;> rfl

theorem exists_placesAfter (hbefore : placesAfter [] before = some places)
    (h : openAfter (places.map Place.block) xs = some stack) (hmarks : MarksPlaced (before ++ xs)) :
    ∃ places', placesAfter [] (before ++ xs) = some places' ∧
      places'.map Place.block = stack := by
  induction xs generalizing before places with
  | nil =>
    rw [append_nil]
    exact ⟨places, hbefore, Option.some.inj h⟩
  | cons s rest ih =>
    obtain ⟨stack', hturn, hrest⟩ := Option.bind_eq_some_iff.mp h
    have hmove : ∃ places', s.kind.move places = some places' ∧
        places'.map Place.block = stack' := by
      cases hm : s.kind.isMark with
      | true =>
        rw [(turn_of_isMark hm hturn).2]
        exact (hmarks before s rest rfl hm).move hbefore
      | false => exact move_of_turn hm hturn
    obtain ⟨places', hplaces, rfl⟩ := hmove
    have hstep : placesAfter [] (before ++ [s]) = some places' := by
      rw [placesAfter_append, hbefore, Option.bind_some, placesAfter_cons, hplaces]
      rfl
    rw [append_cons] at hmarks ⊢
    exact ih hstep hrest hmarks

theorem wellNested_of_openAfter (h : openAfter [] xs = some [])
    (hmarks : MarksPlaced xs) : WellNested xs := by
  have hstart : placesAfter [] [] = some [] := rfl
  obtain ⟨places, hplaces, hnil⟩ := exists_placesAfter hstart h hmarks
  obtain rfl := map_eq_nil_iff.mp hnil
  exact (wellNested_iff xs).mpr hplaces

theorem wellNested_filter_of_openAfter (h : openAfter [] xs = some []) :
    WellNested (xs.filter fun s => !s.kind.isMark) := by
  refine wellNested_of_openAfter (openAfter_filter h) ?_
  intro before m after hsplit hm
  have hmem : m ∈ xs.filter fun s => !s.kind.isMark := by
    rw [hsplit]
    simp
  simp [hm] at hmem

theorem count_ifTest_openAfter (h : openAfter stack xs = some stack') :
    stack.count .ifTest + xs.countP (·.kind = .ifTest) =
      stack'.count .ifTest + xs.countP (·.kind = .endIf) := by
  induction xs generalizing stack with
  | nil =>
    cases h
    rfl
  | cons s rest ih =>
    obtain ⟨middle, hturn, hrest⟩ := Option.bind_eq_some_iff.mp h
    have hcount := ih hrest
    have hstep : stack.count .ifTest + [s].countP (·.kind = .ifTest) =
        middle.count .ifTest + [s].countP (·.kind = .endIf) := by
      obtain ⟨hk, rfl⟩ | ⟨hk, -, rfl⟩ | ⟨block, hk, -, rfl⟩ | ⟨block, hk, rfl⟩ :=
        turn_cases hturn
      · cases hkind : s.kind <;> simp_all [isPlain]
      · cases hkind : s.kind <;> simp_all [isMark]
      · cases hkind : s.kind <;> rw [hkind] at hk <;> cases hk <;> simp [hkind]
      · cases hkind : s.kind <;> rw [hkind] at hk <;> cases hk <;> simp [hkind]
    have hcons : ∀ p : Statement → Bool, (s :: rest).countP p = [s].countP p + rest.countP p := by
      intro p
      rw [← countP_append, singleton_append]
    rw [hcons, hcons]
    omega

theorem countP_lt_of_openAfter {after : List Statement} {m : Statement}
    (h : openAfter [] xs = some stack) (hsplit : xs = before ++ m :: after)
    (hm : m.kind.isMark = true) :
    before.countP (·.kind = .endIf) < before.countP (·.kind = .ifTest) := by
  rw [hsplit, openAfter_append, Option.bind_eq_some_iff] at h
  obtain ⟨around, hbefore, hrest⟩ := h
  obtain ⟨_, hturn, -⟩ := Option.bind_eq_some_iff.mp hrest
  have hif := (turn_of_isMark hm hturn).1
  have hpos := count_pos_iff.mpr hif
  have hcount := count_ifTest_openAfter hbefore
  rw [count_nil] at hcount
  omega

end Pseudocode
