import Pseudocode.Proofs.Nesting

/-!
# Deciding whether a body is nested

A list of statements is the flat list of a nested body if one pass over it
ends well. The pass keeps where it stands in each open block, innermost
first: a `si` is in a different place directly after its head, in its
first branch and in its second, because the marks can stand in some of
these places only.

* `Kind.move`, `placesAfter`: one statement, and a list of them.
* `closes_of_placesAfter`: a list that ends outside every block closes the
  blocks that were open before it. The proof is by induction on the list,
  for all places at once.
* `placesAfter_statements`: a nested body leaves the places as they are.
* `wellNested_iff`: the two together. `WellNested` is decidable by it.
-/

namespace Pseudocode

open List Kind Body

/-- The statement marks the start of a branch. -/
def Kind.isMark : Kind → Bool
  | .thenBranch | .elseBranch => true
  | _ => false


/-! ### Places in open blocks -/

inductive Place where
  | loop (block : Block)
  /-- Directly after a `si`. -/
  | head
  | yes
  /-- In the second branch of a `si`. -/
  | no
deriving DecidableEq, Repr

namespace Place

def block : Place → Block
  | .loop block => block
  | _ => .ifTest

def start : Block → Place
  | .ifTest => .head
  | block => .loop block

/-- The place after a statement that is no mark. -/
def settle : Place → Place
  | .head => .yes
  | p => p

/-- The places after a statement that is no mark. -/
def settleTop : List Place → List Place
  | [] => []
  | p :: outer => p.settle :: outer

@[simp] theorem block_start (b : Block) : (start b).block = b := by
  cases b <;> rfl

@[simp] theorem block_settle (p : Place) : p.settle.block = p.block := by
  cases p <;> rfl

@[simp] theorem map_block_settleTop (places : List Place) :
    (settleTop places).map block = places.map block := by
  cases places <;> simp [settleTop]

@[simp] theorem settleTop_settleTop (places : List Place) :
    settleTop (settleTop places) = settleTop places := by
  cases places with
  | nil => rfl
  | cons p => cases p <;> rfl

end Place

open Place (settleTop)

/-- The places after a statement of a kind in a nested body, or nothing if
the statement cannot stand there. A mark has to be a direct part of its
`si`: `entonces` right after it, and one `sino` at most. -/
def Kind.move (places : List Place) (k : Kind) : Option (List Place) :=
  match k, places with
  | .thenBranch, .head :: outer => some (.yes :: outer)
  | .elseBranch, .head :: outer => some (.no :: outer)
  | .elseBranch, .yes :: outer => some (.no :: outer)
  | k, places =>
    if k.isMark ∨ k = .program ∨ k = .endScope then none
    else match k.opens?, k.closes? with
      | some block, _ =>
        if block.isScope then none else some (Place.start block :: settleTop places)
      | none, some block =>
        if (places.head?.map Place.block) = some block then some places.tail else none
      | none, none => some (settleTop places)

def placesAfter (places : List Place) (body : List Statement) : Option (List Place) :=
  body.foldlM (fun places s => s.kind.move places) places

theorem placesAfter_cons (places : List Place) (s : Statement) (rest : List Statement) :
    placesAfter places (s :: rest) =
      (s.kind.move places).bind fun places => placesAfter places rest :=
  foldlM_cons

theorem placesAfter_append (places : List Place) (xs ys : List Statement) :
    placesAfter places (xs ++ ys) =
      (placesAfter places xs).bind fun places => placesAfter places ys :=
  foldlM_append

theorem Kind.move_cases {k : Kind} {places places' : List Place}
    (h : k.move places = some places') :
    (k = .thenBranch ∧ ∃ outer, places = .head :: outer ∧ places' = .yes :: outer) ∨
    (k = .elseBranch ∧ ∃ p outer, (p = .head ∨ p = .yes) ∧ places = p :: outer ∧
      places' = .no :: outer) ∨ ((k.isPlain = true ∨ k = .comment) ∧ places' = settleTop places) ∨
    (∃ b, k.opens? = some b ∧ b.isScope = false ∧ places' = Place.start b :: settleTop places) ∨
    ∃ b p, k.closes? = some b ∧ p.block = b ∧ places = p :: places' := by
  unfold move at h
  split at h
  · exact .inl ⟨rfl, _, rfl, (Option.some.inj h).symm⟩
  · exact .inr (.inl ⟨rfl, _, _, .inl rfl, rfl, (Option.some.inj h).symm⟩)
  · exact .inr (.inl ⟨rfl, _, _, .inr rfl, rfl, (Option.some.inj h).symm⟩)
  · refine .inr (.inr ?_)
    split at h
    · exact absurd h (by simp)
    · next hkind =>
      split at h
      · next block hopens =>
        cases hb : block.isScope with
        | true => simp [hb] at h
        | false =>
          simp only [hb, Bool.false_eq_true, if_false, Option.some.injEq] at h
          exact .inr (.inl ⟨block, hopens, hb, h.symm⟩)
      · next block hopens hcloses =>
        cases places with
        | nil => simp at h
        | cons p =>
          by_cases hp : p.block = block
          · simp only [head?_cons, Option.map_some, hp, if_true, tail_cons, Option.some.injEq] at h
            exact .inr (.inr ⟨block, p, hcloses, hp, by rw [h]⟩)
          · simp [hp] at h
      · next hopens hcloses =>
        refine .inl ⟨?_, (Option.some.inj h).symm⟩
        cases k <;> simp_all [opens?, closes?, isMark, isPlain]

theorem Kind.move_plain {k : Kind} (places : List Place) (h : k.isPlain = true ∨ k = .comment) :
    k.move places = some (settleTop places) := by
  obtain h | rfl := h
  · cases k <;> first | rfl | exact absurd h (by decide)
  · rfl

theorem Kind.move_open {k : Kind} {block : Block} (places : List Place)
    (h : k.opens? = some block) (hb : block.isScope = false) :
    k.move places = some (Place.start block :: settleTop places) := by
  cases k <;> cases h <;> first | rfl | exact absurd hb (by decide)

theorem Kind.move_close {k : Kind} {place : Place} (outer : List Place)
    (h : k.closes? = some place.block) : k.move (place :: outer) = some outer := by
  cases k <;> simp only [closes?, reduceCtorEq] at h <;>
    simp [move, isMark, opens?, closes?, ← h]

/-! ### From places to nested bodies -/

/-- The branches of a `si` after its mark. -/
def Branches (xs : List Statement) : Prop :=
  WellNested xs ∨ ∃ (yes : Body) (middle : StatementOf .elseBranch) (no : Body),
    xs = yes.statements ++ middle.1 :: no.statements

/-- What may stand from a place up to the statement that closes its
block. -/
def Place.Continues : Place → List Statement → Prop
  | .loop _, xs => WellNested xs
  | .no, xs => WellNested xs
  | .yes, xs => Branches xs
  | .head, xs => ∃ (mark : Option (StatementOf .thenBranch)) (rest : List Statement),
      xs = Body.markStatements mark ++ rest ∧ Branches rest

/-- The rest of a body in which blocks are open, the innermost first: each
is closed in turn. -/
def Closes : List Place → List Statement → Prop
  | [], xs => WellNested xs
  | place :: outer, xs => ∃ (part : List Statement) (tail : Statement) (rest : List Statement),
      xs = part ++ tail :: rest ∧ place.Continues part ∧
        tail.kind.closes? = some place.block ∧ Closes outer rest

section Prepend

variable {front : List Statement} {f : Body → Body}

theorem WellNested.prepend {xs : List Statement}
    (hf : ∀ b, (f b).statements = front ++ b.statements)
    (h : WellNested xs) : WellNested (front ++ xs) := by
  obtain ⟨b, rfl⟩ := h
  exact ⟨f b, hf b⟩

theorem Place.Continues.prepend {place : Place} {xs : List Statement}
    (hf : ∀ b, (f b).statements = front ++ b.statements) (h : place.settle.Continues xs) :
    place.Continues (front ++ xs) := by
  have hyes : Branches xs → Branches (front ++ xs) := by
    rintro (h | ⟨yes, middle, no, rfl⟩)
    · exact .inl (h.prepend hf)
    · exact .inr ⟨f yes, middle, no, by rw [hf, append_assoc]⟩
  cases place with
  | loop | no => exact WellNested.prepend hf h
  | yes => exact hyes h
  | head => exact ⟨none, front ++ xs, rfl, hyes h⟩

theorem Closes.prepend {places : List Place} {xs : List Statement}
    (hf : ∀ b, (f b).statements = front ++ b.statements) (h : Closes (settleTop places) xs) :
    Closes places (front ++ xs) := by
  cases places with
  | nil => exact WellNested.prepend hf h
  | cons =>
    obtain ⟨part, tail, rest, rfl, hpart, htail, houter⟩ := h
    refine ⟨front ++ part, tail, rest, (append_assoc ..).symm, hpart.prepend hf, ?_, houter⟩
    rw [htail, Place.block_settle]

end Prepend

theorem exists_block_body {head tail : Statement} {block : Block} {part : List Statement}
    (hhead : head.kind.opens? = some block) (hpart : (Place.start block).Continues part)
    (htail : tail.kind.closes? = some block) :
    ∃ f : Body → Body, ∀ b, (f b).statements = (head :: (part ++ [tail])) ++ b.statements := by
  -- A block with a closing statement has one kind of head and one of tail.
  cases hk : head.kind <;> rw [hk] at hhead <;> cases hhead <;>
    cases hk' : tail.kind <;> rw [hk'] at htail <;> cases htail
  case whileLoop.refl.endWhile.refl =>
    obtain ⟨inner, rfl⟩ := hpart
    exact ⟨.pretest false ⟨head, hk⟩ inner ⟨tail, hk'⟩, fun b => by simp [statements]⟩
  case forLoop.refl.endFor.refl =>
    obtain ⟨inner, rfl⟩ := hpart
    exact ⟨.pretest true ⟨head, hk⟩ inner ⟨tail, hk'⟩, fun b => by simp [statements]⟩
  case repeatLoop.refl.untilTest.refl =>
    obtain ⟨inner, rfl⟩ := hpart
    exact ⟨.posttest ⟨head, hk⟩ inner ⟨tail, hk'⟩, fun b => by simp [statements]⟩
  case ifTest.refl.endIf.refl =>
    obtain ⟨mark, rest, rfl, ⟨yes, rfl⟩ | ⟨yes, middle, no, rfl⟩⟩ := hpart
    · exact ⟨.choice ⟨head, hk⟩ mark yes ⟨tail, hk'⟩, fun b => by simp [statements]⟩
    · exact ⟨.choiceElse ⟨head, hk⟩ mark yes middle no ⟨tail, hk'⟩, fun b => by simp [statements]⟩

theorem Place.continues_nil (place : Place) : place.Continues [] := by
  cases place with
  | loop | no => exact ⟨.nil, rfl⟩
  | yes => exact .inl ⟨.nil, rfl⟩
  | head => exact ⟨none, [], rfl, .inl ⟨.nil, rfl⟩⟩

theorem closes_of_placesAfter {places : List Place} {xs : List Statement}
    (h : placesAfter places xs = some []) : Closes places xs := by
  induction xs generalizing places with
  | nil =>
    obtain rfl : places = [] := Option.some.inj h
    exact ⟨.nil, rfl⟩
  | cons s rest ih =>
    obtain ⟨places', hmove, hrest⟩ := Option.bind_eq_some_iff.mp h
    have hcloses := ih hrest
    obtain ⟨hk, outer, rfl, rfl⟩ | ⟨hk, p, outer, hp, rfl, rfl⟩ | ⟨hk, rfl⟩ |
      ⟨block, hopens, hscope, rfl⟩ | ⟨block, p, hc, rfl, rfl⟩ := move_cases hmove
    · -- The mark `entonces` belongs to the `si` before it.
      obtain ⟨part, tail, rest', rfl, hpart, htail, houter⟩ := hcloses
      exact ⟨s :: part, tail, rest', rfl, ⟨some ⟨s, hk⟩, part, rfl, hpart⟩, htail, houter⟩
    · -- The first branch ends before `sino`, and is empty here.
      obtain ⟨part, tail, rest', rfl, ⟨no, rfl⟩, htail, houter⟩ := hcloses
      have hyes : Branches (s :: no.statements) :=
        .inr ⟨.nil, ⟨s, hk⟩, no, rfl⟩
      refine ⟨s :: no.statements, tail, rest', rfl, ?_, ?_, houter⟩
      · obtain rfl | rfl := hp
        · exact ⟨none, _, rfl, hyes⟩
        · exact hyes
      · obtain rfl | rfl := hp <;> exact htail
    · obtain hk | hk := hk
      · exact Closes.prepend (f := .plain ⟨s, hk⟩) (fun b => (rfl : _ = [s] ++ _)) hcloses
      · exact Closes.prepend (f := .comment ⟨s, hk⟩) (fun b => (rfl : _ = [s] ++ _)) hcloses
    · obtain ⟨part, tail, rest', rfl, hpart, htail, houter⟩ := hcloses
      rw [Place.block_start] at htail
      obtain ⟨f, hf⟩ := exists_block_body hopens hpart htail
      have hblock := houter.prepend hf
      simpa using hblock
    · exact ⟨[], s, rest, rfl, p.continues_nil, hc, hcloses⟩

/-! ### From nested bodies to places -/

theorem placesAfter_block {head tail : Statement} {block : Block} {part : List Statement}
    {p : Place} (rest : List Statement) (places : List Place)
    (hhead : head.kind.opens? = some block) (hscope : block.isScope = false)
    (hpart : placesAfter (Place.start block :: settleTop places) part =
      some (p :: settleTop places)) (htail : tail.kind.closes? = some p.block) :
    placesAfter places (head :: (part ++ tail :: rest)) = placesAfter (settleTop places) rest := by
  rw [placesAfter_cons, move_open places hhead hscope, Option.bind_some, placesAfter_append,
    hpart, Option.bind_some, placesAfter_cons, move_close _ htail, Option.bind_some]

theorem placesAfter_mark (mark : Option (StatementOf .thenBranch)) (outer : List Place) :
    ∃ p, (p = .head ∨ p = .yes) ∧
      placesAfter (.head :: outer) (markStatements mark) = some (p :: outer) := by
  cases mark with
  | none => exact ⟨.head, .inl rfl, rfl⟩
  | some m =>
    refine ⟨.yes, .inr rfl, ?_⟩
    show placesAfter (.head :: outer) [m.1] = _
    rw [placesAfter_cons, m.2]
    rfl

theorem placesAfter_yes {yes : List Statement} (mark : Option (StatementOf .thenBranch))
    (outer : List Place) (hyes : ∀ places, placesAfter places yes = some places ∨
      placesAfter places yes = some (settleTop places)) :
    ∃ p, (p = .head ∨ p = .yes) ∧
      placesAfter (.head :: outer) (markStatements mark ++ yes) = some (p :: outer) := by
  obtain ⟨p, hp, hmark⟩ := placesAfter_mark mark outer
  rw [placesAfter_append, hmark]
  obtain h | h := hyes (p :: outer)
  · exact ⟨p, hp, h⟩
  · refine ⟨.yes, .inr rfl, h.trans ?_⟩
    obtain rfl | rfl := hp <;> rfl

theorem placesAfter_statements (b : Body) (places : List Place) :
    placesAfter places b.statements = some places ∨
      placesAfter places b.statements = some (settleTop places) := by
  -- After its first statement or block the rest of a body starts from settled places.
  have hrest {xs rest : List Statement} {places : List Place}
      (ih : ∀ places, placesAfter places rest = some places ∨
        placesAfter places rest = some (settleTop places))
      (hxs : placesAfter places xs = placesAfter (settleTop places) rest) :
      placesAfter places xs = some places ∨ placesAfter places xs = some (settleTop places) := by
    have h := ih (settleTop places)
    rw [Place.settleTop_settleTop, or_self] at h
    exact .inr (hxs.trans h)
  induction b generalizing places with
  | nil => exact .inl rfl
  | comment s rest ih =>
    refine hrest ih ?_
    rw [statements, placesAfter_cons, move_plain places (.inr s.2), Option.bind_some]
  | plain s rest ih =>
    refine hrest ih ?_
    rw [statements, placesAfter_cons, move_plain places (.inl s.2), Option.bind_some]
  | pretest counted head body tail rest ihBody ihRest =>
    obtain ⟨block, hopens, hscope, hstart, hcloses⟩ : ∃ block,
        head.1.kind.opens? = some block ∧ block.isScope = false ∧
          Place.start block = .loop block ∧ tail.1.kind.closes? = some block := by
      rw [head.2, tail.2]
      cases counted <;> exact ⟨_, rfl, rfl, rfl, rfl⟩
    refine hrest ihRest
      (placesAfter_block _ places (p := .loop block) hopens hscope ?_ hcloses)
    rw [hstart]
    exact (or_self _).mp (ihBody (.loop block :: settleTop places))
  | posttest head body test rest ihBody ihRest =>
    have hopens : head.1.kind.opens? = some .repeatLoop := by rw [head.2]; rfl
    have hcloses : test.1.kind.closes? = some .repeatLoop := by rw [test.2]; rfl
    refine hrest ihRest
      (placesAfter_block _ places (p := .loop .repeatLoop) hopens rfl ?_ hcloses)
    exact (or_self _).mp (ihBody (.loop .repeatLoop :: settleTop places))
  | choice head mark yes tail rest ihYes ihRest =>
    obtain ⟨p, hp, hyes⟩ := placesAfter_yes mark (settleTop places) ihYes
    have hcloses : tail.1.kind.closes? = some p.block := by
      rw [tail.2]
      obtain rfl | rfl := hp <;> rfl
    have hhead : head.1.kind.opens? = some .ifTest := by rw [head.2]; rfl
    refine hrest ihRest ?_
    rw [statements, ← append_assoc]
    exact placesAfter_block _ places hhead rfl hyes hcloses
  | choiceElse head mark yes middle no tail rest ihYes ihNo ihRest =>
    obtain ⟨p, hp, hyes⟩ := placesAfter_yes mark (settleTop places) ihYes
    have hhead : head.1.kind.opens? = some .ifTest := by rw [head.2]; rfl
    have hmiddle : middle.1.kind.move (p :: settleTop places) = some (.no :: settleTop places) := by
      rw [middle.2]
      obtain rfl | rfl := hp <;> rfl
    have hno := (or_self _).mp (ihNo (.no :: settleTop places))
    have hpart : placesAfter (.head :: settleTop places)
        (markStatements mark ++ yes.statements ++ middle.1 :: no.statements) =
          some (.no :: settleTop places) := by
      rw [placesAfter_append, hyes, Option.bind_some, placesAfter_cons, hmiddle, Option.bind_some,
        hno]
    have hcloses : tail.1.kind.closes? = some Place.no.block := by rw [tail.2]; rfl
    refine hrest ihRest ?_
    have hsplit := placesAfter_block rest.statements places hhead rfl hpart hcloses
    simpa [statements] using hsplit

theorem wellNested_iff (xs : List Statement) : WellNested xs ↔ placesAfter [] xs = some [] := by
  constructor
  · rintro ⟨b, rfl⟩
    exact (or_self _).mp (placesAfter_statements b [])
  · exact fun h => closes_of_placesAfter h

instance (xs : List Statement) : Decidable (WellNested xs) :=
  decidable_of_iff' _ (wellNested_iff xs)

end Pseudocode
