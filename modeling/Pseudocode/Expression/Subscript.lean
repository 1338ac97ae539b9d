import Pseudocode.Text.Identifier
import Pseudocode.Text.Digits
import Pseudocode.Expression.Literal

/-!
# From 1-based to 0-based subscripts

Pseudocode counts array cells from one, both targets count from zero.
`shift` lowers every `name[index]` of an expression text: the subscripts
inside the index first and then the index itself, a numeral by arithmetic
and anything else by appending `- 1`. Literals are copied as they are.
-/

namespace Pseudocode.Expression

open Text

inductive IndexFault where
  | separator (index : Text)
  /-- A numeral of more digits than are read. -/
  | tooLong (digits : Nat)
deriving DecidableEq, Repr

def lowerIndex (index : Text) : Except IndexFault Text :=
  let core := trim index
  if isNumeral core then
    if trimGap index ≠ core then .error (.separator index)
    else if core.length > digitLimit then .error (.tooLong core.length)
    else .ok (ofInt (numeralValue core - 1))
  else .ok ("(" ++ core ++ ") - 1")

/-- The number of open brackets after one more character; brackets
inside literals do not count. -/
def bracketDepth (mode : Mode) (depth : Nat) (c : Char) : Nat :=
  if mode = .plain then
    if c = '[' then depth + 1 else if c = ']' then depth - 1 else depth
  else depth

/-- The text up to the bracket that closes one already open and the
text after that bracket. `depth` is the number of further brackets
open. -/
def splitBracket? (mode : Mode) (depth : Nat) : Text → Option (Text × Text)
  | [] => none
  | c :: t =>
    if mode = .plain ∧ c = ']' ∧ depth = 0 then some ([], t)
    else (splitBracket? (mode.next c) (bracketDepth mode depth c) t).map fun p => (c :: p.1, p.2)

/-- The inside of a bracket and the text after it lie within the text
that the bracket opens. -/
theorem length_splitBracket? {mode : Mode} {depth : Nat} {t inner rest : Text}
    (h : splitBracket? mode depth t = some (inner, rest)) :
    inner.length + rest.length < t.length := by
  induction t generalizing mode depth inner with
  | nil => simp [splitBracket?] at h
  | cons c t ih =>
    rw [splitBracket?] at h
    split at h
    · simp only [Option.some.injEq, Prod.mk.injEq] at h
      obtain ⟨rfl, rfl⟩ := h
      simp
    · obtain ⟨⟨a, b⟩, hab, heq⟩ := Option.map_eq_some_iff.1 h
      simp only [Prod.mk.injEq] at heq
      obtain ⟨rfl, rfl⟩ := heq
      have := ih hab
      simp only [List.length_cons]
      omega

/-- The index and the rest of a text that starts, blanks apart, with a
bracket that is closed and not blank inside. -/
def subscript? (t : Text) : Option (Text × Text) :=
  match t.dropWhile isBlank with
  | '[' :: t =>
    match splitBracket? .plain 0 t with
    | some (index, rest) => if isBlankText index then none else some (index, rest)
    | none => none
  | _ => none

theorem length_dropWhile_le (p : Char → Bool) (t : Text) : (t.dropWhile p).length ≤ t.length :=
  (List.dropWhile_sublist p).length_le

theorem length_subscript? {t index rest : Text} (h : subscript? t = some (index, rest)) :
    index.length + rest.length < t.length := by
  unfold subscript? at h
  split at h
  · next u hu =>
    split at h
    · next index' rest' hs =>
      split at h
      · simp at h
      · simp only [Option.some.injEq, Prod.mk.injEq] at h
        obtain ⟨rfl, rfl⟩ := h
        have h1 := length_splitBracket? hs
        have h2 := length_dropWhile_le isBlank t
        rw [hu] at h2
        simp only [List.length_cons] at h2
        omega
    · simp at h
  · simp at h

/-- The expression with every subscript counted from zero, at every
depth. A name is taken as long as possible; blanks between a name and
its bracket are dropped. -/
def shift : Text → Except IndexFault Text
  | [] => .ok []
  | c :: t =>
    if c = '"' then do
      let rest ← shift (splitLiteral .quoted t).2
      return c :: (splitLiteral .quoted t).1 ++ rest
    else if isNameStart c then
      match _h : subscript? (t.dropWhile isNameChar) with
      | some (index, after) => do
        let index ← lowerIndex (← shift index)
        let rest ← shift after
        return c :: t.takeWhile isNameChar ++ "[" ++ index ++ "]" ++ rest
      | none => do
        let rest ← shift (t.dropWhile isNameChar)
        return c :: t.takeWhile isNameChar ++ rest
    else do
      let rest ← shift t
      return c :: rest
termination_by t => t.length
decreasing_by
  · have := length_splitLiteral_snd .quoted t
    simp only [List.length_cons]
    omega
  · have h1 := length_subscript? _h
    have h2 := length_dropWhile_le isNameChar t
    simp only [List.length_cons]
    omega
  · have h1 := length_subscript? _h
    have h2 := length_dropWhile_le isNameChar t
    simp only [List.length_cons]
    omega
  · have h2 := length_dropWhile_le isNameChar t
    simp only [List.length_cons]
    omega
  · simp

def shiftCell (name index : Text) : Except IndexFault Text := do
  return name ++ "[" ++ (← lowerIndex (← shift index)) ++ "]"

end Pseudocode.Expression
