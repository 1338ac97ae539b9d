import Pseudocode.Program.Lines
import Pseudocode.Text.Blank

/-!
# The lines of a text that was joined from lines

* `cutAt_join`, `join_cutAt`: cutting a text at line feeds undoes joining
  lines by them, and the other way round.
* `SourceLine.ofText_join`: the source lines of such a text are the lines
  with their numbers and offsets.
* `trim_append_of_blank`, `SourceLine.leading_append`: a trimmed line is
  found again behind a run of tabs and spaces, and so is the run.
-/

namespace Pseudocode

open List

variable {t : Text} {c : Char} {parts : List Text}

namespace Text

variable {p : Char → Bool}

/-! ### Cutting and joining -/

theorem cutAt_of_forall_not (h : ∀ c ∈ t, p c = false) : cutAt p t = [t] := by
  induction t with
  | nil => rfl
  | cons c t ih =>
    rw [forall_mem_cons] at h
    simp [cutAt, h.1, ih h.2]

theorem cutAt_append_cons {rest : Text} (h : ∀ c ∈ t, p c = false) (hc : p c = true) :
    cutAt p (t ++ c :: rest) = t :: cutAt p rest := by
  induction t with
  | nil => simp [cutAt, hc]
  | cons a t ih =>
    rw [forall_mem_cons] at h
    simp [cutAt, h.1, ih h.2]

theorem join_cons_cons (part next : Text) (parts : List Text) :
    join "\n" (part :: next :: parts) = part ++ '\n' :: join "\n" (next :: parts) := by
  simp [join]

theorem cutAt_join (hne : parts ≠ []) (h : ∀ t ∈ parts, '\n' ∉ t) :
    cutAt (· == '\n') (join "\n" parts) = parts := by
  have hno : ∀ t : Text, '\n' ∉ t → ∀ c ∈ t, (c == '\n') = false := by
    intro t ht c hc
    exact beq_false_of_ne fun he => ht (he ▸ hc)
  induction parts with
  | nil => exact absurd rfl hne
  | cons t rest ih =>
    rw [forall_mem_cons] at h
    cases rest with
    | nil =>
      have hjoin : join "\n" [t] = t := by simp [join]
      rw [hjoin, cutAt_of_forall_not (hno t h.1)]
    | cons u rest => rw [join_cons_cons, cutAt_append_cons (hno t h.1) rfl, ih (by simp) h.2]

theorem exists_cutAt (p : Char → Bool) (t : Text) : ∃ part parts, cutAt p t = part :: parts := by
  refine exists_cons_of_ne_nil ?_
  cases t with
  | nil => simp [cutAt]
  | cons =>
    rw [cutAt]
    split
    · simp
    · split <;> simp

theorem cutAt_cons_of_not {part : Text} (hc : p c = false) (h : cutAt p t = part :: parts) :
    cutAt p (c :: t) = (c :: part) :: parts := by
  rw [cutAt, if_neg (by simp [hc]), h]

theorem join_cutAt (t : Text) : join "\n" (cutAt (· == '\n') t) = t := by
  induction t with
  | nil => rfl
  | cons c t ih =>
    obtain ⟨part, parts, hparts⟩ := exists_cutAt (· == '\n') t
    rw [hparts] at ih
    by_cases hc : c = '\n'
    · rw [cutAt, if_pos (by simp [hc]), hparts, join_cons_cons, ih, hc]
      rfl
    · rw [cutAt_cons_of_not (by simpa using hc) hparts, ← ih]
      cases parts <;> simp [join]

/-! ### Trimmed texts -/

theorem isBlank_head_of_trim_eq {rest : Text} (h : trim t = c :: rest) : isBlank c = false := by
  obtain ⟨back, hback⟩ : trim t <+: t.dropWhile isBlank := by
    have hsuffix := dropWhile_suffix isBlank (l := (trimStart isBlank t).reverse)
    rwa [← reverse_prefix, reverse_reverse] at hsuffix
  have hnot := head?_dropWhile_not isBlank t
  rwa [← hback, h] at hnot

theorem isBlank_last_of_trim_eq {front : Text} (h : trim t = front ++ [c]) :
    isBlank c = false := by
  have hnot := head?_dropWhile_not isBlank (trimStart isBlank t).reverse
  rw [trim, trimEnd, reverse_eq_append_iff] at h
  rwa [h] at hnot

theorem trim_append_of_blank {lead : Text} (h : ∀ c ∈ lead, isBlank c = true) :
    trim (lead ++ t) = trim t := by
  rw [trim, trimStart, dropWhile_append_of_pos h]
  rfl

end Text

namespace SourceLine

open Text

/-- Lines with their numbers and offsets, from a number and an offset
on. -/
def linesFrom (number start : Nat) : List Text → List SourceLine
  | [] => []
  | t :: rest => ⟨number, start, t⟩ :: linesFrom (number + 1) (start + t.length + 1) rest

theorem numbers_fromParts (parts : List Text) (number start : Nat) :
    (fromParts number start parts).map SourceLine.number =
      range' number (fromParts number start parts).length := by
  induction parts generalizing number start with
  | nil => rfl
  | cons raw rest ih =>
    cases rest with
    | nil => rfl
    | cons => simp [fromParts, range'_succ, ih]

theorem numbers_ofText (t : Text) :
    (ofText t).map number = range' 1 (ofText t).length :=
  numbers_fromParts _ 1 0

theorem fromParts_eq (h : ∀ t ∈ parts, t.getLast? ≠ some '\r')
    (number start : Nat) : fromParts number start parts = linesFrom number start parts := by
  induction parts generalizing number start with
  | nil => rfl
  | cons t rest ih =>
    rw [forall_mem_cons] at h
    cases rest with
    | nil => rfl
    | cons =>
      rw [fromParts, ih h.2, dropReturn, if_neg h.1]
      rfl

theorem ofText_join (hne : parts ≠ []) (hline : ∀ t ∈ parts, '\n' ∉ t)
    (hreturn : ∀ t ∈ parts, t.getLast? ≠ some '\r') :
    ofText (join "\n" parts) = linesFrom 1 0 parts := by
  rw [ofText, cutAt_join hne hline, fromParts_eq hreturn]

theorem leading_append {lead : Text} (hlead : ∀ c ∈ lead, c = '\t' ∨ c = ' ')
    (hc : isBlank c = false) (number start : Nat) :
    (⟨number, start, lead ++ c :: t⟩ : SourceLine).leading = lead := by
  have htab : (c == '\t' || c == ' ') = false := by
    rw [Bool.or_eq_false_iff]
    constructor <;> refine beq_false_of_ne ?_ <;> rintro rfl <;> simp [isBlank, isGap] at hc
  have hall : ∀ a ∈ lead, (a == '\t' || a == ' ') = true := by
    intro a ha
    simpa using hlead a ha
  rw [leading, takeWhile_append_of_pos hall, takeWhile_cons, htab]
  simp

end SourceLine

end Pseudocode
