import Mathlib.Data.List.Forall2
import Pseudocode.Proofs.Origins

/-!
# Comments between two marks

Whatever stands behind the first `*/` of a comment is no comment any more. The
text of a comment is therefore pulled apart wherever it has that mark, and a
space keeps it from forming one with the marks around it.

* `EndsAtMark`: the first closing mark of a text is at its end.
* `endsAtMark_pullApart`: so it is for every text that was pulled apart and
  then closed.
-/

namespace Pseudocode

open List Text

/-- A closing mark stands at the end of the text and nowhere before. -/
def EndsAtMark (t : Text) : Prop :=
  (∃ inside, t = inside ++ "*/") ∧
    ∀ before after : Text, t = before ++ '*' :: '/' :: after → after = []

namespace EndsAtMark

variable {c : Char} {t : Text}

theorem mark : EndsAtMark "*/" := by
  refine ⟨⟨[], rfl⟩, fun before after h => ?_⟩
  have hlength := congrArg List.length h
  simp only [String.reduceToList, length_append, length_cons, length_nil] at hlength
  exact length_eq_zero_iff.1 (by omega)

/-- One more character in front makes no mark with what follows it. -/
theorem cons (h : EndsAtMark t) (hc : c = '*' → t.head? ≠ some '/') : EndsAtMark (c :: t) := by
  obtain ⟨⟨inside, hinside⟩, hfirst⟩ := h
  refine ⟨⟨c :: inside, by rw [hinside, cons_append]⟩, fun before after heq => ?_⟩
  cases before with
  | nil =>
    obtain ⟨rfl, rfl⟩ := List.cons.inj heq
    exact absurd rfl (hc rfl)
  | cons b before => exact hfirst before after (List.cons.inj heq).2

end EndsAtMark

namespace CommentStyle

theorem head?_pullApart (t : Text) : (pullApart t).head? = t.head? := by
  fun_cases pullApart t <;> rfl

theorem endsAtMark_pullApart (t : Text) : EndsAtMark (pullApart t ++ " */") := by
  have hclosed : EndsAtMark " */" := EndsAtMark.mark.cons nofun
  fun_induction pullApart t with
  | case1 t ih =>
    have hslash := EndsAtMark.cons (c := '/') ih nofun
    have hspace := EndsAtMark.cons (c := ' ') hslash nofun
    exact hspace.cons nofun
  | case2 c t hmark ih =>
    refine ih.cons fun hc hhead => ?_
    -- The next character is that of the text, and `*/` would have been pulled apart.
    cases t with
    | nil => cases hhead
    | cons next t =>
      rw [head?_append, head?_pullApart] at hhead
      obtain rfl : next = '/' := Option.some.inj hhead
      exact hmark t hc rfl
  | case3 => exact hclosed

theorem filter_pullApart (t : Text) :
    (pullApart t).filter (· ≠ ' ') = t.filter (· ≠ ' ') := by
  fun_induction pullApart t with
  | case1 t ih => simpa using ih
  | case2 c t _ ih => rw [filter_cons, filter_cons, ih]
  | case3 => rfl

end CommentStyle

namespace Listing

variable {β : Type}

theorem lineText_of_not_blank {step code : Text} {level : Int} {origin : Option β}
    (h : isBlankText code = false) :
    lineText step id (some ⟨code, level, origin⟩) = margin step level ++ code := by
  simp [lineText, h]

/-- A text written as comments adds one line for each line of it. Behind the
indentation there is the opening mark, and the first closing mark after it is
at the end of the line. The text is kept, spaces apart. -/
theorem comments_close_at_end (step : Text) (l : Listing Text β) (t : Text) :
    ∃ added, (l.emitAll (CommentStyle.slashStar.comments t)).lines.toList =
        l.lines.toList ++ added ∧
      Forall₂ (fun part line => ∃ rest : Text,
        lineText step id line = margin step l.level ++ ("/* " ++ rest) ∧ EndsAtMark rest ∧
        rest.filter (· ≠ ' ') = part.filter (· ≠ ' ') ++ "*/")
        (cutAt (· == '\n') t) added := by
  refine ⟨_, by rw [emitAll_eq, Array.toList_append], ?_⟩
  rw [CommentStyle.comments, map_map, forall₂_map_right_iff, forall₂_same]
  intro part _
  refine ⟨CommentStyle.pullApart part ++ " */", ?_, CommentStyle.endsAtMark_pullApart part, ?_⟩
  · have hcode : CommentStyle.slashStar.comment part =
        "/* " ++ (CommentStyle.pullApart part ++ " */") := append_assoc ..
    rw [← hcode]
    exact lineText_of_not_blank rfl
  · rw [filter_append, CommentStyle.filter_pullApart]
    rfl

end Listing

end Pseudocode
