import Pseudocode.Proofs.Program.Lines

/-!
# Texts on one line

A text without a line feed stays on one line, and so does all that is made
from it.
-/

namespace Pseudocode

open Text List

def OneLine (t : Text) : Prop := '\n' ∉ t

instance (t : Text) : Decidable (OneLine t) :=
  inferInstanceAs (Decidable ('\n' ∉ t))

section

variable {s t : Text} {c : Char}

theorem OneLine.append (hs : OneLine s) (ht : OneLine t) : OneLine (s ++ t) :=
  fun hmem => (mem_append.mp hmem).elim hs ht

theorem OneLine.cons (hc : c ≠ '\n') (ht : OneLine t) : OneLine (c :: t) :=
  fun hmem => (mem_cons.mp hmem).elim (fun h => hc h.symm) ht

theorem oneLine_of_mem_cutAt {part : Text} (h : part ∈ cutAt (· == '\n') t) : OneLine part := by
  induction t generalizing part with
  | nil =>
    rw [mem_singleton.mp h]
    exact not_mem_nil
  | cons c t ih =>
    obtain ⟨first, rest, hparts⟩ := exists_cutAt (· == '\n') t
    rw [hparts] at ih
    by_cases hc : c = '\n'
    · rw [cutAt, if_pos (by simp [hc]), hparts] at h
      rcases mem_cons.mp h with rfl | h
      · exact not_mem_nil
      · exact ih h
    · rw [cutAt_cons_of_not (by simpa using hc) hparts] at h
      rcases mem_cons.mp h with rfl | h
      · exact .cons hc (ih mem_cons_self)
      · exact ih (mem_cons_of_mem _ h)

end

end Pseudocode
