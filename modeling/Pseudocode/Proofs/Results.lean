/-!
# Computations that may fail

A computation has a result or an error, and one with a state leaves a
state behind in both cases.

* `exists_of_bind_eq_ok`, `exists_of_return_eq_ok`: what is known of two
  computations after each other, if there is a result.
* `bind_apply`: the same for computations with a state.
* `forall_mem_concat`, `filter_eq_singleton`: lists with one more entry, and
  what is found by a key of its own.
-/

namespace Pseudocode

open List

variable {ε δ σ α β : Type}

theorem exists_of_bind_eq_ok {f : α → Except ε β} {x : Except ε α} {b : β}
    (h : x >>= f = .ok b) : ∃ a, x = .ok a ∧ f a = .ok b := by
  cases x with
  | error => cases h
  | ok a => exact ⟨a, rfl, h⟩

theorem exists_of_return_eq_ok {g : α → β} {x : Except ε α} {b : β}
    (h : (do return g (← x)) = .ok b) : ∃ a, x = .ok a ∧ g a = b := by
  obtain ⟨a, hx, h⟩ := exists_of_bind_eq_ok h
  exact ⟨a, hx, Except.ok.inj h⟩

theorem eq_ok_of_mapError {f : ε → δ} {x : Except ε α} {a : α} (h : x.mapError f = .ok a) :
    x = .ok a := by
  cases x with
  | error => cases h
  | ok => exact congrArg Except.ok (Except.ok.inj h)

theorem bind_apply (e : ExceptT ε (StateM σ) α) (f : α → ExceptT ε (StateM σ) β) (s : σ) :
    (e >>= f) s = match e s with
      | (.ok a, s') => f a s'
      | (.error stop, s') => (.error stop, s') := by
  simp only [bind, ExceptT.bind, ExceptT.mk, StateT.bind]
  rcases e s with ⟨r, s'⟩
  cases r <;> rfl

theorem forall_mem_concat {P : α → Prop} {l : List α} {a : α} (h : ∀ x ∈ l, P x) (ha : P a) :
    ∀ x ∈ l ++ [a], P x :=
  forall_mem_append.mpr ⟨h, forall_mem_singleton.mpr ha⟩

theorem filter_eq_singleton {key : α → β} {l : List α}
    (hnodup : (l.map key).Nodup) {a : α} (ha : a ∈ l) {P : α → Bool}
    (hP : ∀ x ∈ l, P x = true ↔ key x = key a) : l.filter P = [a] := by
  obtain ⟨front, back, rfl⟩ := append_of_mem ha
  simp only [map_append, map_cons, nodup_append, nodup_cons, mem_map, mem_cons] at hnodup
  obtain ⟨-, ⟨hback, -⟩, hfront⟩ := hnodup
  have hnone : front.filter P = [] := by
    refine filter_eq_nil_iff.mpr fun x hx hPx => ?_
    exact hfront _ ⟨x, hx, rfl⟩ _ (.inl rfl) ((hP x (by simp [hx])).mp hPx)
  have hnone' : back.filter P = [] := by
    refine filter_eq_nil_iff.mpr fun x hx hPx => hback ⟨x, hx, ?_⟩
    exact (hP x (by simp [hx])).mp hPx
  rw [filter_append, filter_cons_of_pos ((hP a ha).mpr rfl), hnone, hnone']
  rfl

end Pseudocode
