import Mathlib.Data.List.Forall2
import Mathlib.Data.List.Induction
import Mathlib.Data.List.Nodup
import Mathlib.Data.List.Perm.Subperm
import Pseudocode.Variables

/-!
# The tables of a program keep apart

A slot is known by the name of its scope and its own name, so slots can be
told apart only if no two tables have one scope name and no table has a
name twice. The first rests on the numbers that repeated function names
get: one more candidate is tried than there are names in use, so one of
them is free.

* `Variables.freshScope_not_mem`, `nodup_scopes`: the names of scopes.
* `InOrderOf`, `inOrderOf_firsts`: the names of a table are those that
  appear, each once, in the order of their first appearance.
* `Variables.tables_and_slots`: tables and slots of every program.
-/

namespace Pseudocode

open Text List ScopeTable

theorem Text.ofNat_injective : Function.Injective ofNat := by
  intro m n h
  calc m = Nat.ofDigitChars 10 (ofNat m) 0 := Nat.ofDigitChars_ten_toDigits.symm
    _ = Nat.ofDigitChars 10 (ofNat n) 0 := by rw [h]
    _ = n := Nat.ofDigitChars_ten_toDigits

/-! ### The names of a table -/

/-- The names are those of a list, each once, in the order in which they
first appear there. -/
structure InOrderOf (all names : List Text) : Prop where
  mem_iff : ∀ name, name ∈ names ↔ name ∈ all
  order : names.Pairwise fun a b => all.idxOf a < all.idxOf b

theorem InOrderOf.nodup {all names : List Text} (h : InOrderOf all names) : names.Nodup :=
  h.order.imp fun hlt heq => Nat.ne_of_lt hlt (congrArg all.idxOf heq)

theorem inOrderOf_firsts (all : List Text) : InOrderOf all (firsts all) := by
  induction all using reverseRecOn with
  | nil => exact ⟨fun _ => Iff.rfl, .nil⟩
  | append_singleton all name ih =>
    have hstep : firsts (all ++ [name]) =
        if name ∈ firsts all then firsts all
        else firsts all ++ [name] := by
      simp [firsts]
    -- The names before the new one stand where they stood.
    have hold : (firsts all).Pairwise fun a b =>
        (all ++ [name]).idxOf a < (all ++ [name]).idxOf b := by
      refine ih.order.imp_of_mem fun {a b} ha hb hlt => ?_
      rwa [idxOf_append_of_mem ((ih.mem_iff a).1 ha), idxOf_append_of_mem ((ih.mem_iff b).1 hb)]
    rw [hstep]
    split
    · next hseen =>
      refine ⟨fun x => ?_, hold⟩
      rw [mem_append, mem_singleton, ih.mem_iff]
      exact ⟨.inl, fun h => h.elim id fun h => h ▸ (ih.mem_iff name).1 hseen⟩
    · next hnew =>
      have hall : name ∉ all := fun h => hnew ((ih.mem_iff name).2 h)
      refine ⟨fun x => by rw [mem_append, mem_append, ih.mem_iff], ?_⟩
      refine pairwise_append.2 ⟨hold, pairwise_singleton .., fun a ha b hb => ?_⟩
      obtain rfl := mem_singleton.1 hb
      have hin := (ih.mem_iff a).1 ha
      rw [idxOf_append_of_mem hin, idxOf_append_of_notMem hall]
      have hlt := idxOf_lt_length_iff.2 hin
      omega

/-- The names that appear in a scope: its parameters, then the names that
its statements read, declare or count with. -/
def appearing (params : List Text) (body : List Statement) : List Text :=
  params ++ (body.filterMap fun s => s.form.variable?).filter (!·.isEmpty)

/-! ### The names of scopes -/

namespace Variables

variable {used : List Text} {base : Text}

theorem mem_of_numbered_mem {tries n : Nat} (h : numbered used base tries n ∈ used) :
    ∀ i ≤ tries, base ++ "#" ++ ofNat (n + i) ∈ used := by
  induction tries generalizing n with
  | zero =>
    intro i hi
    obtain rfl : i = 0 := by omega
    exact h
  | succ tries ih =>
    unfold numbered at h
    dsimp only at h
    split at h
    · next hused =>
      intro i hi
      cases i with
      | zero => simpa using hused
      | succ i =>
        have hmem := ih h i (by omega)
        rwa [Nat.add_assoc, Nat.add_comm 1 i] at hmem
    · next hfree => exact absurd h (by simpa using hfree)

theorem freshScope_not_mem (used : List Text) (base : Text) : freshScope used base ∉ used := by
  unfold freshScope
  split
  · intro hmem
    -- If the last number tried were in use, all of them would be, and they are too many.
    have hall := mem_of_numbered_mem hmem
    let candidates := (range (used.length + 1)).map fun i =>
      base ++ "#" ++ ofNat (2 + i)
    have hnodup : candidates.Nodup := by
      refine List.Nodup.map (fun i j hij => ?_) nodup_range
      exact Nat.add_left_cancel (ofNat_injective (append_cancel_left hij))
    have hsubset : candidates ⊆ used := by
      intro name hname
      obtain ⟨i, hi, rfl⟩ := mem_map.mp hname
      exact hall i (Nat.le_of_lt_succ (mem_range.mp hi))
    have hlength := (hnodup.subperm hsubset).length_le
    rw [length_map, length_range] at hlength
    omega
  · next hfree => simpa using hfree

theorem exists_numbered (used : List Text) (base : Text) (tries n : Nat) :
    ∃ m ≥ n, numbered used base tries n = base ++ "#" ++ ofNat m := by
  induction tries generalizing n with
  | zero => exact ⟨n, Nat.le_refl n, rfl⟩
  | succ tries ih =>
    unfold numbered
    dsimp only
    split
    · obtain ⟨m, hm, heq⟩ := ih (n + 1)
      exact ⟨m, by omega, heq⟩
    · exact ⟨n, Nat.le_refl n, rfl⟩

/-- The scope name is the function's own or has a number behind it. -/
def NameOf (f : Function) (scope : Text) : Prop :=
  scope = f.scopeName ∨ ∃ n ≥ 2, scope = f.scopeName ++ "#" ++ ofNat n

theorem nameOf_freshScope (used : List Text) (f : Function) :
    NameOf f (freshScope used f.scopeName) := by
  unfold freshScope
  split
  · exact .inr (exists_numbered used f.scopeName used.length 2)
  · exact .inl rfl

section

variable (used : List Text) (fs : List Function)

theorem nodup_functionTables :
    ((functionTables used fs).map scope).Nodup ∧
      ∀ name ∈ used, name ∉ (functionTables used fs).map scope := by
  induction fs generalizing used with
  | nil => exact ⟨.nil, fun _ _ => not_mem_nil⟩
  | cons f rest ih =>
    -- The scope of the first function is in use for the rest.
    obtain ⟨hnodup, hfree⟩ := ih (freshScope used f.scopeName :: used)
    refine ⟨nodup_cons.mpr ⟨hfree _ mem_cons_self, hnodup⟩, fun name hname => ?_⟩
    exact not_mem_cons_of_ne_of_not_mem (ne_of_mem_of_not_mem hname (freshScope_not_mem _ _))
      (hfree name (mem_cons_of_mem _ hname))

theorem nodup_scopes (p : Program) : ((ofProgram p).tables.map scope).Nodup := by
  obtain ⟨hnodup, hfree⟩ := nodup_functionTables [Program.mainScope] p.functions
  exact nodup_cons.mpr ⟨hfree _ mem_cons_self, hnodup⟩

/-! ### Tables and slots -/

/-- The table is that of a function. -/
def TableOf (f : Function) (t : ScopeTable) : Prop :=
  NameOf f t.scope ∧ InOrderOf (appearing f.params f.body) t.names

theorem forall₂_functionTables : Forall₂ TableOf fs (functionTables used fs) := by
  induction fs generalizing used with
  | nil => exact .nil
  | cons f rest ih => exact .cons ⟨nameOf_freshScope used f, inOrderOf_firsts _⟩ (ih _)

theorem length_functionTables : (functionTables used fs).length = fs.length :=
  (forall₂_functionTables used fs).length_eq.symm

end

theorem nodup_names (p : Program) : ∀ t ∈ (ofProgram p).tables, t.names.Nodup := by
  have hfunctions (used : List Text) (fs : List Function) :
      ∀ t ∈ functionTables used fs, t.names.Nodup := by
    induction fs generalizing used with
    | nil => exact nofun
    | cons f rest ih => exact forall_mem_cons.2 ⟨(inOrderOf_firsts _).nodup, ih _⟩
  exact forall_mem_cons.2 ⟨(inOrderOf_firsts _).nodup, hfunctions _ _⟩

theorem nodup_slots (p : Program) : (ofProgram p).slots.Nodup := by
  refine nodup_flatMap.2 ⟨fun t ht => ?_, ?_⟩
  · refine (nodup_names p t ht).map fun a b h => ?_
    exact (Slot.mk.injEq .. ▸ h).2
  · refine (pairwise_map.1 (nodup_scopes p)).imp fun {t u} hne => ?_
    intro slot ht hu
    obtain ⟨a, -, rfl⟩ := mem_map.1 ht
    obtain ⟨b, -, hb⟩ := mem_map.1 hu
    exact hne (congrArg Slot.scope hb).symm

theorem slotIndex?_slot {v : Variables} (h : v.slots.Nodup) {j : Nat} {slot : Slot}
    (hj : v.slots[j]? = some slot) : v.slotIndex? slot.scope slot.name = some j := by
  obtain ⟨hlt, hslot⟩ := List.getElem?_eq_some_iff.1 hj
  refine List.findIdx?_eq_some_iff_getElem.2 ⟨hlt, by simp [hslot], fun i hi => ?_⟩
  have hne : v.slots[i] ≠ v.slots[j] := fun heq => by
    have := (Nodup.getElem_inj_iff h).1 heq
    omega
  obtain ⟨scope, name⟩ := slot
  intro hsame
  simp only [Bool.and_eq_true, beq_iff_eq] at hsame
  exact hne (hslot ▸ (by rw [← hsame.1, ← hsame.2]))

end Variables

end Pseudocode
