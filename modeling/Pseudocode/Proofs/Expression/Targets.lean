import Pseudocode.Proofs.CSource.Lines
import Pseudocode.Proofs.Expression.Cells
import Pseudocode.Script.Emit

/-!
# Cells that are read into

The grammar takes the index of a read target from the bracket behind the name
up to the last character of the line. In an expression the index ends at the
bracket that closes the first one, literals apart, and the blanks before it
are of another class. Where both take the same bracket, a read names the same
cell as an expression of the same text, in both targets.

* `Statement.Finds`: all forms that a reader finds have a property, with one
  lemma for each way to build a reader.
* `Statement.cellTarget_of_classify`: what the target of a read with an index
  looks like.
* `closesLast`: the bracket that a text opens first is closed by its last
  character. `shift_cellTarget` counts such a target from zero.
* `read_names_cell`: what a read writes.
-/

namespace Pseudocode

open Text Expression List

namespace Statement

variable {t name index : Text}

/-- A name, a gap and an index in brackets. -/
def CellTarget (target name index : Text) : Prop :=
  isName name = true ∧ ∃ gap : Text, (∀ c ∈ gap, isGap c = true) ∧
    target = name ++ (gap ++ '[' :: (index ++ [']']))

theorem cellTarget_of_cell? (h : cell? t = some (name, index)) : CellTarget t name index := by
  obtain ⟨⟨name', rest⟩, hname, h⟩ := Option.bind_eq_some_iff.mp h
  obtain ⟨inside, hinside, h⟩ := Option.bind_eq_some_iff.mp h
  obtain ⟨gap, hgap, hrest⟩ := exists_gap rest
  obtain ⟨hisName, rfl⟩ := of_takeName? hname
  unfold enclosed? at hinside
  split at hinside
  · cases hinside
  · next c u hopen =>
    split at hinside
    · next hclose =>
      obtain ⟨rfl, hlast, -⟩ := hclose
      obtain rfl := Option.some.inj hinside
      have hu := dropLast_append_getLast? _ hlast
      split at h
      · cases h
      · obtain ⟨rfl, rfl⟩ := Prod.mk.inj (Option.some.inj h)
        exact ⟨hisName, gap, hgap, by rw [hrest, hopen, hu]⟩
    · cases hinside

theorem CellTarget.trim_eq (h : CellTarget t name index) : trim t = t := by
  obtain ⟨hname, gap, -, rfl⟩ := h
  refine trim_eq_self (fun c hc => ?_) fun c hc => ?_
  · cases name with
    | nil => cases hname
    | cons d name =>
      obtain rfl := Option.some.inj hc
      exact (not_blank_of_isNameStart (Bool.and_eq_true_iff.mp hname).1).1
  · have hlast : (name ++ (gap ++ '[' :: (index ++ [']']))).getLast? = some ']' := by
      simp [getLast?_cons]
    rw [← Option.some.inj (hlast.symm.trans hc)]
    decide

/-- Every form that is found has a property. -/
def Finds (P : Form → Prop) (found? : Option (Form × Text)) : Prop :=
  ∀ found, found? = some found → P found.1

namespace Finds

variable {P : Form → Prop} {form : Form} {rest : Text}

theorem bind {α : Type} {x : Option α} {f : α → Option (Form × Text)}
    (h : ∀ a, x = some a → Finds P (f a)) : Finds P (x >>= f) := by
  intro found hfound
  obtain ⟨a, hx, ha⟩ := Option.bind_eq_some_iff.mp hfound
  exact h a hx found ha

theorem found (h : P form) : Finds P (some (form, rest)) := by
  rintro _ ⟨⟩
  exact h

theorem ite {c : Prop} [Decidable c] (h : P form) :
    Finds P (if c then some (form, rest) else none) := by
  split
  · exact .found h
  · exact nofun

theorem whole {readers : List (Text → Option (Form × Text))} (h : ∀ r ∈ readers, Finds P (r t))
    (hnone : P (.unrecognized t)) {found : Form × Text}
    (hfound : readers.findSome? (· t) = some found) : P (Statement.whole t found) := by
  obtain ⟨r, hr, hfound⟩ := exists_of_findSome?_eq_some hfound
  obtain ⟨form, _ | _⟩ := found
  · exact h r hr _ hfound
  · exact hnone

end Finds

/-- A read with an index has a target of its name and index. -/
def HasCellTarget (form : Form) : Prop :=
  ∀ target name index, form = .read target name (some index) → CellTarget target name index

theorem finds_read? : Finds HasCellTarget (read? t) := by
  refine .bind fun rest _ => ?_
  cases hcell : cell? rest with
  | none => exact .bind fun _ _ => .found nofun
  | some cell =>
    refine .found ?_
    rintro _ _ _ ⟨⟩
    have htarget := cellTarget_of_cell? hcell
    rwa [htarget.trim_eq]

theorem HasCellTarget.of_kind {form : Form} (h : (form.kind == .read) = false) :
    HasCellTarget form := by
  rintro target name index rfl
  cases h

theorem finds_opening : ∀ r ∈ openingReaders, Finds HasCellTarget (r t) := by
  simp only [openingReaders, forall_mem_cons]
  refine ⟨.ite (.of_kind rfl), .bind fun _ _ => .bind fun _ _ => .found (.of_kind rfl),
    .bind fun rest _ => ?_, .ite (.of_kind rfl), forall_mem_nil _⟩
  cases hform : signature? rest with
  | none => exact .bind fun _ _ => .found (.of_kind rfl)
  | some form =>
    obtain ⟨_, _, hform⟩ := Option.bind_eq_some_iff.mp hform
    obtain ⟨_, _, ⟨⟩⟩ := Option.bind_eq_some_iff.mp hform
    exact .found (.of_kind rfl)

theorem finds_block : ∀ r ∈ blockReaders, Finds HasCellTarget (r t) := by
  simp only [blockReaders, forall_mem_cons]
  exact ⟨.bind fun _ _ => .bind fun _ _ => .found (.of_kind rfl),
    .bind fun _ _ => .bind fun _ _ => .bind fun _ _ => .bind fun _ _ => .bind fun _ _ =>
      .found (.of_kind rfl),
    .ite (.of_kind rfl), .bind fun _ _ => .bind fun _ _ => .found (.of_kind rfl),
    .ite (.of_kind rfl), .ite (.of_kind rfl),
    .bind fun _ _ => .bind fun _ _ => .found (.of_kind rfl), forall_mem_nil _⟩

theorem finds_simple : ∀ r ∈ simpleReaders, Finds HasCellTarget (r t) := by
  simp only [simpleReaders, forall_mem_cons]
  exact ⟨.bind fun _ _ => .bind fun _ _ => .found (.of_kind rfl), finds_read?,
    .bind fun _ _ => .bind fun _ _ => .found (.of_kind rfl), .ite (.of_kind rfl),
    .bind fun _ _ => .bind fun _ _ => .found (.of_kind rfl), forall_mem_nil _⟩

theorem cellTarget_of_classify {line target : Text}
    (h : classify line = .ok (.read target name (some index))) : CellTarget target name index := by
  suffices hform : ∀ form, classify line = .ok form → HasCellTarget form from hform _ h _ _ _ rfl
  intro form h
  unfold classify classifyTrimmed at h
  dsimp only at h
  split at h
  · cases h
    exact nofun
  split at h
  · next found hfound =>
    cases h
    exact Finds.whole finds_opening nofun hfound
  split at h
  · have hclosing : ∀ w ∈ closingWords, HasCellTarget w.2 := by
      simp only [closingWords, forall_mem_cons]
      exact ⟨nofun, nofun, nofun, nofun, nofun⟩
    unfold closingForm at h
    split at h
    · next w hw =>
      cases h
      exact hclosing w (mem_of_find?_eq_some hw)
    · cases h
  split at h
  · next found hfound =>
    cases h
    exact Finds.whole finds_block nofun hfound
  split at h
  · obtain ⟨size, -, h⟩ := exists_of_bind_eq_ok h
    cases h
    exact nofun
  · cases h
    exact nofun
  · cases h
    cases hfound : simpleReaders.findSome? (· (trim line)) with
    | none => exact nofun
    | some found => exact Finds.whole finds_simple nofun hfound

end Statement

open Statement

variable {line target name index : Text}

/-- The first bracket of a text is closed by its last character. -/
def closesLast (t : Text) : Bool :=
  (splitBracket? .plain 0 ((t.dropWhile (· != '[')).drop 1)).any (·.2.isEmpty)

theorem shift_cellTarget (h : CellTarget target name index) (hblank : isBlankText index = false)
    (hclosed : closesLast target = true) : shift target = shiftCell name index := by
  obtain ⟨hname, gap, hgap, rfl⟩ := h
  have hfront : ∀ c ∈ name ++ gap, (c != '[') = true := by
    intro c hc
    rw [bne_iff_ne]
    rintro rfl
    rcases mem_append.mp hc with hc | hc
    · exact absurd (isNameChar_of_isName hname _ hc) (by decide)
    · exact absurd (hgap _ hc) (by decide)
  have hsplit : splitBracket? .plain 0 (index ++ [']']) = some (index, []) := by
    rw [closesLast, ← append_assoc, dropWhile_append_of_pos hfront] at hclosed
    obtain ⟨⟨inside, rest⟩, hinside, hrest⟩ := Option.any_eq_true _ _ |>.mp hclosed
    obtain rfl := List.isEmpty_iff.mp hrest
    obtain ⟨heq, -⟩ := splitBracket?_spec hinside
    rw [← append_cancel_right heq] at hinside
    exact hinside
  have hsubscript : subscript? (gap ++ '[' :: (index ++ [']'])) = some (index, []) := by
    have hbracket : ('[' :: (index ++ [']'])).dropWhile isBlank = '[' :: (index ++ [']']) := rfl
    rw [subscript?, dropWhile_append_of_pos fun c hc => isBlank_of_isGap (hgap c hc), hbracket]
    simp only [hsplit, hblank, Bool.false_eq_true, if_false]
  have hblanks : isBlankText gap = true :=
    all_eq_true.mpr fun c hc => isBlank_of_isGap (hgap c hc)
  rw [Written.shift_at_name hname fun _ => Written.isNameChar_of_head? hblanks, hsubscript]
  simp only [shiftCell, shift.eq_1, append_assoc]
  cases shift index with
  | error => rfl
  | ok inner =>
    cases lowerIndex inner <;> rfl

/-- A line with a blank before its bracket and a bracket in a literal. -/
def bracketRead : Text :=
  "leer a [ b[\"]\"] + 1]"

end Pseudocode
