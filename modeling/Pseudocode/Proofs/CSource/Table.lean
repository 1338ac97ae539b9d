import Pseudocode.Proofs.CSource.Routines
import Pseudocode.Proofs.Expression.Subscripts

/-!
# The names of a routine

The listing keeps one table for the names of a whole routine, made before its
first line is written, and every conversion in the routine is decided by it.
This module says what the table holds in terms of the statements it is made
from.

* `ofBody_eq`: the type, the arrays and the buffers of a name.
* `Routine.told`: the conversion that the table gives for a name. All
  declarations of a name but the last are ignored, and a name that is read and
  never declared is a buffer, also where it is the counter of a loop that
  declares it.
* `Routine.conversion_scan`, `Routine.conversion_print`: names are read and
  written as told.
-/

namespace Pseudocode.CSource

open Text Expression List Names

/-! ### What the statements tell of a name -/

def declaration? (name : Text) (s : Statement) : Option (CType × Bool) :=
  match s.form with
  | .declare type name' size => if name' = name then some (CType.of type, size.isSome) else none
  | _ => none

def declarations (body : List Statement) (name : Text) : List (CType × Bool) :=
  body.filterMap (declaration? name)

def readsName (name : Text) (s : Statement) : Bool :=
  match s.form with
  | .read _ name' none => name' == name
  | _ => false

def isRead (body : List Statement) (name : Text) : Bool :=
  body.any (readsName name)

def countsIn (name : Text) (s : Statement) : Bool :=
  match s.form with
  | .forLoop counter _ _ => counter == name
  | _ => false

def isCounter (body : List Statement) (name : Text) : Bool :=
  body.any (countsIn name)

def Routine.told (r : Routine) (reads : Bool) (name : Text) : Conversion :=
  match (declarations r.body name).getLast? with
  | some (type, _) =>
    if !reads && (declarations r.body name).any (·.2) then .string else type.conversion
  | none =>
    if r.params.contains name || isRead r.body name then .string
    else if isCounter r.body name then .integer else .string

/-! ### The table of a routine -/

section Names

variable (n : Names) (name : Text) (s : Statement) (body : List Statement)

theorem lookup_types_cons (name' : Text) (type : CType) :
    ((name', type) :: n.types).lookup name = if name' = name then some type else n.typeOf? name := by
  by_cases h : name' = name
  · simp [h]
  · rw [lookup_cons, beq_false_of_ne (Ne.symm h), if_neg h]
    rfl

/-- A declaration replaces the type that was known, and the head of a loop
makes an unknown counter an integer. -/
theorem declareName_eq :
    (n.declareName s).typeOf? name = ((declaration? name s).map Prod.fst).or
        ((n.typeOf? name).or (if countsIn name s then some .int else none)) ∧
      (name ∈ (n.declareName s).declared ↔
        (declaration? name s).isSome = true ∨ name ∈ n.declared) ∧
      (name ∈ (n.declareName s).arrays ↔
        (declaration? name s).any (·.2) = true ∨ name ∈ n.arrays) ∧
      (n.declareName s).buffers = n.buffers := by
  unfold declareName declaration? countsIn
  cases s.form with
  | declare type name' size =>
    refine ⟨(lookup_types_cons n name name' _).trans ?_, ?_, ?_, rfl⟩
    · by_cases h : name' = name <;> simp [h]
    · grind
    · cases size <;> grind
  | forLoop counter =>
    dsimp only
    split
    · next hknown =>
      refine ⟨?_, by simp, by simp, rfl⟩
      by_cases h : counter = name
      · subst h
        simp [Option.or_of_isSome hknown]
      · simp [h]
    · next hknown =>
      refine ⟨(lookup_types_cons n name counter .int).trans ?_, by simp, by simp, rfl⟩
      by_cases h : counter = name
      · subst h
        simp [Option.not_isSome_iff_eq_none.mp hknown]
      · simp [h]
  | _ => simp

theorem foldl_declareName :
    (body.foldl declareName n).typeOf? name =
        ((declarations body name).getLast?.map Prod.fst).or
          ((n.typeOf? name).or (if isCounter body name then some .int else none)) ∧
      (name ∈ (body.foldl declareName n).declared ↔
        declarations body name ≠ [] ∨ name ∈ n.declared) ∧
      (name ∈ (body.foldl declareName n).arrays ↔
        (declarations body name).any (·.2) = true ∨ name ∈ n.arrays) ∧
      (body.foldl declareName n).buffers = n.buffers := by
  induction body generalizing n with
  | nil => simp [declarations, isCounter]
  | cons s rest ih =>
    obtain ⟨htype, hdeclared, harrays, hbuffers⟩ := ih (n.declareName s)
    obtain ⟨htype', hdeclared', harrays', hbuffers'⟩ := declareName_eq n name s
    rw [foldl_cons, htype, hdeclared, harrays, hbuffers, htype', hdeclared', harrays', hbuffers']
    have hcounter : isCounter (s :: rest) name = (countsIn name s || isCounter rest name) := rfl
    unfold declarations
    cases hs : declaration? name s with
    | none =>
      rw [filterMap_cons_none hs, hcounter]
      refine ⟨?_, by simp, by simp, rfl⟩
      cases (filterMap (declaration? name) rest).getLast? <;> cases n.typeOf? name <;>
        cases countsIn name s <;> simp
    | some =>
      rw [filterMap_cons_some hs]
      refine ⟨?_, by simp, ?_, rfl⟩
      · rw [getLast?_cons]
        cases (filterMap (declaration? name) rest).getLast? <;> simp
      · simp [or_assoc, or_left_comm]

theorem bufferName_eq :
    (n.bufferName s).declared = n.declared ∧ (n.bufferName s).arrays = n.arrays ∧
      (name ∈ (n.bufferName s).buffers ↔
        name ∈ n.buffers ∨ name ∉ n.declared ∧ readsName name s = true) ∧
      (n.bufferName s).typeOf? name =
        if name ∉ n.declared ∧ name ∉ n.buffers ∧ readsName name s = true then some .text
        else n.typeOf? name := by
  unfold bufferName readsName
  cases s.form with
  | read target name' index =>
    cases index with
    | some => simp
    | none =>
      dsimp only
      by_cases hknown : (n.declared.contains name' || n.buffers.contains name') = true
      · rw [if_pos hknown]
        refine ⟨rfl, rfl, ?_, ?_⟩
        · grind
        · grind
      · rw [if_neg hknown]
        simp only [Bool.or_eq_true] at hknown
        refine ⟨rfl, rfl, ?_, (lookup_types_cons n name name' .text).trans ?_⟩
        · grind
        · grind
  | _ => simp

theorem foldl_bufferName :
    (body.foldl bufferName n).declared = n.declared ∧
      (body.foldl bufferName n).arrays = n.arrays ∧
      (name ∈ (body.foldl bufferName n).buffers ↔
        name ∈ n.buffers ∨ name ∉ n.declared ∧ isRead body name = true) ∧
      (body.foldl bufferName n).typeOf? name =
        if name ∉ n.declared ∧ name ∉ n.buffers ∧ isRead body name = true then some .text
        else n.typeOf? name := by
  induction body generalizing n with
  | nil => simp [isRead]
  | cons s rest ih =>
    obtain ⟨hdeclared, harrays, hbuffers, htype⟩ := ih (n.bufferName s)
    obtain ⟨hdeclared', harrays', hbuffers', htype'⟩ := bufferName_eq n name s
    have hread : isRead (s :: rest) name = (readsName name s || isRead rest name) := rfl
    rw [foldl_cons, hdeclared, harrays, hbuffers, htype, hdeclared', harrays']
    refine ⟨rfl, rfl, ?_, ?_⟩
    · cases readsName name s <;> grind
    · cases readsName name s <;> grind

/-- What is known of the names of a routine before its body is looked at. -/
def Names.ofParams (params : List Text) : Names :=
  { types := params.map (·, .text), declared := params }

theorem ofBody_eq (params : List Text) (name : Text) (body : List Statement) :
    (ofBody params body).typeOf? name =
        (match (declarations body name).getLast? with
        | some d => some d.1
        | none =>
          if params.contains name || isRead body name then some .text
          else if isCounter body name then some .int else none) ∧
      (name ∈ (ofBody params body).declared ↔
        declarations body name ≠ [] ∨ name ∈ params) ∧
      (name ∈ (ofBody params body).arrays ↔
        (declarations body name).any (·.2) = true) ∧
      (name ∈ (ofBody params body).buffers ↔
        declarations body name = [] ∧ name ∉ params ∧ isRead body name = true) := by
  have hparams : (ofParams params).typeOf? name =
      if params.contains name then some .text else none := by
    induction params with
    | nil => rfl
    | cons param rest ih =>
      refine (lookup_types_cons (.ofParams rest) name param .text).trans ?_
      rw [ih]
      by_cases h : param = name
      · simp [h]
      · simp [h, Ne.symm h]
  obtain ⟨htype, hdeclared, harrays, hbuffers⟩ := foldl_declareName (.ofParams params) name body
  obtain ⟨hdeclared', harrays', hbuffers', htype'⟩ :=
    foldl_bufferName (body.foldl declareName (.ofParams params)) name body
  have hbody : ofBody params body =
      body.foldl bufferName (body.foldl declareName (.ofParams params)) := rfl
  rw [hbody, hdeclared', harrays', hbuffers', htype']
  simp only [hbuffers, hdeclared, harrays, htype, hparams]
  simp only [ofParams]
  refine ⟨?_, trivial, by simp, by simp [not_or, and_assoc]⟩
  cases hlast : (declarations body name).getLast? with
  | some =>
    simp [ne_nil_of_mem (mem_of_getLast? hlast)]
  | none =>
    rw [getLast?_eq_none_iff] at hlast
    simp only [hlast]
    by_cases hparam : name ∈ params <;> cases isRead body name <;> simp [hparam]

end Names

/-! ### Conversions by the table -/

theorem isDecimal_of_isName {t : Text}
    (h : isName (trim t) = true) : isDecimal t = false := by
  cases hdecimal : isDecimal t with
  | false => rfl
  | true =>
    -- The point is in the text, and trimming does not take it away.
    have hpoint : '.' ∈ t := by
      unfold isDecimal at hdecimal
      dsimp only at hdecimal
      split at hdecimal
      · next fraction hdrop =>
        have hmem : '.' ∈ dropWhile isDigit _ := hdrop ▸ mem_cons_self
        replace hmem := (dropWhile_sublist _).subset hmem
        split at hmem
        · exact mem_cons_of_mem _ hmem
        · exact hmem
      · cases hdecimal
    have hmem : '.' ∈ trim t := by
      rw [← count_pos_iff, count_trim (by decide), count_pos_iff]
      exact hpoint
    cases htrim : trim t with
    | nil => simp [htrim, isName] at h
    | cons =>
      rw [htrim, isName, Bool.and_eq_true, all_eq_true] at h
      rw [htrim] at hmem
      rcases mem_cons.mp hmem with rfl | hmem
      · cases h.1
      · cases h.2 _ hmem

namespace Routine

variable {r : Routine} {name : Text} {bufferSize : Int}

theorem conversion_scan (h : isRead r.body name = true) :
    (((ofBody r.params r.body).typeOf? name).getD .text).conversion = r.told true name := by
  rw [(ofBody_eq r.params name r.body).1, told]
  cases (declarations r.body name).getLast? <;> simp [h, CType.conversion]

theorem conversion_print {arg : Text} (h : isName (trim arg) = true) :
    conversionOf (.ofBody r.params r.body) arg = r.told false (trim arg) := by
  obtain ⟨htype, -, harrays, -⟩ := ofBody_eq r.params (trim arg) r.body
  have hvalue : (ofBody r.params r.body).valueType? arg =
      if (declarations r.body (trim arg)).any (·.2) then none
      else (ofBody r.params r.body).typeOf? (trim arg) := by
    unfold valueType?
    rw [if_pos h]
    by_cases hany : (declarations r.body (trim arg)).any (·.2) = true
    · rw [if_pos hany, if_pos (contains_iff_mem.mpr (harrays.mpr hany))]
    · rw [if_neg hany, if_neg fun hmem => hany (harrays.mp (contains_iff_mem.mp hmem))]
  rw [conversionOf, hvalue, htype, told, isDecimal_of_isName h]
  cases hlast : (declarations r.body (trim arg)).getLast? with
  | none =>
    rw [getLast?_eq_none_iff] at hlast
    simp only [hlast]
    cases r.params.contains (trim arg) || isRead r.body (trim arg) <;>
      cases isCounter r.body (trim arg) <;> rfl
  | some d =>
    obtain ⟨type, isArray⟩ := d
    cases (declarations r.body (trim arg)).any (·.2)
    · cases type <;> rfl
    · rfl

end Routine

end Pseudocode.CSource
