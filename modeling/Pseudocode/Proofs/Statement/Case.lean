import Pseudocode.Statement.Classify

/-!
# The case of letters

The form of a line does not depend on the case of its ASCII letters, and its
parts change with the line. Keywords are compared without case, and whatever
else the grammar looks at is blind to it: gaps, digits, names, brackets and
line ends.

* `lower`: a text with its ASCII letters in lower case.
* For each reader, a lemma that reading commutes with lowering; those of the
  small readers are simp lemmas, so a reader of several parts follows from them.
* `Statement.classify_lower` and `Statement.classify_of_lower_eq`: lines.
-/

namespace Pseudocode

open Text List

/-! ### Characters -/

theorem toLower_cases (c : Char) : c.toLower = c ∨
    ∃ k < 26, c = Char.ofNat (65 + k) ∧ c.toLower = Char.ofNat (97 + k) := by
  have htable : ∀ k < 26, (Char.ofNat (65 + k)).toLower = Char.ofNat (97 + k) := by decide
  by_cases hupper : 65 ≤ c.toNat ∧ c.toNat ≤ 90
  · obtain ⟨k, hk⟩ := Nat.exists_eq_add_of_le hupper.1
    have hlt : k < 26 := by omega
    obtain rfl : Char.ofNat (65 + k) = c := by rw [← hk, Char.ofNat_toNat]
    exact .inr ⟨k, hlt, rfl, htable k hlt⟩
  · refine .inl ?_
    unfold Char.toLower
    split
    · next h => exact absurd h hupper
    · rfl

/-- A function takes the two cases of every letter alike if it does so for the
letters of a table. -/
theorem apply_toLower {α : Type} {f : Char → α}
    (h : ∀ k < 26, f (Char.ofNat (97 + k)) = f (Char.ofNat (65 + k))) (c : Char) :
    f c.toLower = f c := by
  obtain heq | ⟨k, hk, hc, hlower⟩ := toLower_cases c
  · rw [heq]
  · rw [hlower, h k hk, ← hc]

section Blind

variable (c : Char)

@[simp] theorem toLower_toLower : c.toLower.toLower = c.toLower := apply_toLower (by decide) c
@[simp] theorem isGap_toLower : isGap c.toLower = isGap c := apply_toLower (by decide) c
@[simp] theorem isBlank_toLower : isBlank c.toLower = isBlank c := apply_toLower (by decide) c
@[simp] theorem isNameStart_toLower : isNameStart c.toLower = isNameStart c :=
  apply_toLower (by decide) c
@[simp] theorem isNameChar_toLower : isNameChar c.toLower = isNameChar c :=
  apply_toLower (by decide) c
@[simp] theorem digit?_toLower : digit? c.toLower = digit? c := apply_toLower (by decide +kernel) c
@[simp] theorem isDigit_toLower : isDigit c.toLower = isDigit c :=
  congrArg Option.isSome (digit?_toLower c)

end Blind

theorem toLower_eq_iff {c d : Char} (hd : d.isAlpha = false) : c.toLower = d ↔ c = d := by
  have htable : ∀ k < 26, ∀ first ∈ [65, 97], (Char.ofNat (first + k)).isAlpha = true := by decide
  obtain heq | ⟨k, hk, rfl, hlower⟩ := toLower_cases c
  · rw [heq]
  · rw [hlower]
    constructor <;> rintro rfl <;> simp [htable k hk] at hd

@[simp] theorem inLine_toLower (c : Char) : Statement.inLine c.toLower = Statement.inLine c :=
  apply_toLower (by decide) c

theorem foldsTo_toLower (c letter : Char) : foldsTo c.toLower letter = foldsTo c letter := by
  obtain ⟨hi, hs⟩ := Prod.mk.inj (apply_toLower (f := fun c => (c == 'İ', c == 'ſ')) (by decide) c)
  simp only [foldsTo, toLower_toLower, hi, hs]

/-! ### Texts -/

namespace Text

abbrev lower (t : Text) : Text :=
  t.map Char.toLower

@[simp] theorem trim_lower (t : Text) : trim (lower t) = lower (trim t) := by
  simp [trim, trimStart, trimEnd, dropWhile_map, ← map_reverse, Function.comp_def]

@[simp] theorem afterWord?_lower (word t : Text) :
    afterWord? word (lower t) = (afterWord? word t).map lower := by
  fun_induction afterWord? word t with
  | case1 => rfl
  | case2 => rfl
  | case3 w word c t h ih => simp only [map_cons, afterWord?, foldsTo_toLower, if_pos h, ih]
  | case4 w word c t h => simp [afterWord?, foldsTo_toLower, h]

@[simp] theorem isWord_lower (word t : Text) : isWord word (lower t) = isWord word t := by
  rw [isWord, isWord, afterWord?_lower]
  cases afterWord? word t <;> simp

theorem lowerWord_lower (t : Text) : lowerWord (lower t) = lowerWord t := by
  have hblind (c : Char) := apply_toLower
    (f := fun c => if c == 'İ' then ['i', Char.ofNat 0x307] else [c.toLower]) (by decide) c
  rw [lowerWord, flatMap_map]
  exact congrArg (flatMap · t) (funext hblind)

@[simp] theorem takeName?_lower (t : Text) :
    takeName? (lower t) = (takeName? t).map (Prod.map lower lower) := by
  cases t with
  | nil => rfl
  | cons c t =>
    simp only [takeName?, map_cons, isNameStart_toLower]
    split <;> simp [takeWhile_map, dropWhile_map, Function.comp_def]

theorem cutAt_lower {p : Char → Bool} (h : ∀ c, p c.toLower = p c) (t : Text) :
    cutAt p (lower t) = (cutAt p t).map lower := by
  induction t with
  | nil => rfl
  | cons c t ih =>
    simp only [map_cons, cutAt, h c, ih]
    split
    · rfl
    · cases cutAt p t <;> rfl

end Text

namespace Statement

@[simp] theorem afterGap?_lower (t : Text) : afterGap? (lower t) = (afterGap? t).map lower := by
  cases t with
  | nil => rfl
  | cons c t =>
    simp only [afterGap?, map_cons, isGap_toLower]
    split <;> simp [dropWhile_map, Function.comp_def]

@[simp] theorem afterKeyword?_lower (word t : Text) :
    afterKeyword? word (lower t) = (afterKeyword? word t).map lower := by
  simp [afterKeyword?, Option.bind_map, Function.comp_def]

@[simp] theorem takeWhile_inLine_lower (t : Text) :
    (lower t).takeWhile inLine = lower (t.takeWhile inLine) ∧
      (lower t).dropWhile inLine = lower (t.dropWhile inLine) := by
  simp [takeWhile_map, dropWhile_map, Function.comp_def]

@[simp] theorem takeLine?_lower (t : Text) :
    takeLine? (lower t) = (takeLine? t).map (Prod.map lower lower) := by
  simp only [takeLine?, takeWhile_inLine_lower]
  cases t.takeWhile inLine <;> rfl

@[simp] theorem enclosed?_lower {o d : Char} (ho : o.isAlpha = false) (hd : d.isAlpha = false)
    (t : Text) : enclosed? o d (lower t) = (enclosed? o d t).map lower := by
  cases t with
  | nil => rfl
  | cons c t =>
    simp [enclosed?, toLower_eq_iff ho, toLower_eq_iff hd, ← map_dropLast]

end Statement

/-- The form with the letters of its parts in lower case. -/
def Form.lower : Form → Form
  | .comment text => .comment text.lower
  | .program name => .program name.lower
  | .function name params => .function name.lower (params.map Text.lower)
  | .malformedFunction text => .malformedFunction text.lower
  | .whileLoop condition => .whileLoop condition.lower
  | .forLoop counter start stop => .forLoop counter.lower start.lower stop.lower
  | .untilTest condition => .untilTest condition.lower
  | .ifTest condition => .ifTest condition.lower
  | .declare type name size => .declare type name.lower size
  | .legacyArray text => .legacyArray text.lower
  | .read target name index => .read target.lower name.lower (index.map Text.lower)
  | .write arguments => .write arguments.lower
  | .call callee => .call callee.lower
  | .unrecognized text => .unrecognized text.lower
  | form => form

namespace Statement

/-- A reader that commutes with lowering. -/
def Commutes (r : Text → Option (Form × Text)) : Prop :=
  ∀ t, r (lower t) = (r t).map (Prod.map Form.lower lower)

theorem comment?_lower : Commutes comment? := by
  have hinLine : inLine '#' = true ∧ inLine '/' = true := by decide
  intro t
  rcases t with _ | ⟨c, t⟩
  · rfl
  by_cases hhash : c = '#'
  · simp [comment?, hhash, Form.lower, hinLine]
  by_cases hslash : c = '/'
  · rcases t with _ | ⟨d, t⟩
    · simp [comment?, hslash]
    by_cases hd : d = '/'
    · simp [comment?, hslash, hd, Form.lower, hinLine]
    · simp [comment?, hslash, hd, toLower_eq_iff]
  · simp [comment?, hhash, hslash, toLower_eq_iff]

theorem keyword?_lower (word : Text) {form : Form} (h : form.lower = form) :
    Commutes (keyword? word form) := by
  intro t
  simp only [keyword?, isWord_lower]
  split <;> simp [h]

theorem tested?_lower (word : Text) {form : Text → Form}
    (h : ∀ t, (form t).lower = form (lower t)) : Commutes (tested? word form) := by
  intro t
  simp [tested?, Option.bind_map, Function.comp_def, dropWhile_map, h]

/-- The readers that take their parts one after the other. -/
theorem plainReaders_lower :
    ∀ r ∈ [program?, ifTest?, legacyArray?, write?, call?], Commutes r := by
  simp [Commutes, program?, ifTest?, legacyArray?, write?, call?, Option.bind_map,
    Function.comp_def, dropWhile_map, Form.lower]

@[simp] theorem parameters?_lower (t : Text) :
    parameters? (lower t) = (parameters? t).map (·.map lower) := by
  have hcomma (t : Text) : cutAt (· == ',') (lower t) = (cutAt (· == ',') t).map lower :=
    cutAt_lower (fun c => apply_toLower (f := (· == ',')) (by decide) c) t
  rcases t with _ | ⟨c, t⟩
  · rfl
  by_cases hc : c = '('
  · simp [hc, parameters?, toLower_eq_iff, ← map_dropLast, hcomma, filter_map, Function.comp_def]
  · simp [parameters?, hc, toLower_eq_iff]

theorem function?_lower : Commutes function? := by
  intro t
  have hsignature (t : Text) : signature? (lower t) = (signature? t).map Form.lower := by
    simp [signature?, Option.bind_map, Function.comp_def, dropWhile_map, Form.lower]
  simp only [function?, afterKeyword?_lower, Option.bind_eq_bind, Option.bind_map, Option.map_bind,
    Function.comp_def, hsignature]
  congr 1
  funext rest
  cases signature? rest with
  | none => simp [Option.bind_map, Function.comp_def, Form.lower]
  | some => rfl

/-! ### Counted loops -/

theorem beforeHacer?_lower (taken t : Text) :
    beforeHacer? (lower taken) (lower t) = (beforeHacer? taken t).map lower := by
  induction t generalizing taken with
  | nil => rfl
  | cons c t ih =>
    have hnext := ih (taken ++ [c])
    simp only [map_append] at hnext
    simp only [beforeHacer?, map_cons, isEmpty_map, isGap_toLower, inLine_toLower, dropWhile_map,
      Function.comp_def, isWord_lower]
    split
    · rfl
    · split
      · exact hnext
      · rfl

theorem stopValue?_lower (t : Text) : stopValue? (lower t) = (stopValue? t).map lower := by
  induction t with
  | nil => rfl
  | cons c t ih =>
    simp only [stopValue?, map_cons, isGap_toLower, ih]
    split
    · cases stopValue? t with
      | none => exact beforeHacer?_lower [] t
      | some => rfl
    · rfl

theorem rangeFrom?_lower (taken t : Text) :
    rangeFrom? (lower taken) (lower t) = (rangeFrom? taken t).map (Prod.map lower lower) := by
  induction t generalizing taken with
  | nil => rfl
  | cons c t ih =>
    have hstop : (afterWord? "hasta" ((lower t).dropWhile isGap)).bind stopValue? =
        ((afterWord? "hasta" (t.dropWhile isGap)).bind stopValue?).map lower := by
      simp [Option.bind_map, Function.comp_def, dropWhile_map, stopValue?_lower]
    have hnext := ih (taken ++ [c])
    simp only [map_append] at hnext
    simp only [rangeFrom?, map_cons, isEmpty_map, isGap_toLower, inLine_toLower, hstop]
    cases !taken.isEmpty && isGap c <;>
      cases (afterWord? "hasta" (t.dropWhile isGap)).bind stopValue? <;>
        cases inLine c <;> first | rfl | exact hnext

theorem forLoop?_lower : Commutes forLoop? := by
  intro t
  have hrange (t : Text) : rangeFrom? [] (lower t) = _ := rangeFrom?_lower [] t
  simp [forLoop?, Option.bind_map, Function.comp_def, Form.lower, hrange]

/-! ### Cells and sizes -/

theorem read?_lower : Commutes read? := by
  intro t
  have hcell (t : Text) : cell? (lower t) = (cell? t).map (Prod.map lower lower) := by
    simp only [cell?, takeName?_lower, Option.bind_eq_bind, Option.bind_map, Option.map_bind]
    congr 1
    funext ⟨name, rest⟩
    simp only [Function.comp_def, Prod.map_apply, dropWhile_map, isGap_toLower, enclosed?_lower,
      Char.reduceIsAlpha, Option.bind_map, Option.map_bind]
    congr 1
    funext index
    cases index <;> rfl
  simp only [read?, afterKeyword?_lower, Option.bind_eq_bind, Option.bind_map, Option.map_bind,
    Function.comp_def, hcell]
  congr 1
  funext rest
  cases cell? rest with
  | none => simp [Option.bind_map, Function.comp_def, Form.lower]
  | some => simp [Form.lower]

theorem arraySize?_lower (t : Text) :
    arraySize? (lower t) = (arraySize? t).map (Prod.map lower lower) := by
  rcases t with _ | ⟨c, t⟩
  · rfl
  by_cases hc : c = '['
  · simp only [hc, map_cons, Char.reduceToLower, arraySize?, dropWhile_map, takeWhile_map,
      Function.comp_def, isGap_toLower, isDigit_toLower]
    generalize (t.dropWhile isGap).takeWhile isDigit = digits
    generalize ((t.dropWhile isGap).dropWhile isDigit).dropWhile isGap = rest
    rcases digits with _ | ⟨d, digits⟩
    · rfl
    rcases rest with _ | ⟨c, rest⟩
    · rfl
    by_cases hc : c = ']'
    · simp [hc]
    · simp [hc, toLower_eq_iff]
  · simp [arraySize?, hc, toLower_eq_iff]

theorem sizeValue_lower (digits : Text) : sizeValue (lower digits) = sizeValue digits := by
  simp [sizeValue, numeralValue, foldl_map]

def Declaration.lower (d : Declaration) : Declaration :=
  ⟨d.type, d.name.lower, d.digits.map Text.lower⟩

theorem declaration?_lower (t : Text) :
    declaration? (lower t) = (declaration? t).map (Prod.map Declaration.lower lower) := by
  have htype : valueType? (lower t) = (valueType? t).map (Prod.map id lower) := by
    simp [valueType?, map_findSome?, Function.comp_def]
  simp only [declaration?, htype, Option.bind_eq_bind, Option.bind_map, Option.map_bind,
    Function.comp_def]
  congr 1
  funext ⟨type, rest⟩
  simp only [takeName?_lower, Option.bind_map, Function.comp_def, Prod.map]
  congr 1
  funext ⟨name, rest⟩
  simp only [dropWhile_map, Function.comp_def, isGap_toLower, arraySize?_lower]
  cases arraySize? (rest.dropWhile isGap) with
  | none => rfl
  | some => simp [Declaration.lower, dropWhile_map, Function.comp_def]

/-! ### Lines -/

theorem findSome?_lower {readers : List (Text → Option (Form × Text))}
    (h : ∀ r ∈ readers, Commutes r) (t : Text) : readers.findSome? (· (lower t)) =
      (readers.findSome? (· t)).map (Prod.map Form.lower lower) := by
  induction readers with
  | nil => rfl
  | cons r readers ih =>
    obtain ⟨hr, hreaders⟩ := forall_mem_cons.mp h
    rw [findSome?_cons, findSome?_cons, hr, ih hreaders]
    cases r t <;> rfl

theorem lower_whole (t : Text) (found : Form × Text) :
    whole (lower t) (Prod.map Form.lower lower found) = (whole t found).lower := by
  obtain ⟨form, _ | _⟩ := found <;> rfl

theorem readers_lower : ∀ r ∈ openingReaders ++ blockReaders ++ simpleReaders, Commutes r := by
  have hplain := plainReaders_lower
  simp only [forall_mem_cons] at hplain
  obtain ⟨hprogram, hif, hlegacy, hwrite, hcall, -⟩ := hplain
  simp only [openingReaders, blockReaders, simpleReaders, cons_append, nil_append, forall_mem_cons]
  exact ⟨comment?_lower, hprogram, function?_lower, keyword?_lower _ rfl,
    tested?_lower _ fun _ => rfl, forLoop?_lower, keyword?_lower _ rfl,
    tested?_lower _ fun _ => rfl, keyword?_lower _ rfl, keyword?_lower _ rfl, hif, hlegacy,
    read?_lower, hwrite, keyword?_lower _ rfl, hcall, nofun⟩

theorem closingForm_lower (t : Text) :
    (closingForm (lower t)).toOption = (closingForm t).toOption.map Form.lower := by
  have hlower : ∀ w ∈ closingWords, w.2.lower = w.2 := by decide
  rw [closingForm, closingForm, lowerWord_lower]
  cases h : closingWords.find? fun w => w.1 == lowerWord t with
  | none => rfl
  | some w => exact congrArg some (hlower w (mem_of_find?_eq_some h)).symm

theorem classifyTrimmed_lower (t : Text) :
    (classifyTrimmed (lower t)).toOption = (classifyTrimmed t).toOption.map Form.lower := by
  obtain ⟨hreaders, hsimple⟩ := forall_mem_append.mp readers_lower
  obtain ⟨hopening, hblock⟩ := forall_mem_append.mp hreaders
  have hclosing : isClosingWord (lower t) = isClosingWord t := by
    simp only [isClosingWord, isWord_lower]
  unfold classifyTrimmed
  rw [findSome?_lower hopening, hclosing, findSome?_lower hblock,
    declaration?_lower, findSome?_lower hsimple]
  cases openingReaders.findSome? (· t) with
  | some found => exact congrArg some (lower_whole t found)
  | none =>
  cases isClosingWord t with
  | true => exact closingForm_lower t
  | false =>
  cases blockReaders.findSome? (· t) with
  | some found => exact congrArg some (lower_whole t found)
  | none =>
  rcases declaration? t with _ | ⟨⟨type, name, digits⟩, _ | _⟩
  · cases simpleReaders.findSome? (· t) with
    | some found => exact congrArg some (lower_whole t found)
    | none => rfl
  · cases digits with
    | none => rfl
    | some digits =>
      simp only [Prod.map, Declaration.lower, Option.map_some, map_nil, Option.mapM_some,
        sizeValue_lower]
      cases sizeValue digits <;> rfl
  · rfl

theorem classify_lower (line : Text) :
    (classify (lower line)).toOption = (classify line).toOption.map Form.lower := by
  simp only [classify, trim_lower, isEmpty_map]
  split
  · rfl
  · exact classifyTrimmed_lower _

/-- Of two lines that differ in the case of ASCII letters alone, either none
has a form or both have. The forms are of one kind, with the same type, size and
number of parameters, and their texts differ in the case of ASCII letters alone. -/
theorem classify_of_lower_eq {s t : Text} (h : lower s = lower t) :
    ((∃ fault, classify s = .error fault) ↔ ∃ fault, classify t = .error fault) ∧
      ∀ f g, classify s = .ok f → classify t = .ok g → f.kind = g.kind ∧ f.lower = g.lower := by
  have heq : (classify s).toOption.map Form.lower = (classify t).toOption.map Form.lower := by
    rw [← classify_lower, ← classify_lower, h]
  have hkind (f : Form) : f.lower.kind = f.kind := by cases f <;> rfl
  cases hs : classify s <;> cases ht : classify t <;> rw [hs, ht] at heq
  · simp
  · cases heq
  · cases heq
  · have hforms := Option.some.inj heq
    refine ⟨by simp, ?_⟩
    rintro f g ⟨⟩ ⟨⟩
    exact ⟨by rw [← hkind, hforms, hkind], hforms⟩

theorem classify_of_lower_eq_forLoop :
    lower "PaRa I dEsde a[J] HASTA n Hacer" = lower "para i desde A[j] hasta N hacer" ∧
      ∀ f g, classify "PaRa I dEsde a[J] HASTA n Hacer" = .ok f →
        classify "para i desde A[j] hasta N hacer" = .ok g →
          f = .forLoop "I" "a[J]" "n" ∧ f.kind = g.kind ∧ f.lower = g.lower := by
  have hlower : lower "PaRa I dEsde a[J] HASTA n Hacer" =
      lower "para i desde A[j] hasta N hacer" := by decide
  have hform : classify "PaRa I dEsde a[J] HASTA n Hacer" = .ok (.forLoop "I" "a[J]" "n") :=
    rfl
  refine ⟨hlower, fun f g hf hg => ⟨?_, (classify_of_lower_eq hlower).2 f g hf hg⟩⟩
  exact Except.ok.inj (hf.symm.trans hform)

end Statement

end Pseudocode
