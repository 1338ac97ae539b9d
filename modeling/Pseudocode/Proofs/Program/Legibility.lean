import Mathlib.Data.List.DropRight
import Pseudocode.Proofs.Program.Balance

/-!
# The texts that have a program

A pass over a text stops only at a line that matches a form and has no
reading. There are two kinds of such lines: a closing word that is spelled
with the dotted capital I or the long s, and an array declaration whose
size has more digits than are read. `Unreadable` describes them by what is
written on the line, without the readers of the grammar.

The readers are tried in a fixed order, so a line of one kind must also be
shown to match no reader before its own. Two keywords at the front of one
text are comparable (`prefix_of_afterWord?`), which rules the others out.

* `foldLetter`, `afterWord?_eq_some_iff`, `isWord_iff`: matching a keyword
  is comparing folded letters.
* `closingForm_eq_error`: when a closing word has no form.
* `ArrayText`, `declaration?_text`, `exists_arrayText`: the array
  declarations as they are written, and that they are read so.
* `classify_error_iff`: the lines without a reading.
* `Program.parse_returns_iff`: the texts with a program.
-/

namespace Pseudocode

open List

variable {c : Char} {rest t word : Text}

namespace Text

/-! ### Trimmed texts -/

theorem trim_eq_self (hfirst : ∀ c, t.head? = some c → isBlank c = false)
    (hlast : ∀ c, t.getLast? = some c → isBlank c = false) : trim t = t := by
  have hstart : trimStart isBlank t = t := by
    cases t with
    | nil => rfl
    | cons c => exact dropWhile_cons_of_neg (by simp [hfirst c rfl])
  rw [trim, hstart, trimEnd]
  rcases t.eq_nil_or_concat with rfl | ⟨front, c, rfl⟩
  · rfl
  · have hc := hlast c (by simp)
    simp [hc]

theorem trim_trim (t : Text) : trim (trim t) = trim t := by
  refine trim_eq_self (fun c hc => ?_) fun c hc => ?_
  · obtain ⟨rest, hrest⟩ := head?_eq_some_iff.mp hc
    exact isBlank_head_of_trim_eq hrest
  · obtain ⟨front, hfront⟩ := getLast?_eq_some_iff.mp hc
    exact isBlank_last_of_trim_eq hfront

/-! ### Blanks and digits -/

def blankCodes : List Nat :=
  range' 9 5 ++ range' 0x1C 5 ++ [0x85, 0xA0, 0x1680] ++ range' 0x2000 11 ++
    [0x2028, 0x2029, 0x202F, 0x205F, 0x3000]

theorem eq_false_of_isBlank {p : Char → Bool}
    (hp : ∀ n ∈ blankCodes, p (Char.ofNat n) = false) (h : isBlank c = true) : p c = false := by
  have hmem : c.toNat ∈ blankCodes := by
    simp [isBlank, isGap] at h
    simp [blankCodes]
    omega
  rw [← Char.ofNat_toNat c]
  exact hp _ hmem

theorem eq_false_of_isDigit {p : Char → Bool}
    (hp : ∀ first ∈ digitZeros, ∀ k < 10, p (Char.ofNat (first + k)) = false)
    (h : isDigit c = true) : p c = false := by
  obtain ⟨value, hvalue⟩ := Option.isSome_iff_exists.mp h
  obtain ⟨first, hfirst, hdigit⟩ := exists_of_findSome?_eq_some hvalue
  split at hdigit
  · next hrange =>
    simp only [Bool.and_eq_true, decide_eq_true_eq] at hrange
    have hc := hp first hfirst (c.toNat - first) (by omega)
    rwa [Nat.add_sub_cancel' hrange.1, Char.ofNat_toNat] at hc
  · cases hdigit

theorem isNameChar_of_isBlank (h : isBlank c = true) : isNameChar c = false :=
  eq_false_of_isBlank (by decide) h

theorem isGap_of_isDigit (h : isDigit c = true) : isGap c = false :=
  eq_false_of_isDigit (by decide +kernel) h

theorem not_blank_of_isNameStart (h : isNameStart c = true) :
    isBlank c = false ∧ isDigit c = false := by
  refine ⟨Bool.eq_false_iff.mpr fun hblank => ?_, Bool.eq_false_iff.mpr fun hdigit => ?_⟩
  · rw [eq_false_of_isBlank (p := isNameStart) (by decide) hblank] at h
    cases h
  · rw [eq_false_of_isDigit (p := isNameStart) (by decide +kernel) hdigit] at h
    cases h

/-! ### Keywords -/

/-- The lower-case letter that a written character stands for in a
keyword. -/
def foldLetter (c : Char) : Char :=
  if c = 'İ' then 'i' else if c = 'ſ' then 's' else c.toLower

/-- A keyword has neither of the two letters outside ASCII that fold onto
ASCII ones. -/
def isPlainWord (word : Text) : Bool :=
  word.all fun w => w ≠ 'İ' && w ≠ 'ſ'

theorem foldsTo_iff {w : Char} (hw : w ≠ 'İ' ∧ w ≠ 'ſ') :
    foldsTo c w = true ↔ foldLetter c = w := by
  unfold foldsTo foldLetter
  by_cases hi : c = 'İ'
  · subst hi
    have hlower : 'İ'.toLower = 'İ' := by decide
    by_cases hletter : w = 'i'
    · simp [hletter]
    · simp [hw.1.symm, hletter, Ne.symm hletter]
  · by_cases hs : c = 'ſ'
    · subst hs
      have hlower : 'ſ'.toLower = 'ſ' := by decide
      by_cases hletter : w = 's'
      · simp [hletter]
      · simp [hw.2.symm, hletter, Ne.symm hletter]
    · simp [hi, hs]

theorem afterWord?_eq_some_iff (hword : isPlainWord word = true) :
    afterWord? word t = some rest ↔ ∃ front, t = front ++ rest ∧ front.map foldLetter = word := by
  induction word generalizing t with
  | nil => simp [afterWord?]
  | cons w word ih =>
    simp only [isPlainWord, all_cons, Bool.and_eq_true] at hword
    cases t with
    | nil => simp [afterWord?]
    | cons c =>
      rw [afterWord?]
      split
      · next hfold =>
        rw [foldsTo_iff (by simpa using hword.1)] at hfold
        rw [ih hword.2]
        constructor
        · rintro ⟨front, rfl, hfront⟩
          exact ⟨c :: front, rfl, by rw [map_cons, hfold, hfront]⟩
        · rintro ⟨front, hsplit, hfront⟩
          obtain ⟨a, front, rfl, -, hrest⟩ := map_eq_cons_iff.mp hfront
          exact ⟨front, (cons.inj hsplit).2, hrest⟩
      · next hfold =>
        rw [foldsTo_iff (by simpa using hword.1)] at hfold
        constructor
        · nofun
        · rintro ⟨front, hsplit, hfront⟩
          obtain ⟨a, front, rfl, ha, -⟩ := map_eq_cons_iff.mp hfront
          exact absurd ((cons.inj hsplit).1 ▸ ha) hfold

theorem isWord_iff (hword : isPlainWord word = true) :
    isWord word t = true ↔ t.map foldLetter = word := by
  unfold isWord
  rw [beq_iff_eq, afterWord?_eq_some_iff hword]
  simp

theorem prefix_of_afterWord? {word' rest' : Text} (hword : isPlainWord word = true)
    (hword' : isPlainWord word' = true) (h : afterWord? word t = some rest)
    (h' : afterWord? word' t = some rest') : word <+: word' ∨ word' <+: word := by
  obtain ⟨front, rfl, rfl⟩ := (afterWord?_eq_some_iff hword).mp h
  obtain ⟨front', hsplit, rfl⟩ := (afterWord?_eq_some_iff hword').mp h'
  rcases prefix_or_prefix_of_prefix (prefix_append front rest)
      (hsplit ▸ prefix_append front' rest') with hle | hle
  · exact .inl (hle.map foldLetter)
  · exact .inr (hle.map foldLetter)

theorem lowerWord_eq_fold (h : ∀ c ∈ t, c ≠ 'İ' ∧ c ≠ 'ſ') : lowerWord t = t.map foldLetter := by
  induction t with
  | nil => rfl
  | cons c t ih =>
    rw [forall_mem_cons] at h
    rw [map_cons, ← ih h.2, lowerWord]
    simp [foldLetter, h.1, lowerWord]

theorem lowerWord_not_plain (h : 'İ' ∈ t ∨ 'ſ' ∈ t) :
    Char.ofNat 0x307 ∈ lowerWord t ∨ 'ſ' ∈ lowerWord t := by
  rcases h with h | h
  · exact .inl (mem_flatMap.mpr ⟨'İ', h, by decide⟩)
  · exact .inr (mem_flatMap.mpr ⟨'ſ', h, by decide⟩)

end Text

namespace Statement

open Text

/-! ### Lines without a reading -/

/-- A closing word in any case, with one of the two letters outside ASCII
that fold onto ASCII ones. -/
def OddCloser (t : Text) : Prop :=
  t.map foldLetter ∈ closingWords.map Prod.fst ∧ ('İ' ∈ t ∨ 'ſ' ∈ t)

/-- An array declaration as it is written: the word of a type, a gap, a
name, and a numeral in brackets. -/
structure ArrayText where
  type : ValueType
  word : Text
  gap : Text
  name : Text
  beforeBracket : Text
  beforeSize : Text
  size : Text
  afterSize : Text
  spelled : word.map foldLetter = type.word
  spaced : gap ≠ []
  gaps : ∀ part ∈ [gap, beforeBracket, beforeSize, afterSize], ∀ c ∈ part, isGap c = true
  named : isName name = true
  numeral : isNumeral size = true

def ArrayText.text (a : ArrayText) : Text :=
  a.word ++ (a.gap ++ (a.name ++ (a.beforeBracket ++
    '[' :: (a.beforeSize ++ (a.size ++ (a.afterSize ++ [']']))))))

/-- A line that matches a form and has no reading. -/
def Unreadable (t : Text) : Prop :=
  OddCloser t ∨ ∃ a : ArrayText, a.text = t ∧ digitLimit < a.size.length

/-! ### Closing words -/

theorem isPlainWord_closing : ∀ w ∈ closingWords, isPlainWord w.1 = true := by
  decide

theorem closingForm_eq_error (h : t.map foldLetter ∈ closingWords.map Prod.fst) :
    (∃ fault, closingForm t = .error fault) ↔ 'İ' ∈ t ∨ 'ſ' ∈ t := by
  unfold closingForm
  by_cases hodd : 'İ' ∈ t ∨ 'ſ' ∈ t
  · have hnone : closingWords.find? (fun w => w.1 == lowerWord t) = none := by
      rw [find?_eq_none]
      intro w hw heq
      have hplain : ∀ w ∈ closingWords, Char.ofNat 0x307 ∉ w.1 ∧ 'ſ' ∉ w.1 := by decide
      have hmem := lowerWord_not_plain hodd
      rw [← eq_of_beq heq] at hmem
      exact hmem.elim (hplain w hw).1 (hplain w hw).2
    simp [hnone, hodd]
  · have hlower : lowerWord t = t.map foldLetter := by
      refine lowerWord_eq_fold fun c hc => ⟨?_, ?_⟩ <;> rintro rfl
      · exact hodd (.inl hc)
      · exact hodd (.inr hc)
    obtain ⟨w, hw, hword⟩ := mem_map.mp h
    have hsome : (closingWords.find? fun w => w.1 == lowerWord t).isSome = true := by
      rw [find?_isSome]
      exact ⟨w, hw, by rw [hlower, hword, beq_self_eq_true]⟩
    obtain ⟨w', hw'⟩ := Option.isSome_iff_exists.mp hsome
    simp [hw', hodd]

theorem isClosingWord_iff :
    isClosingWord t = true ↔ t.map foldLetter ∈ closingWords.map Prod.fst := by
  unfold isClosingWord
  rw [any_eq_true, mem_map]
  constructor
  · rintro ⟨w, hw, hword⟩
    exact ⟨w, hw, ((isWord_iff (isPlainWord_closing w hw)).mp hword).symm⟩
  · rintro ⟨w, hw, hword⟩
    exact ⟨w, hw, (isWord_iff (isPlainWord_closing w hw)).mpr hword.symm⟩

/-! ### Readers that do not match -/

/-- No keyword of some is comparable with a word. -/
def apart (word : Text) (keywords : List Text) : Bool :=
  keywords.all fun k => isPlainWord k && !word.isPrefixOf k && !k.isPrefixOf word

theorem afterWord?_eq_none {keywords : List Text}
    (hword : isPlainWord word = true) (h : afterWord? word t = some rest)
    (hapart : apart word keywords = true) : ∀ k ∈ keywords, afterWord? k t = none := by
  intro k hk
  cases hnone : afterWord? k t with
  | none => rfl
  | some =>
    have hfree := all_eq_true.mp hapart k hk
    simp only [Bool.and_eq_true, Bool.not_eq_true', ← Bool.not_eq_true,
      isPrefixOf_iff_prefix] at hfree
    exact absurd (prefix_of_afterWord? hword hfree.1.1 h hnone) (not_or.mpr ⟨hfree.1.2, hfree.2⟩)

theorem comment?_eq_none (hhash : afterWord? "#" t = none)
    (hslash : afterWord? "//" t = none) : comment? t = none := by
  unfold comment?
  split
  · next rest =>
    have hsome : afterWord? "#" ('#' :: rest) = some rest := rfl
    cases hhash
  · next rest =>
    have hsome : afterWord? "//" ('/' :: '/' :: rest) = some rest := rfl
    cases hslash
  · rfl

theorem keyword?_eq_none (form : Form) (h : afterWord? word t = none) :
    keyword? word form t = none := by
  rw [keyword?, isWord, h]
  rfl

theorem tested?_eq_none (form : Text → Form) (h : afterWord? word t = none) :
    tested? word form t = none := by
  rw [tested?, h]
  rfl

theorem afterKeyword?_eq_none (h : afterWord? word t = none) : afterKeyword? word t = none := by
  rw [afterKeyword?, h]
  rfl

/-- The keywords of the readers before the closing words. -/
def openingKeywords : List Text :=
  ["#", "//", "programa", "funcion", "inicio"]

theorem openingReaders_none (h : ∀ k ∈ openingKeywords, afterWord? k t = none) :
    openingReaders.findSome? (· t) = none := by
  simp only [openingKeywords, forall_mem_cons] at h
  obtain ⟨hhash, hslash, hprogram, hfunction, hmain, -⟩ := h
  rw [findSome?_eq_none_iff]
  simp only [openingReaders, forall_mem_cons]
  refine ⟨comment?_eq_none hhash hslash, ?_, ?_, keyword?_eq_none _ hmain, nofun⟩
  · rw [program?, afterKeyword?_eq_none hprogram]
    rfl
  · rw [function?, afterKeyword?_eq_none hfunction]
    rfl

/-- The keywords of the readers between the closing words and
declarations. -/
def blockKeywords : List Text :=
  ["mientras", "para", "repetir", "hasta", "entonces", "sino", "si"]

theorem blockReaders_none (h : ∀ k ∈ blockKeywords, afterWord? k t = none) :
    blockReaders.findSome? (· t) = none := by
  simp only [blockKeywords, forall_mem_cons] at h
  obtain ⟨hwhile, hfor, hrepeat, huntil, hthen, helse, hif, -⟩ := h
  rw [findSome?_eq_none_iff]
  simp only [blockReaders, forall_mem_cons]
  refine ⟨tested?_eq_none _ hwhile, ?_, keyword?_eq_none _ hrepeat, tested?_eq_none _ huntil,
    keyword?_eq_none _ hthen, keyword?_eq_none _ helse, ?_, nofun⟩
  · rw [forLoop?, afterKeyword?_eq_none hfor]
    rfl
  · rw [ifTest?, afterKeyword?_eq_none hif]
    rfl

/-! ### Array declarations -/

theorem ValueType.isPlainWord (type : ValueType) : isPlainWord type.word = true := by
  cases type <;> decide

theorem valueType?_of_afterWord? {type : ValueType} (h : afterWord? type.word t = some rest) :
    valueType? t = (afterGap? rest).map fun rest => (type, rest) := by
  have hothers : ∀ other : ValueType, other ≠ type → afterKeyword? other.word t = none := by
    intro other hne
    have hapart : apart type.word [other.word] = true := by
      revert hne
      cases type <;> cases other <;> decide
    exact afterKeyword?_eq_none
      (afterWord?_eq_none (ValueType.isPlainWord type) h hapart _ (mem_singleton_self _))
  have hown : afterKeyword? type.word t = afterGap? rest := by
    rw [afterKeyword?, h]
    rfl
  unfold valueType? ValueType.all
  cases type <;> cases hgap : afterGap? rest <;>
    simp [hown, hgap, hothers]

theorem afterGap?_append {gap : Text} (hne : gap ≠ []) (hgap : ∀ c ∈ gap, isGap c = true)
    (hrest : rest.dropWhile isGap = rest) : afterGap? (gap ++ rest) = some rest := by
  cases gap with
  | nil => exact absurd rfl hne
  | cons =>
    rw [forall_mem_cons] at hgap
    rw [cons_append, afterGap?, if_pos hgap.1, dropWhile_append_of_pos hgap.2, hrest]

theorem takeName?_append {name : Text} (hname : isName name = true)
    (hrest : rest.takeWhile isNameChar = []) : takeName? (name ++ rest) = some (name, rest) := by
  cases name with
  | nil => cases hname
  | cons =>
    simp only [isName, Bool.and_eq_true, all_eq_true] at hname
    have hdrop : rest.dropWhile isNameChar = rest := by
      have hsplit := takeWhile_append_dropWhile (p := isNameChar) (l := rest)
      rwa [hrest] at hsplit
    rw [cons_append, takeName?, if_pos hname.1, takeWhile_append_of_pos hname.2,
      dropWhile_append_of_pos hname.2, hrest, hdrop, append_nil]

theorem takeWhile_isNameChar_gap {gap : Text}
    (hgap : ∀ c ∈ gap, isGap c = true) (hc : isNameChar c = false) :
    (gap ++ c :: rest).takeWhile isNameChar = [] := by
  cases gap with
  | nil => simp [hc]
  | cons g => simp [isNameChar_of_isBlank (isBlank_of_isGap (hgap g mem_cons_self))]

theorem arraySize?_append {before size after : Text} (hbefore : ∀ c ∈ before, isGap c = true)
    (hafter : ∀ c ∈ after, isGap c = true) (hsize : isNumeral size = true) :
    arraySize? ('[' :: (before ++ (size ++ (after ++ ']' :: rest)))) = some (size, rest) := by
  obtain ⟨hne, hdigits⟩ : size ≠ [] ∧ ∀ c ∈ size, isDigit c = true := by
    simpa [isNumeral] using hsize
  have hstart : (size ++ (after ++ ']' :: rest)).dropWhile isGap = size ++ (after ++ ']' :: rest) := by
    cases size with
    | nil => exact absurd rfl hne
    | cons d => simp [isGap_of_isDigit (hdigits d mem_cons_self)]
  have hbracket : isDigit ']' = false := by decide +kernel
  have hend : (after ++ ']' :: rest).takeWhile isDigit = [] := by
    cases after with
    | nil => simp [hbracket]
    | cons g =>
      cases hg : isDigit g with
      | false => simp [hg]
      | true =>
        have hgap := hafter g mem_cons_self
        rw [isGap_of_isDigit hg] at hgap
        cases hgap
  have hrest : (after ++ ']' :: rest).dropWhile isDigit = after ++ ']' :: rest := by
    have hsplit := takeWhile_append_dropWhile (p := isDigit) (l := after ++ ']' :: rest)
    rwa [hend] at hsplit
  have hclose : (']' :: rest).dropWhile isGap = ']' :: rest := rfl
  rw [arraySize?]
  simp only [dropWhile_append_of_pos hbefore, hstart, takeWhile_append_of_pos hdigits,
    dropWhile_append_of_pos hdigits, hend, hrest, append_nil,
    dropWhile_append_of_pos hafter, hclose]

theorem declaration?_text (a : ArrayText) :
    declaration? a.text = some (⟨a.type, a.name, some a.size⟩, []) := by
  have hgaps := a.gaps
  simp only [forall_mem_cons] at hgaps
  obtain ⟨hgap, hbracket, hbefore, hafter, -⟩ := hgaps
  have hword := (afterWord?_eq_some_iff (ValueType.isPlainWord a.type)).mpr
    ⟨a.word, (rfl : a.text = a.word ++ _), a.spelled⟩
  have hname : ∀ rest : Text, (a.name ++ rest).dropWhile isGap = a.name ++ rest := by
    intro rest
    have hnamed := a.named
    cases hcons : a.name with
    | nil =>
      rw [hcons] at hnamed
      cases hnamed
    | cons =>
      rw [hcons, isName, Bool.and_eq_true] at hnamed
      have hgap := Bool.or_eq_false_iff.mp (not_blank_of_isNameStart hnamed.1).1
      simp [hgap.1]
  have htake : ∀ rest : Text, takeName? (a.name ++ (a.beforeBracket ++ '[' :: rest)) =
      some (a.name, a.beforeBracket ++ '[' :: rest) := fun _ =>
    takeName?_append a.named (takeWhile_isNameChar_gap hbracket rfl)
  have hopen : ∀ rest : Text, (a.beforeBracket ++ '[' :: rest).dropWhile isGap = '[' :: rest := by
    intro rest
    rw [dropWhile_append_of_pos hbracket]
    rfl
  rw [declaration?, valueType?_of_afterWord? hword, afterGap?_append a.spaced hgap (hname _)]
  simp only [Option.map_some, Option.bind_eq_bind, Option.bind_some, htake, hopen,
    arraySize?_append hbefore hafter a.numeral]
  rfl

theorem exists_gap (t : Text) :
    ∃ gap : Text, (∀ c ∈ gap, isGap c = true) ∧ t = gap ++ t.dropWhile isGap :=
  ⟨t.takeWhile isGap, fun _ hc => mem_takeWhile_imp hc, takeWhile_append_dropWhile.symm⟩

theorem exists_of_valueType? {type : ValueType} (h : valueType? t = some (type, rest)) :
    ∃ word gap : Text, word.map foldLetter = type.word ∧ gap ≠ [] ∧
      (∀ c ∈ gap, isGap c = true) ∧ t = word ++ (gap ++ rest) := by
  obtain ⟨type', -, hfound⟩ := exists_of_findSome?_eq_some h
  obtain ⟨rest', hkeyword, hpair⟩ := Option.map_eq_some_iff.mp hfound
  obtain ⟨rfl, rfl⟩ := Prod.mk.inj hpair
  obtain ⟨after, hword, hgap⟩ := Option.bind_eq_some_iff.mp hkeyword
  obtain ⟨word, rfl, hspelled⟩ := (afterWord?_eq_some_iff (ValueType.isPlainWord type')).mp hword
  cases after with
  | nil => cases hgap
  | cons g after =>
    rw [afterGap?] at hgap
    split at hgap
    · next hg =>
      obtain ⟨gap, hgaps, hsplit⟩ := exists_gap after
      rw [Option.some.inj hgap] at hsplit
      exact ⟨word, g :: gap, hspelled, by simp, forall_mem_cons.mpr ⟨hg, hgaps⟩,
        by rw [cons_append, ← hsplit]⟩
    · cases hgap

theorem of_takeName? {name : Text} (h : takeName? t = some (name, rest)) :
    isName name = true ∧ t = name ++ rest := by
  cases t with
  | nil => cases h
  | cons =>
    rw [takeName?] at h
    split at h
    · next hstart =>
      cases h
      refine ⟨?_, by simp⟩
      rw [isName, hstart, Bool.true_and, all_eq_true]
      exact fun _ hc => mem_takeWhile_imp hc
    · cases h

theorem exists_of_arraySize? {digits : Text} (h : arraySize? t = some (digits, rest)) :
    ∃ before after : Text, (∀ c ∈ before, isGap c = true) ∧ (∀ c ∈ after, isGap c = true) ∧
      isNumeral digits = true ∧ t = '[' :: (before ++ (digits ++ (after ++ ']' :: rest))) := by
  unfold arraySize? at h
  split at h
  · next t =>
    obtain ⟨before, hbefore, hsplit⟩ := exists_gap t
    generalize t.dropWhile isGap = inner at h hsplit
    obtain ⟨after, hafter, hsplit'⟩ := exists_gap (inner.dropWhile isDigit)
    have hinner := takeWhile_append_dropWhile (p := isDigit) (l := inner)
    have hdigits : ∀ c ∈ inner.takeWhile isDigit, isDigit c = true :=
      fun _ hc => mem_takeWhile_imp hc
    dsimp only at h
    generalize inner.takeWhile isDigit = digits' at h hinner hdigits
    generalize (inner.dropWhile isDigit).dropWhile isGap = tail at h hsplit'
    split at h
    · cases h
    · next hne =>
      obtain ⟨rfl, rfl⟩ := Prod.mk.inj (Option.some.inj h)
      refine ⟨before, after, hbefore, hafter, ?_, ?_⟩
      · simpa [isNumeral, show digits' ≠ [] from hne] using hdigits
      · rw [hsplit, ← hinner, hsplit']
    · cases h
  · cases h

theorem exists_arrayText {digits : Text} {d : Declaration}
    (h : declaration? t = some (d, [])) (hd : d.digits = some digits) (ht : trim t = t) :
    ∃ a : ArrayText, a.text = t ∧ a.size = digits := by
  simp only [declaration?, Option.bind_eq_bind, Option.bind_eq_some_iff] at h
  obtain ⟨⟨type, rest⟩, htype, ⟨name, rest'⟩, hname, h⟩ := h
  obtain ⟨word, gap, hspelled, hspaced, hgap, rfl⟩ := exists_of_valueType? htype
  obtain ⟨hnamed, rfl⟩ := of_takeName? hname
  obtain ⟨bracket, hbracket, hsplit⟩ := exists_gap rest'
  split at h
  · next size tail hsize =>
    obtain ⟨before, after, hbefore, hafter, hnumeral, hopen⟩ := exists_of_arraySize? hsize
    obtain ⟨rfl, htail⟩ := Prod.mk.inj (Option.some.inj h)
    obtain rfl : size = digits := Option.some.inj hd
    rw [hopen] at hsplit
    -- The line is trimmed, so nothing stands behind the bracket.
    obtain rfl : tail = [] := by
      rcases tail.eq_nil_or_concat with rfl | ⟨front, last, rfl⟩
      · rfl
      · have hlast : isGap last = true := by
          rw [dropWhile_eq_nil_iff] at htail
          exact htail last (by simp)
        rw [hsplit] at ht
        simp only [concat_eq_append, ← append_assoc, ← cons_append] at ht
        have hblank := isBlank_last_of_trim_eq ht
        rw [isBlank_of_isGap hlast] at hblank
        cases hblank
    refine ⟨⟨type, word, gap, name, bracket, before, size, after, hspelled, hspaced, ?_, hnamed,
      hnumeral⟩, ?_, rfl⟩
    · simp only [forall_mem_cons]
      exact ⟨hgap, hbracket, hbefore, hafter, nofun⟩
    · rw [hsplit]
      rfl
  · obtain ⟨rfl, -⟩ := Prod.mk.inj (Option.some.inj h)
    cases hd

theorem openingReaders_none_of_word (hword : isPlainWord word = true)
    (h : afterWord? word t = some rest) (hapart : apart word openingKeywords = true) :
    openingReaders.findSome? (· t) = none :=
  openingReaders_none (afterWord?_eq_none hword h hapart)

theorem isClosingWord_eq_false (h : ∀ k ∈ closingWords.map Prod.fst, afterWord? k t = none) :
    isClosingWord t = false := by
  rw [← Bool.not_eq_true, isClosingWord, any_eq_true]
  rintro ⟨w, hw, hword⟩
  rw [isWord, h w.1 (mem_map_of_mem hw)] at hword
  cases hword

theorem classifyTrimmed_closing (h : t.map foldLetter ∈ closingWords.map Prod.fst) :
    classifyTrimmed t = closingForm t := by
  obtain ⟨w, hw, hword⟩ := mem_map.mp h
  have hplain := isPlainWord_closing w hw
  have hapart : ∀ w ∈ closingWords, apart w.1 openingKeywords = true := by decide
  have hafter : afterWord? w.1 t = some [] :=
    (afterWord?_eq_some_iff hplain).mpr ⟨t, (append_nil t).symm, hword.symm⟩
  rw [classifyTrimmed, openingReaders_none_of_word hplain hafter (hapart w hw)]
  exact if_pos (isClosingWord_iff.mpr h)

theorem classifyTrimmed_array (a : ArrayText) :
    classifyTrimmed a.text = (sizeValue a.size).map fun n => .declare a.type a.name (some n) := by
  have hplain := ValueType.isPlainWord a.type
  have hafter := (afterWord?_eq_some_iff hplain).mpr
    ⟨a.word, (rfl : a.text = a.word ++ _), a.spelled⟩
  have hclosing : isClosingWord a.text = false :=
    isClosingWord_eq_false (afterWord?_eq_none hplain hafter (by cases a.type <;> decide))
  have hblock := blockReaders_none (afterWord?_eq_none hplain hafter (by cases a.type <;> decide))
  rw [classifyTrimmed, openingReaders_none_of_word hplain hafter (by cases a.type <;> decide)]
  simp only [hclosing, hblock, declaration?_text, Option.mapM_some]
  cases sizeValue a.size <;> rfl

theorem sizeValue_eq_error {digits : Text} :
    (∃ fault, sizeValue digits = .error fault) ↔ digitLimit < digits.length := by
  unfold sizeValue
  split
  · next h => exact ⟨fun _ => h, fun _ => ⟨_, rfl⟩⟩
  · next h => exact ⟨nofun, fun hlong => absurd hlong h⟩

theorem classifyTrimmed_error_iff (ht : trim t = t) :
    (∃ fault, classifyTrimmed t = .error fault) ↔ Unreadable t := by
  constructor
  · rintro ⟨fault, hfault⟩
    by_cases hclosing : t.map foldLetter ∈ closingWords.map Prod.fst
    · rw [classifyTrimmed_closing hclosing] at hfault
      exact .inl ⟨hclosing, (closingForm_eq_error hclosing).mp ⟨fault, hfault⟩⟩
    · have hword : isClosingWord t = false := by
        rwa [← Bool.not_eq_true, isClosingWord_iff]
      simp only [classifyTrimmed, hword, Bool.false_eq_true, if_false] at hfault
      split at hfault
      · cases hfault
      · split at hfault
        · cases hfault
        · split at hfault
          · next d hd =>
            -- Only a size that was written can fail.
            cases hsize : d.digits with
            | none =>
              rw [hsize] at hfault
              cases hfault
            | some =>
              obtain ⟨a, rfl, rfl⟩ := exists_arrayText hd hsize ht
              refine .inr ⟨a, rfl, sizeValue_eq_error.mp ?_⟩
              cases hvalue : sizeValue a.size with
              | error fault => exact ⟨fault, rfl⟩
              | ok =>
                rw [hsize, Option.mapM_some, hvalue] at hfault
                cases hfault
          · cases hfault
          · cases hfault
  · rintro (⟨hclosing, hodd⟩ | ⟨a, rfl, hlong⟩)
    · rw [classifyTrimmed_closing hclosing]
      exact (closingForm_eq_error hclosing).mpr hodd
    · obtain ⟨fault, hfault⟩ := sizeValue_eq_error.mpr hlong
      rw [classifyTrimmed_array, hfault]
      exact ⟨fault, rfl⟩

theorem ArrayText.text_ne_nil (a : ArrayText) : a.text ≠ [] := by
  simp [ArrayText.text]

theorem classify_error_iff (line : Text) :
    (∃ fault, classify line = .error fault) ↔ Unreadable (trim line) := by
  rw [classify, ← classifyTrimmed_error_iff (trim_trim line)]
  cases hblank : trim line with
  | nil =>
    -- Nothing is written on a blank line, so it is of neither kind.
    constructor
    · nofun
    · intro h
      rw [classifyTrimmed_error_iff rfl] at h
      rcases h with ⟨hclosing, -⟩ | ⟨a, ha, -⟩
      · exact absurd hclosing (by decide)
      · exact absurd ha a.text_ne_nil
  | cons => rfl

end Statement

open Text

/-! ### Texts -/

theorem SourceLine.legible_iff (l : SourceLine) :
    ((trim l.text).isEmpty = true ∨ l.kind?.isSome = true) ↔
      ¬ Statement.Unreadable (trim l.text) := by
  have herror := Statement.classify_error_iff (trim l.text)
  rw [trim_trim] at herror
  rw [← herror, SourceLine.kind?]
  cases hform : Statement.classify (trim l.text) with
  | ok => cases (trim l.text).isEmpty <;> simp [Except.toOption]
  | error =>
    cases hblank : trim l.text with
    | nil =>
      rw [hblank] at hform
      cases hform
    | cons => simp [Except.toOption]

theorem Scan.legible_of_line {width : Int} {s s' : Scan} {l : SourceLine}
    (h : Scan.line width s l = .ok s') : (trim l.text).isEmpty = true ∨ l.kind?.isSome = true := by
  obtain ⟨hblank, -⟩ | ⟨hblank, form, hform, -⟩ := line_cases h
  · exact .inl hblank
  · right
    simp [SourceLine.kind?, hblank, hform, Except.toOption]

theorem Scan.legible_of_foldlM {width : Int} {lines : List SourceLine} {s s' : Scan}
    (h : lines.foldlM (Scan.line width) s = .ok s') :
    ∀ l ∈ lines, (trim l.text).isEmpty = true ∨ l.kind?.isSome = true := by
  induction lines generalizing s with
  | nil => nofun
  | cons l rest ih =>
    obtain ⟨middle, hline, h⟩ := exists_of_bind_eq_ok h
    exact forall_mem_cons.mpr ⟨Scan.legible_of_line hline, ih h⟩

theorem legible_of_parse {settings : Settings} {parsed : Parsed}
    (h : Program.parse settings t = .ok parsed) : Legible t := by
  obtain ⟨s, hfold, -⟩ := exists_of_bind_eq_ok h
  exact Scan.legible_of_foldlM hfold

theorem legible_iff (t : Text) :
    Legible t ↔ ∀ l ∈ SourceLine.ofText t, ¬ Statement.Unreadable (trim l.text) :=
  forall₂_congr fun l _ => l.legible_iff

/-- A text has a program, whatever the settings are, exactly if none of its
lines is a closing word spelled with the dotted capital I or the long s, or
an array declaration whose size has more digits than are read. -/
theorem Program.parse_returns_iff (settings : Settings) (t : Text) :
    (∃ parsed, Program.parse settings t = .ok parsed) ↔
      ∀ l ∈ SourceLine.ofText t, ¬ Statement.Unreadable (trim l.text) := by
  rw [← legible_iff]
  constructor
  · rintro ⟨parsed, hparse⟩
    exact legible_of_parse hparse
  · intro h
    obtain ⟨parsed, hparse, -⟩ := exists_parse_nest settings h
    exact ⟨parsed, hparse⟩

/-- A closing word with a dotted capital I. -/
def dottedText : Text :=
  "inicio\nFİN"

/-- The declaration of an array with a size of one digit too many. -/
def longArray : Statement.ArrayText where
  type := .entero
  word := "entero"
  gap := " "
  name := "a"
  beforeBracket := []
  beforeSize := []
  size := replicate (digitLimit + 1) '0'
  afterSize := []
  spelled := by decide
  spaced := by decide
  gaps := by
    have hall : ([" ", [], [], []] : List Text).all (fun part => part.all isGap) = true := by decide
    intro part hpart
    exact all_eq_true.mp (all_eq_true.mp hall part hpart)
  named := by decide
  numeral := by simp [isNumeral, show isDigit '0' = true by decide]

/-- Texts without a program, one for each kind of line without a
reading. -/
theorem Program.not_every_text_returns :
    Program.parse {} dottedText = .error (.closingWord "FİN") ∧
      ¬ ∃ parsed, Program.parse {} longArray.text = .ok parsed := by
  refine ⟨by decide +kernel, ?_⟩
  rintro ⟨parsed, hparse⟩
  have hmem : ∀ c ∈ longArray.text, c ∈ ("entero a[]0" : Text) := by
    simp only [Statement.ArrayText.text, longArray, forall_mem_append, forall_mem_cons]
    have hword : ∀ t : Text, t.all (("entero a[]0" : Text).contains ·) = true →
        ∀ c ∈ t, c ∈ ("entero a[]0" : Text) := fun t ht c hc =>
      contains_iff_mem.mp (all_eq_true.mp ht c hc)
    refine ⟨hword _ (by decide), hword _ (by decide), hword _ (by decide), nofun, by decide, nofun,
      ?_, nofun, by decide, nofun⟩
    intro c hc
    rw [eq_of_mem_replicate hc]
    decide
  have hone : SourceLine.ofText longArray.text = [⟨1, 0, longArray.text⟩] := by
    have hjoin : join "\n" [longArray.text] = longArray.text := by simp [join, intercalate]
    rw [← hjoin, SourceLine.ofText_join (by simp) ?_ ?_]
    · rw [hjoin]
      rfl
    · intro t ht hline
      rw [mem_singleton.mp ht] at hline
      exact absurd (hmem _ hline) (by decide)
    · intro t ht hlast
      rw [mem_singleton.mp ht] at hlast
      exact absurd (hmem _ (mem_of_getLast? hlast)) (by decide)
  have htrim : trim longArray.text = longArray.text := by
    have hfirst : longArray.text.head? = some 'e' := rfl
    have hlast : longArray.text.getLast? = some ']' := by
      simp only [Statement.ArrayText.text, ← append_assoc, ← cons_append]
      exact getLast?_concat
    refine trim_eq_self (fun c hc => ?_) fun c hc => ?_
    · rw [← Option.some.inj (hfirst.symm.trans hc)]
      decide
    · rw [← Option.some.inj (hlast.symm.trans hc)]
      decide
  refine (legible_iff _).mp (legible_of_parse hparse) _ (hone ▸ mem_singleton_self _) ?_
  rw [htrim]
  exact .inr ⟨longArray, rfl, by simp [longArray]⟩

end Pseudocode
