import Pseudocode.Proofs.Expression.Subscripts

/-!
# Subscripts of well-formed expressions

An expression is kept as text, and three scanners have to agree on it: one finds
the end of a literal, one the bracket that closes another, and the rewriter
itself takes names as long as possible. For the texts that are written as
expressions are meant to be, they find exactly the structure of the expression.

* `Written`: an expression by how it is written, `Written.text` its text.
* `Written.splitBracket?_text`, `Written.shift_name`: the bracket scanner passes
  over a whole expression, and a name in front of one is taken with it and
  changes nothing else.
* `Written.shift_text`: counting the text from zero is counting the tree.
* `Written.Counted`: the counted texts by rules of their own, and
  `shift_text_iff`: counting from zero gives exactly these, and fails only at an
  index that cannot be read as a number.
-/

namespace Pseudocode.Expression

open Text List

variable {t index : Text}

/-! ### One index -/

/-- A blank that is not accepted around a numeral. -/
def isSeparator (c : Char) : Bool :=
  isBlank c && !isGap c

/-- The index can be read as a number if it is a numeral: it is not too long
and has no separator beside its digits. -/
def IsReadable (index : Text) : Prop :=
  (trim index).length ≤ digitLimit ∧ ∀ c ∈ index, isSeparator c = false

inductive Lowered (index : Text) : Text → Prop
  /-- A numeral becomes the number before its own. -/
  | numeral (hnumeral : isNumeral (trim index) = true) (hread : IsReadable index) :
      Lowered index (ofInt (numeralValue (trim index) - 1))
  /-- Anything else is put in parentheses, trimmed, and gets its `- 1`. -/
  | other (hother : isNumeral (trim index) = false) :
      Lowered index ("(" ++ trim index ++ ") - 1")

theorem trimGap_eq_trim (h : ∀ c ∈ t, isSeparator c = false) : trimGap t = trim t := by
  have hclass {u : Text} (hu : ∀ c ∈ u, isSeparator c = false) :
      u.dropWhile isGap = u.dropWhile isBlank := by
    have hsame : ∀ c ∈ u, isGap c = isBlank c := by
      intro c hc
      have hsep := hu c hc
      cases hgap : isGap c with
      | true => exact (isBlank_of_isGap hgap).symm
      | false => simpa [isSeparator, hgap] using hsep.symm
    induction u with
    | nil => rfl
    | cons c u ih =>
      rw [dropWhile_cons, dropWhile_cons, hsame c mem_cons_self,
        ih (fun d hd => hu d (mem_cons_of_mem _ hd))
          fun d hd => hsame d (mem_cons_of_mem _ hd)]
  have hstart : trimStart isGap t = trimStart isBlank t := hclass h
  rw [trimGap, trim, hstart, trimEnd, trimEnd, hclass]
  intro c hc
  exact h c ((dropWhile_sublist _).subset (mem_reverse.mp hc))

theorem mem_trimGap {c : Char} (hc : c ∈ t) (hsep : isSeparator c = true) : c ∈ trimGap t := by
  have hgap : isGap c = false := by
    simp only [isSeparator, Bool.and_eq_true] at hsep
    simpa using hsep.2
  have hdrop {u : Text} (hu : c ∈ u) : c ∈ u.dropWhile isGap := by
    rw [← takeWhile_append_dropWhile (l := u), mem_append] at hu
    refine hu.resolve_left fun hmem => ?_
    rw [mem_takeWhile_imp hmem] at hgap
    cases hgap
  rw [trimGap, trimEnd, mem_reverse]
  exact hdrop (mem_reverse.mpr (hdrop hc))

theorem trimGap_eq_trim_iff (h : isNumeral (trim t) = true) :
    trimGap t = trim t ↔ ∀ c ∈ t, isSeparator c = false := by
  refine ⟨fun heq c hc => ?_, trimGap_eq_trim⟩
  rw [isNumeral, Bool.and_eq_true, all_eq_true] at h
  cases hsep : isSeparator c with
  | false => rfl
  | true =>
    have hsolid := isSolid_of_isDigit (h.2 c (heq ▸ mem_trimGap hc hsep))
    rw [isSeparator, Bool.and_eq_true] at hsep
    rw [isSolid_of_isBlank hsep.1] at hsolid
    cases hsolid

theorem lowerIndex_of_numeral (h : isNumeral (trim index) = true) :
    (IsReadable index ∧ lowerIndex index = .ok (ofInt (numeralValue (trim index) - 1))) ∨
      (¬ IsReadable index ∧ ∃ fault, lowerIndex index = .error fault) := by
  have hlower : lowerIndex index =
      if trimGap index ≠ trim index then .error (.separator index)
      else if (trim index).length > digitLimit then .error (.tooLong (trim index).length)
      else .ok (ofInt (numeralValue (trim index) - 1)) := if_pos h
  rw [hlower]
  by_cases htrim : trimGap index = trim index
  · rw [if_neg (not_not_intro htrim)]
    by_cases hlong : (trim index).length > digitLimit
    · exact .inr ⟨fun hread => Nat.not_lt.mpr hread.1 hlong, _, if_pos hlong⟩
    · exact .inl ⟨⟨Nat.not_lt.mp hlong, (trimGap_eq_trim_iff h).mp htrim⟩, if_neg hlong⟩
  · rw [if_pos htrim]
    exact .inr ⟨fun hread => htrim ((trimGap_eq_trim_iff h).mpr hread.2), _, rfl⟩

theorem lowerIndex_of_other (h : isNumeral (trim index) = false) :
    lowerIndex index = .ok ("(" ++ trim index ++ ") - 1") :=
  if_neg (by rw [h]; exact Bool.false_ne_true)

theorem lowerIndex_eq_ok_iff {lowered : Text} :
    lowerIndex index = .ok lowered ↔ Lowered index lowered := by
  constructor
  · intro h
    cases hnumeral : isNumeral (trim index) with
    | true =>
      obtain ⟨hread, hok⟩ | ⟨-, fault, herror⟩ := lowerIndex_of_numeral hnumeral
      · rw [hok] at h
        exact Except.ok.inj h ▸ .numeral hnumeral hread
      · rw [herror] at h
        cases h
    | false =>
      rw [lowerIndex_of_other hnumeral] at h
      exact Except.ok.inj h ▸ .other hnumeral
  · rintro (⟨hnumeral, hread⟩ | hother)
    · obtain ⟨-, hok⟩ | ⟨hnot, -⟩ := lowerIndex_of_numeral hnumeral
      · exact hok
      · exact absurd hread hnot
    · exact lowerIndex_of_other hother

theorem of_lowerIndex_eq_error {fault : IndexFault} (h : lowerIndex index = .error fault) :
    isNumeral (trim index) = true ∧ ¬ IsReadable index := by
  cases hnumeral : isNumeral (trim index) with
  | true =>
    obtain ⟨-, hok⟩ | ⟨hnot, -⟩ := lowerIndex_of_numeral hnumeral
    · rw [hok] at h
      cases h
    · exact ⟨rfl, hnot⟩
  | false =>
    rw [lowerIndex_of_other hnumeral] at h
    cases h

/-! ### Expressions as they are written -/

inductive Written where
  | nil
  /-- A character outside literals and brackets. -/
  | plain (c : Char) (rest : Written)
  /-- A literal, with its quotes. -/
  | literal (lit : Text) (rest : Written)
  /-- A name with an index, and the blanks before its bracket. -/
  | cell (name gap : Text) (index rest : Written)
deriving DecidableEq, Repr

namespace Written

variable {e : Written} {w gap : Text}

def text : Written → Text
  | nil => []
  | plain c rest => c :: rest.text
  | literal lit rest => lit ++ rest.text
  | cell name gap index rest => name ++ (gap ++ '[' :: (index.text ++ ']' :: rest.text))

/-- Plain characters are no quotes and no brackets, literals are complete,
names are names, and no index is blank. -/
def IsProper : Written → Prop
  | nil => True
  | plain c rest => (c ≠ '"' ∧ c ≠ '[' ∧ c ≠ ']') ∧ rest.IsProper
  | literal lit rest => isLiteral lit = true ∧ rest.IsProper
  | cell name gap index rest =>
    isName name = true ∧ isBlankText gap = true ∧
      (index.IsProper ∧ isBlankText index.text = false) ∧ rest.IsProper

instance decidableIsProper : (e : Written) → Decidable e.IsProper
  | nil => inferInstanceAs (Decidable True)
  | plain _ rest => @instDecidableAnd _ _ inferInstance (decidableIsProper rest)
  | literal _ rest => @instDecidableAnd _ _ inferInstance (decidableIsProper rest)
  | cell _ _ index rest =>
    have := decidableIsProper index
    have := decidableIsProper rest
    inferInstanceAs (Decidable (_ ∧ _ ∧ (_ ∧ _) ∧ _))

/-- The indices of the cells of an expression, at every depth. -/
def indices : Written → List Written
  | nil => []
  | plain _ rest => rest.indices
  | literal _ rest => rest.indices
  | cell _ _ index rest => index :: index.indices ++ rest.indices

/-- The texts with every index at every depth counted from zero once, the
inner ones first. Everything else stays as it is, but for the blanks before a
bracket. -/
inductive Counted : Written → Text → Prop
  | nil : Counted .nil []
  | plain {c : Char} {rest : Written} {s : Text} (h : Counted rest s) :
      Counted (.plain c rest) (c :: s)
  | literal {lit : Text} {rest : Written} {s : Text} (h : Counted rest s) :
      Counted (.literal lit rest) (lit ++ s)
  | cell {name gap : Text} {index rest : Written} {i lowered s : Text} (hindex : Counted index i)
      (hlower : Lowered i lowered) (h : Counted rest s) :
      Counted (.cell name gap index rest) (name ++ '[' :: (lowered ++ ']' :: s))

def counted : Written → Except IndexFault Text
  | nil => .ok []
  | plain c rest => do return c :: (← rest.counted)
  | literal lit rest => do return lit ++ (← rest.counted)
  | cell name _ index rest => do
    let lowered ← lowerIndex (← index.counted)
    return name ++ '[' :: (lowered ++ ']' :: (← rest.counted))

theorem counted_eq_ok_iff {s : Text} : e.counted = .ok s ↔ e.Counted s := by
  constructor
  · intro h
    induction e generalizing s with
    | nil => exact Except.ok.inj h ▸ .nil
    | plain c rest ih =>
      obtain ⟨s', hrest, h⟩ := exists_of_bind_eq_ok h
      exact Except.ok.inj h ▸ .plain (ih hrest)
    | literal lit rest ih =>
      obtain ⟨s', hrest, h⟩ := exists_of_bind_eq_ok h
      exact Except.ok.inj h ▸ .literal (ih hrest)
    | cell name gap index rest ihIndex ih =>
      obtain ⟨i, hindex, h⟩ := exists_of_bind_eq_ok h
      obtain ⟨lowered, hlower, h⟩ := exists_of_bind_eq_ok h
      obtain ⟨s', hrest, h⟩ := exists_of_bind_eq_ok h
      exact Except.ok.inj h ▸ .cell (ihIndex hindex) (lowerIndex_eq_ok_iff.mp hlower) (ih hrest)
  · intro h
    induction h with
    | nil => rfl
    | plain _ ih | literal _ ih =>
      rw [counted, ih]
      rfl
    | cell _ hlower _ ihIndex ih =>
      rw [counted, ihIndex]
      show (do let lowered ← lowerIndex _; _) = _
      rw [lowerIndex_eq_ok_iff.mpr hlower, ih]
      rfl

theorem exists_of_counted_eq_error {fault : IndexFault} (h : e.counted = .error fault) :
    ∃ index ∈ e.indices, ∃ i, index.Counted i ∧ isNumeral (trim i) = true ∧ ¬ IsReadable i := by
  have herror {α β : Type} {x : Except IndexFault α} {f : α → Except IndexFault β}
      (h : x >>= f = .error fault) : x = .error fault ∨ ∃ a, x = .ok a ∧ f a = .error fault := by
    cases x with
    | error => exact .inl (by cases h; rfl)
    | ok a => exact .inr ⟨a, rfl, h⟩
  induction e with
  | nil => cases h
  | plain c rest ih | literal c rest ih =>
    obtain hrest | ⟨_, -, h⟩ := herror h
    · exact ih hrest
    · cases h
  | cell name gap index rest ihIndex ih =>
    obtain hindex | ⟨i, hindex, h⟩ := herror h
    · obtain ⟨index', hmem, hrest⟩ := ihIndex hindex
      exact ⟨index', by simp [indices, hmem], hrest⟩
    · obtain hlower | ⟨lowered, -, h⟩ := herror h
      · exact ⟨index, by simp [indices], i, counted_eq_ok_iff.mp hindex,
          of_lowerIndex_eq_error hlower⟩
      · obtain hrest | ⟨_, -, h⟩ := herror h
        · obtain ⟨index', hmem, hrest⟩ := ih hrest
          exact ⟨index', by simp [indices, hmem], hrest⟩
        · cases h

/-! ### The scanners -/

theorem splitBracket?_literal {mode : Mode} {inside : Text} (hmode : mode ≠ .plain)
    (h : closesAtEnd mode inside = true) (depth : Nat) (u : Text) :
    splitBracket? mode depth (inside ++ u) =
      (splitBracket? .plain depth u).map fun p => (inside ++ p.1, p.2) := by
  induction inside generalizing mode with
  | nil => cases mode <;> simp_all [closesAtEnd]
  | cons c inside ih =>
    have hstep (v : Text) : splitBracket? mode depth (c :: v) =
        (splitBracket? (mode.next c) depth v).map fun p => (c :: p.1, p.2) := by
      simp [splitBracket?, bracketDepth, hmode]
    rw [cons_append, hstep]
    obtain ⟨rfl, rfl, rfl⟩ | ⟨hnext, hrest⟩ := closesAtEnd_cases hmode h
    · rfl
    · rw [ih hnext hrest, Option.map_map]
      rfl

theorem splitBracket?_plain {front : Text} (h : ∀ c ∈ front, c ≠ '"' ∧ c ≠ '[' ∧ c ≠ ']')
    (depth : Nat) (u : Text) :
    splitBracket? .plain depth (front ++ u) =
      (splitBracket? .plain depth u).map fun p => (front ++ p.1, p.2) := by
  induction front with
  | nil => simp
  | cons c front ih =>
    obtain ⟨hquote, hopen, hclose⟩ := h c mem_cons_self
    have hstep (v : Text) : splitBracket? .plain depth (c :: v) =
        (splitBracket? .plain depth v).map fun p => (c :: p.1, p.2) := by
      simp [splitBracket?, bracketDepth, Mode.next, hquote, hopen, hclose]
    rw [cons_append, hstep, ih fun d hd => h d (mem_cons_of_mem _ hd), Option.map_map]
    rfl

theorem plain_of_name_gap {name : Text} (hname : isName name = true)
    (hgap : isBlankText gap = true) : ∀ c ∈ name ++ gap, c ≠ '"' ∧ c ≠ '[' ∧ c ≠ ']' := by
  intro c hc
  have hclass : isNameChar c = true ∨ isBlank c = true := by
    rcases mem_append.mp hc with hc | hc
    · exact .inl (isNameChar_of_isName hname c hc)
    · exact .inr (all_eq_true.mp hgap c hc)
  refine ⟨?_, ?_, ?_⟩ <;> rintro rfl <;> exact absurd hclass (by decide)

theorem splitBracket?_text (he : e.IsProper) (depth : Nat) (u : Text) :
    splitBracket? .plain depth (e.text ++ u) =
      (splitBracket? .plain depth u).map fun p => (e.text ++ p.1, p.2) := by
  induction e generalizing depth u with
  | nil => simp [text]
  | plain c rest ih =>
    obtain ⟨hc, hrest⟩ := he
    have hfront : ∀ d ∈ [c], d ≠ '"' ∧ d ≠ '[' ∧ d ≠ ']' := by
      intro d hd
      rwa [mem_singleton.mp hd]
    have hstep := splitBracket?_plain hfront depth (rest.text ++ u)
    rw [ih hrest, Option.map_map] at hstep
    exact hstep
  | literal lit rest ih =>
    obtain ⟨hlit, hrest⟩ := he
    obtain ⟨inside, rfl, hclose⟩ := exists_of_isLiteral hlit
    have hopen (v : Text) : splitBracket? .plain depth ('"' :: v) =
        (splitBracket? .quoted depth v).map fun p => ('"' :: p.1, p.2) := by
      simp [splitBracket?, bracketDepth, Mode.next]
    rw [text, append_assoc, cons_append, hopen,
      splitBracket?_literal Mode.noConfusion hclose, ih hrest, Option.map_map, Option.map_map]
    congr 1
    funext p
    simp
  | cell name gap index rest ihIndex ih =>
    obtain ⟨hname, hgap, ⟨hindex, -⟩, hrest⟩ := he
    have hopen (v : Text) : splitBracket? .plain depth ('[' :: v) =
        (splitBracket? .plain (depth + 1) v).map fun p => ('[' :: p.1, p.2) := by
      simp [splitBracket?, bracketDepth, Mode.next]
    have hclose (v : Text) : splitBracket? .plain (depth + 1) (']' :: v) =
        (splitBracket? .plain depth v).map fun p => (']' :: p.1, p.2) := by
      simp [splitBracket?, bracketDepth, Mode.next]
    have hcut : text (.cell name gap index rest) ++ u =
        (name ++ gap) ++ '[' :: (index.text ++ ']' :: (rest.text ++ u)) := by
      simp [text]
    rw [hcut, splitBracket?_plain (plain_of_name_gap hname hgap), hopen, ihIndex hindex, hclose,
      ih hrest, Option.map_map, Option.map_map, Option.map_map, Option.map_map]
    congr 1
    funext p
    simp [text]

theorem subscript?_cell {index : Written} (hgap : isBlankText gap = true)
    (hindex : index.IsProper) (hblank : isBlankText index.text = false) (u : Text) :
    subscript? (gap ++ '[' :: (index.text ++ ']' :: u)) = some (index.text, u) := by
  have hdrop : (gap ++ '[' :: (index.text ++ ']' :: u)).dropWhile isBlank =
      '[' :: (index.text ++ ']' :: u) := by
    rw [dropWhile_append_of_pos (all_eq_true.mp hgap)]
    rfl
  have hsplit : splitBracket? .plain 0 (index.text ++ ']' :: u) = some (index.text, u) := by
    rw [splitBracket?_text hindex]
    simp [splitBracket?]
  rw [subscript?, hdrop]
  simp only [hsplit, hblank, Bool.false_eq_true, if_false]

theorem subscript?_text (he : e.IsProper) : subscript? e.text = none := by
  have hhead : ∀ u, e.text.dropWhile isBlank ≠ '[' :: u := by
    induction e with
    | nil => exact nofun
    | plain c rest ih =>
      intro u
      rw [text, dropWhile_cons]
      split
      · exact ih he.2 u
      · exact fun heq => he.1.2.1 (cons.inj heq).1
    | literal lit rest ih =>
      obtain ⟨inside, rfl, -⟩ := exists_of_isLiteral he.1
      exact nofun
    | cell name gap index rest ihIndex ih =>
      intro u
      cases name with
      | nil => cases he.1
      | cons c name =>
        have hc : isNameStart c = true := (Bool.and_eq_true_iff.mp he.1).1
        rw [text, cons_append, dropWhile_cons,
          if_neg (by rw [(not_blank_of_isNameStart hc).1]; exact Bool.false_ne_true)]
        intro heq
        rw [(cons.inj heq).1] at hc
        cases hc
  unfold subscript?
  split
  · next u hu => exact absurd hu (hhead u)
  · rfl

theorem shift_at_name (hw : isName w = true) (ht : ∀ c, t.head? = some c → isNameChar c = false) :
    shift (w ++ t) =
      match subscript? t with
      | some (index, after) => do
        let lowered ← lowerIndex (← shift index)
        return w ++ '[' :: (lowered ++ ']' :: (← shift after))
      | none => do return w ++ (← shift t) := by
  cases w with
  | nil => cases hw
  | cons c w =>
    obtain ⟨hc, hrest⟩ := Bool.and_eq_true_iff.mp hw
    have hquote : c ≠ '"' := by
      rintro rfl
      cases hc
    have htake : (w ++ t).takeWhile isNameChar = w := by
      rw [takeWhile_append_of_pos (all_eq_true.mp hrest)]
      cases t with
      | nil => simp
      | cons d t => simp [ht d rfl]
    have hdrop : (w ++ t).dropWhile isNameChar = t := by
      rw [dropWhile_append_of_pos (all_eq_true.mp hrest)]
      cases t with
      | nil => rfl
      | cons d t => simp [ht d rfl]
    rw [cons_append, shift, if_neg hquote, if_pos hc]
    split
    · next index after hsome =>
      rw [hdrop] at hsome
      rw [hsome, htake]
      simp
    · next hnone =>
      rw [hdrop] at hnone
      rw [hnone, htake, hdrop]

theorem isNameChar_of_head? (hgap : isBlankText gap = true) {u : Text} {c : Char}
    (hc : (gap ++ '[' :: u).head? = some c) : isNameChar c = false := by
  cases gap with
  | nil =>
    rw [← Option.some.inj hc]
    rfl
  | cons d gap =>
    rw [← Option.some.inj hc]
    exact isNameChar_of_isBlank (all_eq_true.mp hgap d mem_cons_self)

theorem shift_cell {index : Written} (hw : isName w = true) (hgap : isBlankText gap = true)
    (hindex : index.IsProper) (hblank : isBlankText index.text = false) (u : Text) :
    shift (w ++ (gap ++ '[' :: (index.text ++ ']' :: u))) = (do
      let lowered ← lowerIndex (← shift index.text)
      return w ++ '[' :: (lowered ++ ']' :: (← shift u))) := by
  rw [shift_at_name hw fun _ => isNameChar_of_head? hgap, subscript?_cell hgap hindex hblank]

theorem isName_append {v : Text} (hw : isName w = true) (hv : ∀ c ∈ v, isNameChar c = true) :
    isName (w ++ v) = true := by
  cases w with
  | nil => cases hw
  | cons c w =>
    obtain ⟨hc, hrest⟩ := Bool.and_eq_true_iff.mp hw
    rw [cons_append, isName, hc, all_append, hrest, all_eq_true.mpr hv]
    rfl

theorem shift_name (hw : isName w = true) (he : e.IsProper) :
    shift (w ++ e.text) = (do return w ++ (← shift e.text)) := by
  -- What begins with no name character is no part of the name.
  have hend {w t : Text} (hw : isName w = true) (ht : ∀ c, t.head? = some c → isNameChar c = false)
      (hsub : subscript? t = none) : shift (w ++ t) = (do return w ++ (← shift t)) := by
    rw [shift_at_name hw ht, hsub]
  induction e generalizing w with
  | nil => exact hend hw nofun (subscript?_text he)
  | plain c rest ih =>
    by_cases hc : isNameChar c = true
    · have hmore : isName (w ++ [c]) = true :=
        isName_append hw fun d hd => by rwa [mem_singleton.mp hd]
      have hplain : shift (c :: rest.text) = (do return c :: (← shift rest.text)) := by
        cases hstart : isNameStart c with
        | true => exact ih (w := [c]) (by simp [isName, hstart]) he.2
        | false => rw [shift, if_neg he.1.1, hstart, if_neg Bool.false_ne_true]
      rw [text, append_cons, ih hmore he.2, hplain]
      cases shift rest.text with
      | error => rfl
      | ok s =>
        show Except.ok (w ++ [c] ++ s) = Except.ok (w ++ c :: s)
        rw [← append_cons]
    · refine hend hw (fun d hd => ?_) (subscript?_text he)
      rw [← Option.some.inj hd]
      simpa using hc
  | literal lit rest ih =>
    refine hend hw (fun d hd => ?_) (subscript?_text he)
    obtain ⟨inside, rfl, -⟩ := exists_of_isLiteral he.1
    rw [← Option.some.inj hd]
    rfl
  | cell name gap index rest ihIndex ih =>
    obtain ⟨hname, hgap, ⟨hindex, hblank⟩, -⟩ := he
    rw [text, ← append_assoc,
      shift_cell (isName_append hw (isNameChar_of_isName hname)) hgap hindex hblank,
      shift_cell hname hgap hindex hblank]
    cases hinner : shift index.text with
    | error => rfl
    | ok i =>
      show (do let lowered ← lowerIndex i; _) = (do let s ← (do let lowered ← lowerIndex i; _); _)
      cases lowerIndex i with
      | error => rfl
      | ok lowered =>
        cases shift rest.text with
        | error => rfl
        | ok s => exact congrArg Except.ok (append_assoc ..)

theorem shift_text (he : e.IsProper) : shift e.text = e.counted := by
  induction e with
  | nil => rw [text, shift, counted]
  | plain c rest ih =>
    rw [text, counted, ← ih he.2]
    cases hstart : isNameStart c with
    | true => exact shift_name (w := [c]) (by simp [isName, hstart]) he.2
    | false => rw [shift, if_neg he.1.1, hstart, if_neg Bool.false_ne_true]
  | literal lit rest ih =>
    obtain ⟨inside, rfl, hclose⟩ := exists_of_isLiteral he.1
    rw [text, counted, ← ih he.2, cons_append, shift, if_pos rfl,
      splitLiteral_append_of_closesAtEnd hclose]
  | cell name gap index rest ihIndex ih =>
    obtain ⟨hname, hgap, ⟨hindex, hblank⟩, hrest⟩ := he
    rw [text, counted, shift_cell hname hgap hindex hblank, ihIndex hindex, ih hrest]

end Written

/-- For every expression that is written as expressions are: counting its text
from zero gives the text in which each index at each depth has been counted once
and all else stands as before; and it fails only at an index, counted inside,
that is a numeral of too many digits or with a separator beside its digits. -/
theorem shift_text_iff (e : Written) (he : e.IsProper) :
    (∀ s, shift e.text = .ok s ↔ e.Counted s) ∧
      ∀ fault, shift e.text = .error fault → ∃ index ∈ e.indices, ∃ i, index.Counted i ∧
        isNumeral (trim i) = true ∧
          (digitLimit < (trim i).length ∨ ∃ c ∈ i, isSeparator c = true) := by
  rw [Written.shift_text he]
  refine ⟨fun s => Written.counted_eq_ok_iff, fun fault h => ?_⟩
  obtain ⟨index, hindex, i, hcounted, hnumeral, hread⟩ := Written.exists_of_counted_eq_error h
  refine ⟨index, hindex, i, hcounted, hnumeral, ?_⟩
  by_cases hlong : digitLimit < (trim i).length
  · exact .inl hlong
  · refine .inr (Decidable.byContradiction fun hnone => hread ⟨Nat.not_lt.mp hlong, fun c hc => ?_⟩)
    simp only [not_exists, not_and, Bool.not_eq_true] at hnone
    exact hnone c hc

def nestedCells : Written :=
  .cell "x1" "" (.literal "\"]a[\"" (.plain ' ' .nil)) <|
    .plain ' ' <| .plain '+' <| .plain ' ' <|
      .cell "a" " " (.cell "b" "" (.plain '2' .nil) .nil) .nil

/-- A cell whose numeral has a separator behind it. -/
def separatedCell : Written :=
  .cell "a" "" (.plain '5' (.plain '\x1c' .nil)) .nil

theorem shift_text_iff_nestedCells :
    nestedCells.IsProper ∧ nestedCells.Counted "x1[(\"]a[\") - 1] + a[(b[1]) - 1]" ∧
      separatedCell.IsProper ∧
        ∃ index ∈ separatedCell.indices, ∃ i, index.Counted i ∧ isNumeral (trim i) = true ∧
          (digitLimit < (trim i).length ∨ ∃ c ∈ i, isSeparator c = true) := by
  have hnested : shift nestedCells.text = .ok "x1[(\"]a[\") - 1] + a[(b[1]) - 1]" := by
    decide +kernel
  have hseparated : shift separatedCell.text = .error (.separator "5\x1c") := by
    decide +kernel
  have hproper : nestedCells.IsProper := by decide
  have hproper' : separatedCell.IsProper := by decide
  exact ⟨hproper, ((shift_text_iff _ hproper).1 _).mp hnested, hproper',
    (shift_text_iff _ hproper').2 _ hseparated⟩

end Pseudocode.Expression
