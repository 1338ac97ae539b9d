import Pseudocode.Expression.Condition
import Pseudocode.Proofs.Expression.Segments
import Pseudocode.Proofs.Origins
import Pseudocode.Proofs.Program.Legibility

/-!
# Texts that counting from zero leaves alone

Two kinds of texts are their own translation. A text that is one literal
from its first quote to its last is copied as a whole, and a text without
subscripts outside its literals has nothing to count from zero. The second
is an equivalence: a subscript always leaves a trace.

* `HasSubscript`: somewhere outside the literals there is a `name[index]`.
* `Shifted`: what counting from zero does, by the front of the text. An index
  that is no numeral gets one more minus sign, and no minus sign is ever lost
  (`Shifted.count_le`); a numeral changes its value (`lowered_numeral`).
* `shift_eq_self_iff`: counting from zero changes exactly the texts that have
  a subscript.
* `condition_ne_of_hasSubscript`: so does making a condition of them, which
  also trims and puts words for operators: those touch blanks and a few
  characters that no subscript needs (`solid`).
-/

namespace Pseudocode.Expression

open Text List

variable {c : Char} {index s t : Text}

/-! ### Literals -/

theorem shift_of_isLiteral (h : isLiteral t = true) : shift t = .ok t := by
  obtain ⟨inside, rfl, hclose⟩ := exists_of_isLiteral h
  have hsplit := splitLiteral_append_of_closesAtEnd hclose []
  rw [append_nil] at hsplit
  rw [shift, hsplit, shift]
  show Except.ok ('"' :: inside ++ []) = _
  rw [append_nil]

theorem condition_of_isLiteral (h : isLiteral t = true) : condition t = .ok t := by
  have hshift := shift_of_isLiteral h
  have htext := isLiteralText_of_isLiteral h
  obtain ⟨inside, rfl, hclose⟩ := exists_of_isLiteral h
  have hsegments : segments ('"' :: inside) = [⟨true, '"' :: inside⟩] := by
    have hcut := segments_literal not_mem_nil h []
    rwa [append_nil] at hcut
  have htrim : trim ('"' :: inside) = '"' :: inside := by
    refine trim_eq_self (fun c hc => ?_) fun c hc => ?_
    · rw [← Option.some.inj hc]
      decide
    · have hlast : ('"' :: inside).getLast? = some '"' := by simp_all [isLiteralText]
      rw [← Option.some.inj (hlast.symm.trans hc)]
      decide
  rw [condition, hshift]
  show Except.ok (trim _) = _
  rw [hsegments]
  simp [htrim]

/-! ### Subscripts -/

inductive HasSubscript : Text → Prop
  /-- After a name that is taken as long as possible. -/
  | here {c : Char} {t : Text} (hname : isNameStart c = true)
      (hsome : (subscript? (t.dropWhile isNameChar)).isSome = true) : HasSubscript (c :: t)
  /-- Behind a name without a subscript. -/
  | afterName {c : Char} {t : Text} (hname : isNameStart c = true)
      (h : HasSubscript (t.dropWhile isNameChar)) : HasSubscript (c :: t)
  | afterLiteral {t : Text} (h : HasSubscript (splitLiteral .quoted t).2) : HasSubscript ('"' :: t)
  /-- Behind anything else. -/
  | after {c : Char} {t : Text} (hquote : c ≠ '"') (hname : isNameStart c = false)
      (h : HasSubscript t) : HasSubscript (c :: t)

theorem shift_of_not_hasSubscript (h : ¬ HasSubscript t) : shift t = .ok t := by
  fun_induction shift t with
  | case1 => rfl
  | case2 t ih =>
    rw [ih fun hs => h (.afterLiteral hs)]
    exact congrArg Except.ok (congrArg ('"' :: ·) (splitLiteral_append .quoted t))
  | case3 c t hquote hname index after hsome => exact absurd (.here hname (by rw [hsome]; rfl)) h
  | case4 c t hquote hname hnone ih =>
    rw [ih fun hs => h (.afterName hname hs)]
    exact congrArg Except.ok (congrArg (c :: ·) (takeWhile_append_dropWhile ..))
  | case5 c t hquote hname ih =>
    rw [ih fun hs => h (.after hquote (by simpa using hname) hs)]
    rfl

/-! ### What a subscript leaves behind -/

theorem splitBracket?_spec {mode : Mode} {depth : Nat} {inner rest : Text}
    (h : splitBracket? mode depth t = some (inner, rest)) :
    t = inner ++ ']' :: rest ∧ mode.after inner = .plain := by
  induction t generalizing mode depth inner with
  | nil => cases h
  | cons c t ih =>
    rw [splitBracket?] at h
    split at h
    · next hclose =>
      cases h
      rw [hclose.2.1]
      exact ⟨rfl, hclose.1⟩
    · obtain ⟨⟨inner', rest'⟩, hinner, heq⟩ := Option.map_eq_some_iff.mp h
      obtain ⟨rfl, rfl⟩ := Prod.mk.inj heq
      exact ⟨congrArg (c :: ·) (ih hinner).1, (ih hinner).2⟩

theorem subscript?_spec {rest : Text} (h : subscript? t = some (index, rest)) :
    ∃ blanks : Text, (∀ c ∈ blanks, isBlank c = true) ∧
      t = blanks ++ '[' :: (index ++ ']' :: rest) ∧ Mode.plain.after index = .plain := by
  refine ⟨t.takeWhile isBlank, fun c hc => mem_takeWhile_imp hc, ?_⟩
  unfold subscript? at h
  split at h
  · next inside hinside =>
    split at h
    · next index' rest' hsplit =>
      split at h
      · cases h
      · cases h
        obtain ⟨heq, hafter⟩ := splitBracket?_spec hsplit
        rw [← heq, ← hinside]
        exact ⟨(takeWhile_append_dropWhile ..).symm, hafter⟩
    · cases h
  · cases h

theorem filter_dropWhile {p q : Char → Bool} (h : ∀ c, p c = true → q c = false) (t : Text) :
    (t.dropWhile p).filter q = t.filter q := by
  have hfront : (t.takeWhile p).filter q = [] := by
    refine filter_eq_nil_iff.mpr fun c hc => ?_
    rw [h c (mem_takeWhile_imp hc)]
    exact Bool.noConfusion
  conv_rhs => rw [← takeWhile_append_dropWhile (p := p) (l := t)]
  rw [filter_append, hfront, nil_append]

theorem filter_trim {q : Char → Bool} (h : ∀ c, isBlank c = true → q c = false) (t : Text) :
    (trim t).filter q = t.filter q := by
  rw [trim, trimEnd, filter_reverse, filter_dropWhile h, filter_reverse,
    reverse_reverse, trimStart, filter_dropWhile h]

theorem count_trim (hc : isBlank c = false) (t : Text) : (trim t).count c = t.count c := by
  have hfilter (u : Text) : (u.filter fun c => !isBlank c).count c = u.count c :=
    count_filter (by rw [hc]; rfl)
  rw [← hfilter, filter_trim fun c hc => by rw [hc]; rfl, hfilter]

theorem count_lowerIndex {lowered : Text} (h : lowerIndex index = .ok lowered) :
    (isNumeral (trim index) = true ∧ index.count '-' = 0) ∨
      (isNumeral (trim index) = false ∧ lowered.count '-' = index.count '-' + 1) := by
  unfold lowerIndex at h
  dsimp only at h
  split at h
  · next hnumeral =>
    refine .inl ⟨hnumeral, ?_⟩
    rw [← count_trim (by decide)]
    refine count_eq_zero.mpr fun hmem => ?_
    rw [isNumeral, Bool.and_eq_true, all_eq_true] at hnumeral
    exact absurd (hnumeral.2 _ hmem) (by decide)
  · next hnumeral =>
    cases h
    refine .inr ⟨by simpa using hnumeral, ?_⟩
    rw [count_append, count_append, count_trim (by decide)]
    show 0 + _ + 1 = _
    rw [Nat.zero_add]

inductive Shifted : Text → Text → Prop
  | nil : Shifted [] []
  | literal {t rest : Text} (h : Shifted (splitLiteral .quoted t).2 rest) :
      Shifted ('"' :: t) ('"' :: ((splitLiteral .quoted t).1 ++ rest))
  | cell {c : Char} {t index index' lowered after rest : Text} (hname : isNameStart c = true)
      (hsome : subscript? (t.dropWhile isNameChar) = some (index, after))
      (hindex : Shifted index index') (hlower : lowerIndex index' = .ok lowered)
      (h : Shifted after rest) :
      Shifted (c :: t) (c :: (t.takeWhile isNameChar ++ '[' :: (lowered ++ ']' :: rest)))
  | name {c : Char} {t rest : Text} (hname : isNameStart c = true)
      (hnone : subscript? (t.dropWhile isNameChar) = none)
      (h : Shifted (t.dropWhile isNameChar) rest) :
      Shifted (c :: t) (c :: (t.takeWhile isNameChar ++ rest))
  | other {c : Char} {t rest : Text} (hquote : c ≠ '"') (hname : isNameStart c = false)
      (h : Shifted t rest) : Shifted (c :: t) (c :: rest)

theorem shifted_of_shift (h : shift t = .ok s) : Shifted t s := by
  fun_induction shift t generalizing s with
  | case1 =>
    cases h
    exact .nil
  | case2 t ih =>
    obtain ⟨rest, hrest, rfl⟩ := exists_of_return_eq_ok h
    exact .literal (ih hrest)
  | case3 c t hquote hname index after hsome ihIndex ihAfter =>
    obtain ⟨index', hindex, h⟩ := exists_of_bind_eq_ok h
    obtain ⟨lowered, hlower, h⟩ := exists_of_bind_eq_ok h
    obtain ⟨rest, hrest, rfl⟩ := exists_of_return_eq_ok h
    have hcell := Shifted.cell hname hsome (ihIndex hindex) hlower (ihAfter hrest)
    simpa using hcell
  | case4 c t hquote hname hnone ih =>
    obtain ⟨rest, hrest, rfl⟩ := exists_of_return_eq_ok h
    exact .name hname hnone (ih hrest)
  | case5 c t hquote hname ih =>
    obtain ⟨rest, hrest, rfl⟩ := exists_of_return_eq_ok h
    exact .other hquote (by simpa using hname) (ih hrest)

theorem count_subscript {after : Text} (h : subscript? t = some (index, after)) :
    t.count '-' = index.count '-' + after.count '-' := by
  obtain ⟨blanks, hblank, rfl, -⟩ := subscript?_spec h
  have hfront : blanks.count '-' = 0 :=
    count_eq_zero.mpr fun hmem => absurd (hblank _ hmem) (by decide)
  simp [hfront]

theorem Shifted.count_le (h : Shifted t s) : t.count '-' ≤ s.count '-' := by
  have hsplit (p : Char → Bool) (t : Text) :
      t.count '-' = (t.takeWhile p).count '-' + (t.dropWhile p).count '-' := by
    rw [← count_append, takeWhile_append_dropWhile]
  induction h with
  | nil => exact Nat.le_refl _
  | @literal t rest h ih =>
    have hsum := congrArg (count '-') (splitLiteral_append .quoted t)
    rw [count_append] at hsum
    simp only [count_cons, count_append]
    omega
  | @cell c t index index' lowered after rest hname hsome hindex hlower h ihIndex ih =>
    have hcell := count_subscript hsome
    have hname := hsplit isNameChar t
    have hlowered : index'.count '-' ≤ lowered.count '-' := by
      obtain ⟨-, hzero⟩ | ⟨-, hmore⟩ := count_lowerIndex hlower <;> omega
    simp only [count_cons, count_append]
    omega
  | @name c t rest hname hnone h ih =>
    have hname := hsplit isNameChar t
    simp only [count_cons, count_append]
    omega
  | other =>
    simp only [count_cons]
    omega

theorem Shifted.eq_of_plain (h : Shifted t s)
    (hplain : ∀ c ∈ s, c ≠ '"' ∧ isNameStart c = false) : s = t := by
  induction h with
  | nil => rfl
  | literal => exact absurd rfl (hplain _ mem_cons_self).1
  | cell hname | name hname =>
    have hstart := (hplain _ mem_cons_self).2
    rw [hname] at hstart
    cases hstart
  | other hquote hname h ih => rw [ih fun c hc => hplain c (mem_cons_of_mem _ hc)]

/-! ### Numerals -/

theorem isNameChar_of_isName {name : Text} (h : isName name = true) :
    ∀ c ∈ name, isNameChar c = true := by
  intro c hc
  cases name with
  | nil => cases h
  | cons d name =>
    rw [isName, Bool.and_eq_true] at h
    rcases mem_cons.mp hc with rfl | hc
    · have hstart := h.1
      rw [isNameStart, Bool.or_eq_true] at hstart
      rw [isNameChar, Char.isAlphanum, Bool.or_eq_true, Bool.or_eq_true]
      exact hstart.imp_left .inl
    · exact all_eq_true.mp h.2 c hc

theorem digit?_of_mem_ofNat {n : Nat} (h : c ∈ ofNat n) :
    digit? c = some (c.toNat - '0'.toNat) := by
  have hascii := Nat.isDigit_of_mem_toDigits (by decide) (by decide) h
  have hrange : 48 ≤ c.toNat ∧ c.toNat < 58 := by
    simp only [Char.isDigit, UInt32.le_iff_toNat_le] at hascii
    simp at hascii
    omega
  simp [digit?, digitZeros, hrange]

theorem numeralValue_ofNat (n : Nat) : numeralValue (ofNat n) = n := by
  have hfold : numeralValue (ofNat n) = Nat.ofDigitChars 10 (Nat.toDigits 10 n) 0 :=
    foldl_ext _ _ _ fun a c hc => by rw [digit?_of_mem_ofNat hc]; rfl
  rw [hfold, Nat.ofDigitChars_ten_toDigits]

theorem isDigit_of_mem_trim (h : isNumeral (trim t) = true) (hc : c ∈ t)
    (hblank : isBlank c = false) : isDigit c = true := by
  rw [isNumeral, Bool.and_eq_true, all_eq_true] at h
  refine h.2 c (count_pos_iff.mp ?_)
  rw [count_trim hblank]
  exact count_pos_iff.mpr hc

/-- A character that neither trimming nor the words for operators put in or
take away. -/
def isSolid (c : Char) : Bool :=
  !isBlank c && !("&|!andort" : Text).contains c

/-- The text without what trimming and the words for operators change. -/
def solid (t : Text) : Text :=
  t.filter isSolid

theorem isSolid_of_isBlank (h : isBlank c = true) : isSolid c = false := by
  simp [isSolid, h]

theorem solid_append (s t : Text) : solid (s ++ t) = solid s ++ solid t :=
  filter_append ..

theorem solid_cons (h : isSolid c = true) (t : Text) : solid (c :: t) = c :: solid t :=
  filter_cons_of_pos h

theorem solid_blanks (h : ∀ c ∈ t, isBlank c = true) : solid t = [] :=
  filter_eq_nil_iff.mpr fun c hc => by simp [isSolid_of_isBlank (h c hc)]

theorem isSolid_of_isDigit (h : isDigit c = true) : isSolid c = true := by
  simpa using eq_false_of_isDigit (p := (!isSolid ·)) (by decide +kernel) h

theorem solid_of_isNumeral (h : isNumeral (trim t) = true) : solid t = trim t := by
  rw [isNumeral, Bool.and_eq_true, all_eq_true] at h
  rw [solid, ← filter_trim (fun c => isSolid_of_isBlank), filter_eq_self]
  exact fun c hc => isSolid_of_isDigit (h.2 c hc)

theorem lowered_numeral {lowered : Text} (h : lowerIndex index = .ok lowered)
    (hnumeral : isNumeral (trim index) = true) :
    lowered ≠ trim index ∧ ∀ c ∈ lowered, c = '-' ∨ isDigit c = true := by
  unfold lowerIndex at h
  rw [if_pos hnumeral] at h
  have hlowered : lowered = ofInt (numeralValue (trim index) - 1) := by
    split at h
    · cases h
    · split at h
      · cases h
      · exact (Except.ok.inj h).symm
  cases hvalue : numeralValue (trim index) with
  | zero =>
    have hminus : lowered = "-1" := by
      rw [hlowered, hvalue]
      rfl
    have hsigned : ("-1" : Text).all (fun c => c == '-' || isDigit c) = true := by decide
    refine ⟨fun he => ?_, fun c hc => ?_⟩
    · rw [← he, hminus] at hnumeral
      exact absurd hnumeral (by decide)
    · rw [hminus] at hc
      simpa using all_eq_true.mp hsigned c hc
  | succ n =>
    have hdigits : lowered = ofNat n := by
      rw [hlowered, hvalue]
      rw [show ((n + 1 : Nat) - 1) = Int.ofNat n by simp]
      rfl
    refine ⟨fun he => ?_, fun c hc => .inr ?_⟩
    · rw [← he, hdigits, numeralValue_ofNat] at hvalue
      omega
    · rw [isDigit, digit?_of_mem_ofNat (hdigits ▸ hc)]
      rfl

/-! ### The texts that change -/

theorem eq_of_append_bracket {s' t' : Text} (hs : ']' ∉ s) (ht : ']' ∉ t)
    (h : s ++ ']' :: s' = t ++ ']' :: t') : s = t := by
  have hfront (u v : Text) (hu : ']' ∉ u) : (u ++ ']' :: v).takeWhile (· != ']') = u := by
    have hall : ∀ c ∈ u, (c != ']') = true := by
      intro c hc
      exact bne_iff_ne.mpr fun he => hu (he ▸ hc)
    rw [takeWhile_append_of_pos hall]
    simp
  rw [← hfront s s' hs, h, hfront t t' ht]

theorem cell_changes {index' lowered after rest : Text}
    (hsome : subscript? t = some (index, after)) (hindex : Shifted index index')
    (hlower : lowerIndex index' = .ok lowered) (hrest : Shifted after rest) :
    solid ('[' :: (lowered ++ ']' :: rest)) ≠ solid t := by
  intro heq
  obtain ⟨blanks, hblank, rfl, -⟩ := subscript?_spec hsome
  have hbracket : isSolid ']' = true := by decide
  rw [solid_append, solid_blanks hblank, solid_cons (by decide),
    solid_cons (by decide), solid_append, solid_append] at heq
  have hinside : solid lowered ++ ']' :: solid rest = solid index ++ ']' :: solid after :=
    (cons.inj heq).2
  obtain ⟨hnumeral, -⟩ | ⟨-, hmore⟩ := count_lowerIndex hlower
  · -- Around a numeral there are only blanks, so both indices end at their first bracket.
    have hplain : ∀ c ∈ index', c ≠ '"' ∧ isNameStart c = false := by
      intro c hc
      constructor
      · rintro rfl
        exact absurd (isDigit_of_mem_trim hnumeral hc (by decide)) (by decide)
      · cases hname : isNameStart c with
        | false => rfl
        | true =>
          obtain ⟨hblank, hdigit⟩ := not_blank_of_isNameStart hname
          rw [isDigit_of_mem_trim hnumeral hc hblank] at hdigit
          cases hdigit
    obtain rfl := hindex.eq_of_plain hplain
    obtain ⟨hne, hchars⟩ := lowered_numeral hlower hnumeral
    have hlowered : solid lowered = lowered := by
      refine filter_eq_self.mpr fun c hc => ?_
      rcases hchars c hc with rfl | hdigit
      · decide
      · exact isSolid_of_isDigit hdigit
    rw [hlowered, solid_of_isNumeral hnumeral] at hinside
    refine hne (eq_of_append_bracket (fun hc => ?_) (fun hc => ?_) hinside)
    · exact absurd (hchars _ hc) (by decide)
    · rw [isNumeral, Bool.and_eq_true, all_eq_true] at hnumeral
      exact absurd (hnumeral.2 _ hc) (by decide)
  · have hcount (u : Text) : (solid u).count '-' = u.count '-' := count_filter (by decide)
    have hsigns := congrArg (count '-') hinside
    have hle := hindex.count_le
    have hle' := hrest.count_le
    simp only [count_append, count_cons, hcount] at hsigns
    omega

theorem Shifted.solid_ne (h : Shifted t s) (hs : HasSubscript t) : solid s ≠ solid t := by
  have hquoteName : isNameStart '"' = false := by decide
  have hfront {c : Char} {front rest t : Text} (heq : solid (c :: (front ++ rest)) = solid (c :: t))
      {rest' : Text} (ht : front ++ rest' = t) : solid rest = solid rest' := by
    rw [← ht, ← cons_append, ← cons_append, solid_append, solid_append] at heq
    exact append_cancel_left heq
  induction h with
  | nil => cases hs
  | @literal t rest h ih =>
    intro heq
    cases hs with
    | here hname | afterName hname =>
      cases hname
    | after hquote => exact hquote rfl
    | afterLiteral hs => exact ih hs (hfront heq (splitLiteral_append .quoted t))
  | @cell c t index index' lowered after rest hname hsome hindex hlower h _ _ =>
    intro heq
    exact cell_changes hsome hindex hlower h (hfront heq (takeWhile_append_dropWhile ..))
  | @name c t rest hname hnone h ih =>
    intro heq
    cases hs with
    | here _ hsome =>
      rw [hnone] at hsome
      cases hsome
    | afterName _ hs => exact ih hs (hfront heq (takeWhile_append_dropWhile ..))
    | afterLiteral =>
      cases hname
    | after _ hname' =>
      rw [hname] at hname'
      cases hname'
  | other hquote hname h ih =>
    intro heq
    cases hs with
    | here hname' | afterName hname' =>
      rw [hname] at hname'
      cases hname'
    | afterLiteral => exact hquote rfl
    | after _ _ hs => exact ih hs (hfront heq (nil_append _))

theorem shift_eq_self_iff (t : Text) : shift t = .ok t ↔ ¬ HasSubscript t :=
  ⟨fun h hs => (shifted_of_shift h).solid_ne hs rfl, shift_of_not_hasSubscript⟩

/-! ### Conditions -/

theorem solid_cons_of_not (h : isSolid c = false) (t : Text) : solid (c :: t) = solid t :=
  filter_cons_of_neg (by rw [h]; exact Bool.noConfusion)

theorem solid_wordForPair {op : Char} {word : Text} (hop : isSolid op = false)
    (hword : solid word = []) {held : Text} (hheld : solid held = []) (skipping : Bool) (t : Text) :
    solid (wordForPair op word held skipping t) = solid t := by
  have hkeep {c : Char} {t u : Text} (h : solid t = solid u) : solid (c :: t) = solid (c :: u) := by
    rw [← singleton_append, solid_append, h, ← solid_append, singleton_append]
  fun_induction wordForPair op word held skipping t with
  | case1 => exact hheld
  | case2 held skipping c hblank =>
    rw [Bool.and_eq_true] at hblank
    rw [hheld, solid_cons_of_not (isSolid_of_isBlank hblank.1)]
    rfl
  | case3 held skipping c hblank => rw [solid_append, hheld, nil_append]
  | case4 held c d u hblank ih => rw [ih hheld, solid_cons_of_not (isSolid_of_isBlank hblank)]
  | case5 held skipping c d u hblank hskip ih =>
    have hsolid := isSolid_of_isBlank hblank
    have hmore : solid (held ++ [c]) = [] := by
      rw [solid_append, hheld, solid_cons_of_not hsolid]
      rfl
    rw [ih hmore, solid_cons_of_not hsolid]
  | case6 held skipping c d u hblank hpair ih =>
    rw [solid_append, hword, nil_append, ih rfl, hpair.1, hpair.2, solid_cons_of_not hop,
      solid_cons_of_not hop]
  | case7 held skipping c d u hblank hpair ih =>
    rw [solid_append, hheld, nil_append, hkeep (ih rfl)]

theorem solid_wordForNot (skipping : Bool) (t : Text) :
    solid (wordForNot skipping t) = solid t := by
  fun_induction wordForNot skipping t with
  | case1 => rfl
  | case2 skipping c t hblank ih =>
    rw [Bool.and_eq_true] at hblank
    rw [ih, solid_cons_of_not (isSolid_of_isBlank hblank.2)]
  | case3 skipping c t hblank hnot ih =>
    rw [solid_append, ih, hnot.1]
    rfl
  | case4 skipping c t hblank hnot ih =>
    rw [← singleton_append, solid_append, ih, ← solid_append]
    rfl

theorem solid_operatorWords (t : Text) : solid (operatorWords t) = solid t := by
  rw [operatorWords, solid_wordForNot, solid_wordForPair (by decide) (by decide) rfl,
    solid_wordForPair (by decide) (by decide) rfl]

theorem solid_condition (h : condition t = .ok s) : ∃ u, shift t = .ok u ∧ solid s = solid u := by
  obtain ⟨u, hshift, rfl⟩ := exists_of_return_eq_ok h
  refine ⟨u, hshift, ?_⟩
  have hpieces (segs : List Segment) :
      solid (segs.map fun s => if s.isLiteral then s.text else operatorWords s.text).flatten =
        solid (segs.map Segment.text).flatten := by
    induction segs with
    | nil => rfl
    | cons seg rest ih =>
      rw [map_cons, flatten_cons, map_cons, flatten_cons, solid_append, solid_append]
      congr 1
      split
      · rfl
      · exact solid_operatorWords _
  have htrim (v : Text) : solid (trim v) = solid v := filter_trim (fun c => isSolid_of_isBlank) v
  rw [htrim, hpieces, flatten_segments]

theorem condition_ne_of_hasSubscript (h : HasSubscript t) : condition t ≠ .ok t := by
  intro heq
  obtain ⟨u, hshift, hsolid⟩ := solid_condition heq
  exact (shifted_of_shift hshift).solid_ne h hsolid.symm

end Pseudocode.Expression
