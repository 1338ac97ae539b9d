import Pseudocode.Proofs.Expression.Subscripts

/-!
# Literals and operators of a condition

A condition is made in four steps: its subscripts are counted from zero, the
result is cut into segments, the operators of the plain ones become words, and
the whole is trimmed. None of them may touch a literal.

* `Shifted.literals_eq`: counting from zero keeps the literals, also those
  inside an index, and leaves every literal closed.
* `Followed`: what stands behind every occurrence of a character. That no `&&`,
  no `||` and no `!` without `=` is left are three cases of it, so the passes
  over a plain piece need one lemma each (`followed_wordForPair`,
  `followed_wordForNot`).
* `condition_keeps_literals`: both for the whole condition.
-/

namespace Pseudocode.Expression

open Text List Mode

variable {t s : Text} {c q : Char} {skipping : Bool}

/-! ### Literals and subscripts -/

theorem eq_plain_of_after {mode : Mode} (hquote : '"' ∉ t) (h : mode.after t = .plain) :
    mode = .plain := by
  induction t generalizing mode with
  | nil => exact h
  | cons c t ih =>
    have hnext : mode.next c = .plain := ih (fun hmem => hquote (mem_cons_of_mem _ hmem)) h
    by_cases hmode : mode = .plain
    · exact hmode
    · obtain ⟨-, rfl⟩ := eq_of_next_eq_plain hmode hnext
      exact absurd mem_cons_self hquote

theorem exists_blanks_trim (t : Text) :
    ∃ front back : Text, (∀ c ∈ front, isBlank c = true) ∧ (∀ c ∈ back, isBlank c = true) ∧
      t = front ++ (trim t ++ back) := by
  refine ⟨t.takeWhile isBlank, ((t.dropWhile isBlank).reverse.takeWhile isBlank).reverse,
    fun c hc => mem_takeWhile_imp hc, fun c hc => ?_, ?_⟩
  · exact mem_takeWhile_imp (mem_reverse.mp hc)
  · rw [trim, trimEnd, trimStart, ← reverse_append, takeWhile_append_dropWhile,
      reverse_reverse, takeWhile_append_dropWhile]

theorem not_mem_of_blank (h : ∀ c ∈ t, isBlank c = true) : '"' ∉ t :=
  fun hmem => absurd (h _ hmem) (by decide)

theorem literals_trim (h : plain.after t = .plain) :
    plain.after (trim t) = .plain ∧ literals (trim t) = literals t := by
  obtain ⟨front, back, hfront, hback, heq⟩ := exists_blanks_trim t
  have hfrontPlain := after_plain (not_mem_of_blank hfront)
  have hmiddle : plain.after (trim t) = .plain := by
    rw [heq, after_append, hfrontPlain, after_append] at h
    exact eq_plain_of_after (not_mem_of_blank hback) h
  refine ⟨hmiddle, ?_⟩
  conv_rhs => rw [heq]
  rw [literals_append hfrontPlain, literals_append hmiddle, literals_plain (not_mem_of_blank hfront),
    literals_plain (not_mem_of_blank hback), append_nil, nil_append]

theorem literals_lowerIndex {index lowered : Text} (h : lowerIndex index = .ok lowered)
    (hplain : plain.after index = .plain) :
    plain.after lowered = .plain ∧ literals lowered = literals index := by
  by_cases hnumeral : isNumeral (trim index) = true
  · obtain ⟨-, hchars⟩ := lowered_numeral h hnumeral
    have hlowered : '"' ∉ lowered := fun hmem => absurd (hchars _ hmem) (by decide)
    have hindex : '"' ∉ index := fun hmem =>
      absurd (isDigit_of_mem_trim hnumeral hmem (by decide)) (by decide)
    rw [literals_plain hlowered, literals_plain hindex]
    exact ⟨after_plain hlowered, rfl⟩
  · obtain rfl : ("(" ++ trim index ++ ") - 1") = lowered := by
      unfold lowerIndex at h
      rw [if_neg hnumeral] at h
      exact Except.ok.inj h
    obtain ⟨htrim, hliterals⟩ := literals_trim hplain
    have hopen : plain.after "(" = .plain := rfl
    have hinner : plain.after ("(" ++ trim index) = .plain := by
      rw [after_append, hopen, htrim]
    refine ⟨by rw [after_append, hinner]; rfl, ?_⟩
    rw [literals_append hinner, literals_append hopen, hliterals]
    show [] ++ literals index ++ [] = _
    rw [append_nil, nil_append]

theorem literals_of_front {front : Text} (hfront : '"' ∉ front) (t : Text) :
    Mode.plain.after (front ++ t) = Mode.plain.after t ∧ literals (front ++ t) = literals t := by
  rw [after_append, after_plain hfront, literals_append (after_plain hfront), literals_plain hfront]
  exact ⟨rfl, rfl⟩

theorem not_mem_name (h : isNameStart c = true) (t : Text) : '"' ∉ c :: t.takeWhile isNameChar := by
  intro hmem
  rcases mem_cons.mp hmem with rfl | hmem
  · exact absurd h (by decide)
  · exact absurd (mem_takeWhile_imp hmem) (by decide)

theorem Shifted.literals_eq (h : Shifted t s) (hplain : plain.after t = .plain) :
    plain.after s = .plain ∧ literals s = literals t := by
  induction h with
  | nil => exact ⟨rfl, rfl⟩
  | @literal t rest _ ih =>
    obtain ⟨hclose, hrest⟩ := closesAtEnd_splitLiteral (t := t) noConfusion hplain
    have hafter : plain.after ('"' :: (splitLiteral .quoted t).1) = .plain := by
      show Mode.quoted.after _ = _
      exact after_of_closesAtEnd hclose
    have hcut : '"' :: t = ('"' :: (splitLiteral .quoted t).1) ++ (splitLiteral .quoted t).2 := by
      rw [cons_append, splitLiteral_append]
    obtain ⟨hend, hliterals⟩ := ih hrest
    rw [← cons_append, after_append, hafter, literals_append hafter, hcut,
      literals_append hafter, hliterals]
    exact ⟨hend, rfl⟩
  | @cell c t index index' lowered after rest hname hsome _ hlower _ ihIndex ih =>
    obtain ⟨blanks, hblank, hcell, hindex⟩ := subscript?_spec hsome
    have hfront : '"' ∉ c :: t.takeWhile isNameChar ++ (blanks ++ ['[']) := by
      have := not_mem_name hname t
      have := not_mem_of_blank hblank
      simp_all
    have hfront' : '"' ∉ c :: t.takeWhile isNameChar ++ ['['] := by
      simp_all
    have hcut : c :: t =
        (c :: t.takeWhile isNameChar ++ (blanks ++ ['['])) ++ (index ++ ([']'] ++ after)) := by
      conv_lhs => rw [← takeWhile_append_dropWhile (l := t), hcell]
      simp
    have hbracket : '"' ∉ [']'] := by decide
    obtain ⟨hindex', hliterals'⟩ := ihIndex hindex
    obtain ⟨hlowered, hliterals⟩ := literals_lowerIndex hlower hindex'
    have hafter : plain.after after = .plain := by
      rw [hcut, (literals_of_front hfront _).1, after_append, hindex] at hplain
      exact hplain
    obtain ⟨hrest, hliteralsRest⟩ := ih hafter
    have hcut' : c :: (t.takeWhile isNameChar ++ '[' :: (lowered ++ ']' :: rest)) =
        (c :: t.takeWhile isNameChar ++ ['[']) ++ (lowered ++ ([']'] ++ rest)) := by
      simp
    rw [hcut', hcut, (literals_of_front hfront' _).1, (literals_of_front hfront' _).2,
      (literals_of_front hfront _).2, after_append, hlowered, literals_append hlowered,
      literals_append hindex, (literals_of_front hbracket _).2,
      (literals_of_front hbracket _).2, hliterals, hliterals', hliteralsRest]
    exact ⟨hrest, rfl⟩
  | @name c t rest hname _ _ ih =>
    have hfront := not_mem_name hname t
    have hcut : c :: t = (c :: t.takeWhile isNameChar) ++ t.dropWhile isNameChar := by
      rw [cons_append, takeWhile_append_dropWhile]
    rw [← cons_append, (literals_of_front hfront _).1, (literals_of_front hfront _).2]
    rw [hcut, (literals_of_front hfront _).1] at hplain
    conv => rhs; rw [hcut, (literals_of_front hfront _).2]
    exact ih hplain
  | @other c t rest hquote _ _ ih =>
    have hfront : '"' ∉ [c] := by simpa using Ne.symm hquote
    rw [← singleton_append, ← singleton_append (l := t),
      (literals_of_front hfront _).1, (literals_of_front hfront _).2,
      (literals_of_front hfront _).2]
    rw [← singleton_append, (literals_of_front hfront _).1] at hplain
    exact ih hplain

/-! ### What stands behind a character -/

/-- Behind every `q` of the text there is something that satisfies `good`. -/
def Followed (q : Char) (good : Option Char → Prop) (t : Text) : Prop :=
  ∀ front rest : Text, t = front ++ q :: rest → good rest.head?

section Followed

variable {q : Char} {good : Option Char → Prop} {s t : Text}

theorem Followed.of_not_mem (h : q ∉ t) : Followed q good t :=
  fun front rest heq => absurd (by simp [heq]) h

theorem followed_cons : Followed q good (c :: t) ↔ (c = q → good t.head?) ∧ Followed q good t := by
  constructor
  · intro h
    exact ⟨fun hc => h [] t (by rw [hc]; rfl),
      fun front rest heq => h (c :: front) rest (by rw [heq]; rfl)⟩
  · rintro ⟨hhead, htail⟩ front rest heq
    cases front with
    | nil =>
      obtain ⟨rfl, rfl⟩ := cons.inj heq
      exact hhead rfl
    | cons =>
      obtain ⟨-, htl⟩ := cons.inj heq
      exact htail _ _ htl

theorem followed_append (h : q ∉ s) : Followed q good (s ++ t) ↔ Followed q good t := by
  induction s with
  | nil => rfl
  | cons c s ih =>
    have hc : c ≠ q := fun hc => h (hc ▸ mem_cons_self)
    rw [cons_append, followed_cons, ih fun hmem => h (mem_cons_of_mem _ hmem)]
    exact ⟨And.right, fun ht => ⟨fun heq => absurd heq hc, ht⟩⟩

theorem Followed.trimEnd (hgood : ∀ c, isBlank c = true → good (some c) → good none)
    (h : Followed q good t) : Followed q good (trimEnd isBlank t) := by
  intro front rest heq
  have hcut : t = front ++ q :: (rest ++ (t.reverse.takeWhile isBlank).reverse) := by
    rw [← cons_append, ← append_assoc, ← heq, Text.trimEnd, ← reverse_append,
      takeWhile_append_dropWhile, reverse_reverse]
  have hbehind := h front _ hcut
  cases rest with
  | cons c rest => exact hbehind
  | nil =>
    cases hblanks : (t.reverse.takeWhile isBlank).reverse with
    | nil =>
      rw [hblanks] at hbehind
      exact hbehind
    | cons c blanks =>
      have hmem : c ∈ (t.reverse.takeWhile isBlank).reverse := by simp [hblanks]
      rw [hblanks] at hbehind
      exact hgood c (mem_takeWhile_imp (mem_reverse.mp hmem)) hbehind

theorem Followed.dropWhile (p : Char → Bool) (h : Followed q good t) :
    Followed q good (t.dropWhile p) := by
  intro front rest heq
  refine h (t.takeWhile p ++ front) rest ?_
  rw [append_assoc, ← heq, takeWhile_append_dropWhile]

end Followed

/-- No two of the character stand side by side. -/
abbrev Single (q : Char) (t : Text) : Prop :=
  Followed q (· ≠ some q) t

theorem head?_of_append (hs : q ∉ s) (h : (s ++ t).head? = some q) : s = [] ∧ t.head? = some q := by
  cases s with
  | nil => exact ⟨rfl, h⟩
  | cons c s =>
    obtain rfl : c = q := Option.some.inj h
    exact absurd mem_cons_self hs

section Words

variable {q : Char} (hq : isBlank q = false)
variable {held : Text}

include hq

theorem not_mem_blanks (hheld : ∀ c ∈ held, isBlank c = true) : q ∉ held := by
  intro hmem
  rw [hheld q hmem] at hq
  cases hq

theorem head?_wordForPair {op : Char} {word : Text} (hword : q ∉ word) (hne : word ≠ [])
    (hheld : ∀ c ∈ held, isBlank c = true) (hskip : skipping = false)
    (h : (wordForPair op word held skipping t).head? = some q) : held = [] ∧ t.head? = some q := by
  fun_induction wordForPair op word held skipping t with
  | case1 held =>
    rw [← append_nil held] at h
    obtain ⟨-, hnil⟩ := head?_of_append (not_mem_blanks hq hheld) h
    cases hnil
  | case2 held skipping c hcond =>
    rw [hskip, Bool.and_false] at hcond
    cases hcond
  | case3 held skipping c hcond => exact head?_of_append (not_mem_blanks hq hheld) h
  | case4 => cases hskip
  | case5 held skipping c d u hblank hskipping ih =>
    have hheld' : ∀ e ∈ held ++ [c], isBlank e = true := by
      intro e he
      rcases mem_append.mp he with he | he
      · exact hheld e he
      · rw [mem_singleton.mp he, hblank]
    obtain ⟨hnil, -⟩ := ih hheld' rfl h
    simp at hnil
  | case6 held skipping c d u hblank hpair ih => exact absurd (head?_of_append hword h).1 hne
  | case7 held skipping c d u hblank hpair ih =>
    obtain ⟨hnil, hc⟩ := head?_of_append (not_mem_blanks hq hheld) h
    exact ⟨hnil, hc⟩

theorem single_wordForPair {op : Char} {word : Text} (hword : q ∉ word) (hne : word ≠ [])
    (hheld : ∀ c ∈ held, isBlank c = true) (h : q = op ∨ Single q t) :
    Single q (wordForPair op word held skipping t) := by
  have htail {c : Char} {u : Text} (h : q = op ∨ Single q (c :: u)) : q = op ∨ Single q u :=
    h.imp_right fun h => (followed_cons.mp h).2
  fun_induction wordForPair op word held skipping t with
  | case1 | case2 => exact .of_not_mem (not_mem_blanks hq hheld)
  | case3 held skipping c hcond =>
    refine (followed_append (not_mem_blanks hq hheld)).mpr (followed_cons.mpr ⟨fun _ => ?_, ?_⟩)
    · simp
    · exact .of_not_mem not_mem_nil
  | case4 held c d u hblank ih => exact ih hheld (htail h)
  | case5 held skipping c d u hblank hskipping ih =>
    refine ih (fun e he => ?_) (htail h)
    rcases mem_append.mp he with he | he
    · exact hheld e he
    · rw [mem_singleton.mp he, hblank]
  | case6 held skipping c d u hblank hpair ih =>
    exact (followed_append hword).mpr (ih (fun _ he => absurd he not_mem_nil) (htail (htail h)))
  | case7 held skipping c d u hblank hpair ih =>
    have hnil : ∀ e ∈ ([]), isBlank e = true := fun _ he => absurd he not_mem_nil
    refine (followed_append (not_mem_blanks hq hheld)).mpr (followed_cons.mpr ⟨?_, ih hnil (htail h)⟩)
    -- The next character is the one that stood there.
    rintro rfl hhead
    obtain ⟨-, hd⟩ := head?_wordForPair hq hword hne hnil rfl hhead
    rcases h with rfl | h
    · exact hpair ⟨rfl, Option.some.inj hd⟩
    · exact (followed_cons.mp h).1 rfl hd

end Words

theorem head?_wordForNot (hword : q ∉ ("not " : Text))
    (h : (wordForNot false t).head? = some q) : t.head? = some q := by
  cases t with
  | nil => cases h
  | cons c t =>
    rw [wordForNot, Bool.false_and, if_neg Bool.false_ne_true] at h
    split at h
    · exact absurd (head?_of_append hword h).1 (by decide)
    · exact h

theorem single_wordForNot (hword : q ∉ ("not " : Text))
    (h : Single q t) : Single q (wordForNot skipping t) := by
  fun_induction wordForNot skipping t with
  | case1 => exact h
  | case2 skipping c t hcond ih => exact ih (followed_cons.mp h).2
  | case3 skipping c t hcond hnot ih =>
    exact (followed_append hword).mpr (ih (followed_cons.mp h).2)
  | case4 skipping c t hcond hnot ih =>
    obtain ⟨hhead, htail⟩ := followed_cons.mp h
    refine followed_cons.mpr ⟨fun hc heq => ?_, ih htail⟩
    exact hhead hc (head?_wordForNot hword heq)

theorem followed_wordForNot (skipping : Bool) (t : Text) :
    Followed '!' (· = some '=') (wordForNot skipping t) := by
  fun_induction wordForNot skipping t with
  | case1 => exact .of_not_mem not_mem_nil
  | case2 skipping c t hcond ih => exact ih
  | case3 skipping c t hcond hnot ih => exact (followed_append (by decide)).mpr ih
  | case4 skipping c t hcond hnot ih =>
    refine followed_cons.mpr ⟨fun hc => ?_, ih⟩
    have hequals : t.head? = some '=' := Decidable.byContradiction fun hne => hnot ⟨hc, hne⟩
    obtain ⟨u, rfl⟩ : ∃ u, t = '=' :: u := by
      cases t with
      | nil => cases hequals
      | cons d u => exact ⟨u, by rw [Option.some.inj hequals]⟩
    simp [wordForNot]

/-- A plain piece without operators: no `&&`, no `||`, and no `!` without
`=`. -/
structure Worded (t : Text) : Prop where
  conjunction : Single '&' t
  disjunction : Single '|' t
  negation : Followed '!' (· = some '=') t

theorem worded_operatorWords (t : Text) : Worded (operatorWords t) := by
  have hnil : ∀ e ∈ ([]), isBlank e = true := fun _ he => absurd he not_mem_nil
  have hand (c : Char) (hc : isBlank c = false) (hor : c ∉ (" or " : Text))
      (hand : c ∉ (" and " : Text)) (hnot : c ∉ ("not " : Text)) (h : c = '&' ∨ c = '|') :
      Single c (operatorWords t) := by
    refine single_wordForNot hnot (single_wordForPair hc hor (by decide) hnil ?_)
    rcases h with rfl | rfl
    · exact .inr (single_wordForPair hc hand (by decide) hnil (.inl rfl))
    · exact .inl rfl
  exact ⟨hand '&' (by decide) (by decide) (by decide) (by decide) (.inl rfl),
    hand '|' (by decide) (by decide) (by decide) (by decide) (.inr rfl), followed_wordForNot _ _⟩

theorem Worded.trimEnd (h : Worded t) : Worded (trimEnd isBlank t) where
  conjunction := h.conjunction.trimEnd fun _ _ _ => nofun
  disjunction := h.disjunction.trimEnd fun _ _ _ => nofun
  negation := h.negation.trimEnd fun c hblank heq => by
    rw [Option.some.inj heq] at hblank
    cases hblank

theorem Worded.dropWhile (h : Worded t) (p : Char → Bool) : Worded (t.dropWhile p) :=
  ⟨h.conjunction.dropWhile p, h.disjunction.dropWhile p, h.negation.dropWhile p⟩

/-! ### The whole condition -/

def worded (t : Text) : Text :=
  ((segments t).map fun s => if s.isLiteral then s.text else operatorWords s.text).flatten

theorem not_mem_operatorWords (h : '"' ∉ t) : '"' ∉ operatorWords t := by
  have hsolid : isSolid '"' = true := by decide
  have hmem (u : Text) : '"' ∈ solid u ↔ '"' ∈ u := by simp [solid, hsolid]
  rwa [← hmem, solid_operatorWords, hmem]

theorem interleaved_worded {lits : List Text} (h : Interleaved (fun _ => True) lits t) :
    Interleaved Worded lits (worded t) := by
  have hpiece (front : Text) :
      ((plainSegment front).map fun s =>
        if s.isLiteral then s.text else operatorWords s.text).flatten = operatorWords front := by
    cases front <;> simp [plainSegment, operatorWords, wordForPair, wordForNot]
  induction h with
  | @plain front hfront =>
    have hcut : worded front = operatorWords front := by
      rw [worded, segments_plain hfront, hpiece]
    rw [hcut]
    exact .plain (not_mem_operatorWords hfront) (worded_operatorWords front)
  | @literal front lit rest lits hfront _ hlit _ ih =>
    have hcut : worded (front ++ (lit ++ rest)) = operatorWords front ++ (lit ++ worded rest) := by
      rw [worded, segments_literal hfront hlit, map_append, flatten_append, hpiece]
      rfl
    rw [hcut]
    exact .literal (not_mem_operatorWords hfront) (worded_operatorWords front) hlit ih

theorem trimEnd_append (hlast : s.getLast? = some c) (hc : isBlank c = false)
    (t : Text) : trimEnd isBlank (s ++ t) = s ++ trimEnd isBlank t := by
  have hkeep : s.reverse.dropWhile isBlank = s.reverse := by
    rw [← head?_reverse] at hlast
    cases hs : s.reverse with
    | nil => rfl
    | cons d u =>
      rw [hs] at hlast
      rw [dropWhile_cons_of_neg (by rw [Option.some.inj hlast, hc]; exact Bool.noConfusion)]
  rw [trimEnd, trimEnd, reverse_append, dropWhile_append, hkeep]
  split
  · next hempty => simp [isEmpty_iff.mp hempty]
  · rw [reverse_append, reverse_reverse]

theorem literal_ends {lit : Text} (h : isLiteral lit = true) :
    lit.head? = some '"' ∧ lit.getLast? = some '"' := by
  have htext := isLiteralText_of_isLiteral h
  simp only [isLiteralText, Bool.and_eq_true, beq_iff_eq] at htext
  exact ⟨htext.1.2, htext.2⟩

theorem Interleaved.trim {lits : List Text} (h : Interleaved Worded lits t) :
    Interleaved Worded lits (trim t) := by
  have hquote {u v : Text} (hsub : v.Sublist u) (hu : '"' ∉ u) : '"' ∉ v :=
    fun hmem => hu (hsub.subset hmem)
  have hsubEnd (u : Text) : (trimEnd isBlank u).Sublist u := by
    rw [trimEnd, ← reverse_sublist, reverse_reverse]
    exact dropWhile_sublist _
  have hend {lits : List Text} {t : Text} (h : Interleaved Worded lits t) :
      Interleaved Worded lits (trimEnd isBlank t) := by
    induction h with
    | plain hfront hP => exact .plain (hquote (hsubEnd _) hfront) hP.trimEnd
    | @literal front lit rest lits hfront hP hlit _ ih =>
      have hlast : (front ++ lit).getLast? = some '"' := by
        rw [getLast?_append, (literal_ends hlit).2]
        rfl
      rw [← append_assoc, trimEnd_append hlast (by decide), append_assoc]
      exact .literal hfront hP hlit ih
  refine hend ?_
  cases h with
  | plain hfront hP => exact .plain (hquote (dropWhile_sublist _) hfront) (hP.dropWhile _)
  | @literal front lit rest lits hfront hP hlit hrest =>
    have hstart : (lit ++ rest).dropWhile isBlank = lit ++ rest := by
      obtain ⟨inside, rfl, -⟩ := exists_of_isLiteral hlit
      rfl
    have hcut : (front ++ (lit ++ rest)).dropWhile isBlank =
        front.dropWhile isBlank ++ (lit ++ rest) := by
      rw [dropWhile_append, hstart]
      split
      · next hempty => rw [isEmpty_iff.mp hempty]; rfl
      · rfl
    rw [trimStart, hcut]
    exact .literal (hquote (dropWhile_sublist _) hfront) (hP.dropWhile _) hlit hrest

/-- A condition has the literals of the text that it is made of, in order, and
no operator is left in its plain segments. -/
theorem condition_keeps_literals (t s : Text) (hclosed : IsClosed t) (h : condition t = .ok s) :
    literals s = literals t ∧ ∀ seg ∈ segments s, seg.isLiteral = false →
      ¬ ("&&" : Text) <:+: seg.text ∧ ¬ ("||" : Text) <:+: seg.text ∧
        ∀ front rest : Text, seg.text = front ++ '!' :: rest → rest.head? = some '=' := by
  obtain ⟨u, hshift, h⟩ := exists_of_bind_eq_ok h
  obtain rfl : trim (worded u) = s := Except.ok.inj h
  obtain ⟨hafter, hliterals⟩ := (shifted_of_shift hshift).literals_eq (after_of_isClosed hclosed)
  have hpieces := (interleaved_worded (interleaved_of_after hafter)).trim
  refine ⟨hpieces.literals_eq.trans hliterals, fun seg hseg hplain => ?_⟩
  have hworded := hpieces.plain_segments hseg hplain
  have hpair {q : Char} (hsingle : Single q seg.text) : ¬ [q, q] <:+: seg.text := by
    rintro ⟨front, rest, heq⟩
    exact hsingle front (q :: rest) (by rw [← heq]; simp) rfl
  exact ⟨hpair hworded.conjunction, hpair hworded.disjunction, hworded.negation⟩

/-- A text with operators next to its literals, in an index and in a run. -/
def operatorsText : Text :=
  "!!=\"a&&b\"&&& x[\"]!\" || ! y]"

theorem condition_keeps_literals_operatorsText :
    IsClosed operatorsText ∧
      condition operatorsText = .ok "not !=\"a&&b\" and & x[(\"]!\" or not y) - 1]" ∧
      literals "not !=\"a&&b\" and & x[(\"]!\" or not y) - 1]" = literals operatorsText := by
  have hclosed : IsClosed operatorsText := by decide
  have h : condition operatorsText = .ok "not !=\"a&&b\" and & x[(\"]!\" or not y) - 1]" := by
    decide +kernel
  exact ⟨hclosed, h, (condition_keeps_literals _ _ hclosed h).1⟩

end Pseudocode.Expression
