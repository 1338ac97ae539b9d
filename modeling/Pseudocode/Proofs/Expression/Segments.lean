import Pseudocode.Expression.Literal

/-!
# Texts as plain pieces and literals in turn

The cut of a text into segments is made character by character, with the
segment collected so far. Two views of it are easier to reason about.

* `isLiteral`: the text is exactly one literal, which is closed.
* `tagged`: every character with whether it stands in a literal. Tags are found
  one character at a time (`tagged_eq_tagsFrom`), so a scanner of another make can
  be compared with the cut.
* `Interleaved`: a text whose literals are all closed is plain text, or plain
  text, one complete literal, and such a text again (`interleaved_of_after`).
  `Interleaved.literals_eq` and `Interleaved.plain_segments` read the cut off
  this view.
-/

namespace Pseudocode.Expression

open Text List Mode

variable {c : Char} {front : Text} {mode : Mode}
variable {t : Text}

/-! ### Literals -/

/-- The literal that a position is in closes with the last character. -/
def closesAtEnd : Mode → Text → Bool
  | .plain, t => t.isEmpty
  | _, [] => false
  | mode, c :: t => closesAtEnd (mode.next c) t

def isLiteral : Text → Bool
  | '"' :: t => closesAtEnd .quoted t
  | _ => false

theorem exists_of_isLiteral (h : isLiteral t = true) :
    ∃ inside, t = '"' :: inside ∧ closesAtEnd .quoted inside = true := by
  unfold isLiteral at h
  split at h
  · exact ⟨_, rfl, h⟩
  · cases h

theorem closesAtEnd_cases (hmode : mode ≠ .plain) (h : closesAtEnd mode (c :: t) = true) :
    (mode = .quoted ∧ c = '"' ∧ t = []) ∨
      (mode.next c ≠ .plain ∧ closesAtEnd (mode.next c) t = true) := by
  cases mode with
  | plain => exact absurd rfl hmode
  | quoted =>
    by_cases hc : c = '"'
    · subst hc
      exact .inl ⟨rfl, rfl, isEmpty_iff.mp (by simpa [closesAtEnd, Mode.next] using h)⟩
    · refine .inr ⟨?_, h⟩
      simp only [Mode.next, if_neg hc]
      split <;> exact noConfusion
  | escaped => exact .inr ⟨noConfusion, h⟩

theorem getLast?_of_closesAtEnd (hmode : mode ≠ .plain)
    (h : closesAtEnd mode t = true) : t.getLast? = some '"' := by
  induction t generalizing mode with
  | nil => cases mode <;> simp_all [closesAtEnd]
  | cons c t ih =>
    obtain ⟨-, rfl, rfl⟩ | ⟨hnext, hrest⟩ := closesAtEnd_cases hmode h
    · rfl
    · rw [getLast?_cons, ih hnext hrest]
      rfl

theorem isLiteralText_of_isLiteral (h : isLiteral t = true) : isLiteralText t = true := by
  obtain ⟨inside, rfl, hclose⟩ := exists_of_isLiteral h
  have hlast := getLast?_of_closesAtEnd Mode.noConfusion hclose
  cases inside with
  | nil => cases hlast
  | cons => simpa [isLiteralText] using hlast

theorem splitLiteral_append_of_closesAtEnd {inside : Text}
    (h : closesAtEnd mode inside = true) (u : Text) : splitLiteral mode (inside ++ u) = (inside, u) := by
  induction inside generalizing mode with
  | nil =>
    cases mode with
    | plain => cases u <;> rfl
    | quoted | escaped => cases h
  | cons c inside ih =>
    cases mode with
    | plain => cases h
    | quoted | escaped => simp [splitLiteral, ih h]

theorem splitLiteral_append (mode : Mode) (t : Text) :
    (splitLiteral mode t).1 ++ (splitLiteral mode t).2 = t := by
  induction t generalizing mode with
  | nil => cases mode <;> rfl
  | cons c t ih =>
    cases mode with
    | plain => rfl
    | quoted | escaped => exact congrArg (c :: ·) (ih _)

/-! ### Positions -/

def Mode.after (mode : Mode) (t : Text) : Mode :=
  t.foldl Mode.next mode

def IsClosed (t : Text) : Prop :=
  ∀ s ∈ segments t, s.isLiteral = true → isLiteral s.text = true

instance (t : Text) : Decidable (IsClosed t) :=
  inferInstanceAs (Decidable (∀ s ∈ segments t, s.isLiteral = true → isLiteral s.text = true))

theorem after_of_closesAtEnd (h : closesAtEnd mode t = true) : mode.after t = .plain := by
  induction t generalizing mode with
  | nil =>
    cases mode with
    | plain => rfl
    | quoted | escaped => cases h
  | cons c t ih =>
    cases mode with
    | plain => cases h
    | quoted | escaped => exact ih h

theorem segmentsFrom_cons_inside (hmode : mode ≠ .plain)
    (hnext : mode.next c ≠ .plain) (collected t : Text) :
    segmentsFrom mode collected (c :: t) = segmentsFrom (mode.next c) (collected ++ [c]) t := by
  cases mode with
  | plain => exact absurd rfl hmode
  | escaped => rfl
  | quoted =>
    cases hq : Mode.quoted.next c with
    | plain => exact absurd hq hnext
    | quoted | escaped => simp [segmentsFrom, hq]

theorem eq_of_next_eq_plain (hmode : mode ≠ .plain)
    (h : mode.next c = .plain) : mode = .quoted ∧ c = '"' := by
  cases mode with
  | plain => exact absurd rfl hmode
  | escaped => cases h
  | quoted =>
    refine ⟨rfl, Decidable.byContradiction fun hc => ?_⟩
    simp only [Mode.next, if_neg hc] at h
    split at h <;> cases h

/-- If the literals cut off from here on are closed, the text ends outside
them. `inside` is what has been collected of a literal behind its quote. -/
theorem after_of_closed (mode : Mode) (collected inside t : Text)
    (hinside : mode ≠ .plain → collected = '"' :: inside ∧ Mode.quoted.after inside = mode)
    (h : ∀ s ∈ segmentsFrom mode collected t, s.isLiteral = true → isLiteral s.text = true) :
    mode.after t = .plain := by
  induction t generalizing mode collected inside with
  | nil =>
    by_cases hmode : mode = .plain
    · exact hmode
    · obtain ⟨rfl, hafter⟩ := hinside hmode
      have hclosed : isLiteral ('"' :: inside) = true :=
        h ⟨true, '"' :: inside⟩ (by simp [segmentsFrom, hmode]) rfl
      exact hafter.symm.trans (after_of_closesAtEnd hclosed)
  | cons c t ih =>
    by_cases hmode : mode = .plain
    · subst hmode
      by_cases hc : c = '"'
      · subst hc
        refine ih .quoted ['"'] [] (fun _ => ⟨rfl, rfl⟩) fun s hs => h s ?_
        exact mem_append_right _ hs
      · have hnext : Mode.plain.next c = .plain := if_neg hc
        show (Mode.plain.next c).after t = _
        rw [hnext]
        refine ih .plain (collected ++ [c]) [] (fun hne => absurd rfl hne) ?_
        simpa [segmentsFrom, hnext] using h
    · by_cases hnext : mode.next c = .plain
      · obtain ⟨rfl, rfl⟩ := eq_of_next_eq_plain hmode hnext
        refine ih .plain [] [] (fun hne => absurd rfl hne) fun s hs => h s ?_
        exact mem_cons_of_mem _ hs
      · obtain ⟨rfl, hafter⟩ := hinside hmode
        rw [segmentsFrom_cons_inside hmode hnext] at h
        refine ih (mode.next c) _ (inside ++ [c]) (fun _ => ⟨rfl, ?_⟩) h
        rw [← hafter]
        exact foldl_append ..

theorem after_of_isClosed (h : IsClosed t) : Mode.plain.after t = .plain :=
  after_of_closed .plain [] [] t (fun hne => absurd rfl hne) h

/-! ### Tags -/

def tagged (t : Text) : List (Char × Bool) :=
  (segments t).flatMap fun s => s.text.map (·, s.isLiteral)

/-- The tags, for a position in the given mode. An opening quote belongs to
its literal. -/
def tagsFrom (mode : Mode) : Text → List (Char × Bool)
  | [] => []
  | c :: t => (c, decide (mode ≠ .plain ∨ c = '"')) :: tagsFrom (mode.next c) t

theorem flatMap_segmentsFrom (mode : Mode) (collected t : Text) :
    ((segmentsFrom mode collected t).flatMap fun s => s.text.map (·, s.isLiteral)) =
      collected.map (·, decide (mode ≠ .plain)) ++ tagsFrom mode t := by
  have hplain (collected : Text) :
      ((plainSegment collected).flatMap fun s => s.text.map (·, s.isLiteral)) =
        collected.map (·, false) := by
    cases collected <;> simp [plainSegment]
  induction t generalizing mode collected with
  | nil => by_cases hmode : mode = .plain <;> simp [segmentsFrom, tagsFrom, hmode, hplain]
  | cons c t ih =>
    by_cases hmode : mode = .plain
    · subst hmode
      by_cases hc : c = '"'
      · subst hc
        simp [segmentsFrom, tagsFrom, Mode.next, hplain, ih]
      · simp [segmentsFrom, tagsFrom, Mode.next, hc, ih]
    · by_cases hnext : mode.next c = .plain
      · obtain ⟨rfl, rfl⟩ := eq_of_next_eq_plain hmode hnext
        simp [segmentsFrom, tagsFrom, Mode.next, ih]
      · rw [segmentsFrom_cons_inside hmode hnext, ih]
        simp [tagsFrom, hmode, hnext]

theorem tagged_eq_tagsFrom (t : Text) : tagged t = tagsFrom .plain t :=
  flatMap_segmentsFrom .plain [] t

theorem map_fst_tagsFrom (mode : Mode) (t : Text) : (tagsFrom mode t).map Prod.fst = t := by
  induction t generalizing mode with
  | nil => rfl
  | cons c t ih => exact congrArg (c :: ·) (ih _)

theorem tagsFrom_append (mode : Mode) (s t : Text) :
    tagsFrom mode (s ++ t) = tagsFrom mode s ++ tagsFrom (mode.after s) t := by
  induction s generalizing mode with
  | nil => rfl
  | cons c s ih => exact congrArg (_ :: ·) (ih _)

theorem flatten_segments (t : Text) : ((segments t).map Segment.text).flatten = t := by
  have htexts : (tagged t).map Prod.fst = ((segments t).map Segment.text).flatten := by
    simp [tagged, flatMap_def, Function.comp_def]
  rw [← htexts, tagged_eq_tagsFrom, map_fst_tagsFrom]

theorem plain_mem_tagged_iff :
    (c, false) ∈ tagged t ↔ ∃ s ∈ segments t, s.isLiteral = false ∧ c ∈ s.text := by
  simp only [tagged, mem_flatMap, mem_map, Prod.mk.injEq]
  constructor
  · rintro ⟨s, hs, d, hd, rfl, hplain⟩
    exact ⟨s, hs, hplain, hd⟩
  · rintro ⟨s, hs, hplain, hc⟩
    exact ⟨s, hs, c, hc, rfl, hplain⟩

/-! ### Plain text and literals in turn -/

def literals (t : Text) : List Text :=
  ((segments t).filter (·.isLiteral)).map Segment.text

/-- Plain text, of which every piece satisfies `P`, and the given complete
literals in turn. -/
inductive Interleaved (P : Text → Prop) : List Text → Text → Prop
  | plain {front : Text} (hfront : '"' ∉ front) (hP : P front) : Interleaved P [] front
  | literal {front lit rest : Text} {lits : List Text} (hfront : '"' ∉ front) (hP : P front)
      (hlit : isLiteral lit = true) (hrest : Interleaved P lits rest) :
      Interleaved P (lit :: lits) (front ++ (lit ++ rest))

theorem segmentsFrom_plain (hfront : '"' ∉ front) (collected t : Text) :
    segmentsFrom .plain collected (front ++ t) = segmentsFrom .plain (collected ++ front) t := by
  induction front generalizing collected with
  | nil => simp
  | cons c front ih =>
    have hc : c ≠ '"' := fun hc => hfront (hc ▸ mem_cons_self)
    have hstep (u : Text) :
        segmentsFrom .plain collected (c :: u) = segmentsFrom .plain (collected ++ [c]) u := by
      simp [segmentsFrom, Mode.next, hc]
    rw [cons_append, hstep, ih fun hmem => hfront (mem_cons_of_mem _ hmem), append_assoc]
    rfl

theorem segmentsFrom_literal {inside : Text} (hmode : mode ≠ .plain)
    (h : closesAtEnd mode inside = true) (collected rest : Text) :
    segmentsFrom mode collected (inside ++ rest) = ⟨true, collected ++ inside⟩ :: segments rest := by
  induction inside generalizing mode collected with
  | nil => cases mode <;> simp_all [closesAtEnd]
  | cons c inside ih =>
    obtain ⟨rfl, rfl, rfl⟩ | ⟨hnext, hrest⟩ := closesAtEnd_cases hmode h
    · rfl
    · rw [cons_append, segmentsFrom_cons_inside hmode hnext, ih hnext hrest, append_assoc]
      rfl

theorem segments_plain (hfront : '"' ∉ front) : segments front = plainSegment front := by
  have h := segmentsFrom_plain hfront [] []
  rwa [append_nil] at h

theorem segments_literal {lit : Text} (hfront : '"' ∉ front) (hlit : isLiteral lit = true)
    (rest : Text) :
    segments (front ++ (lit ++ rest)) = plainSegment front ++ ⟨true, lit⟩ :: segments rest := by
  obtain ⟨inside, rfl, hclose⟩ := exists_of_isLiteral hlit
  rw [segments, segmentsFrom_plain hfront]
  exact congrArg (plainSegment front ++ ·) (segmentsFrom_literal Mode.noConfusion hclose ['"'] rest)

theorem literals_plain (hfront : '"' ∉ front) : literals front = [] := by
  rw [literals, segments_plain hfront]
  cases front <;> rfl

theorem literals_literal {lit : Text} (hfront : '"' ∉ front) (hlit : isLiteral lit = true)
    (rest : Text) : literals (front ++ (lit ++ rest)) = lit :: literals rest := by
  rw [literals, segments_literal hfront hlit]
  cases front <;> rfl

namespace Interleaved

variable {P : Text → Prop} {lits : List Text} {t : Text}

theorem literals_eq (h : Interleaved P lits t) : literals t = lits := by
  induction h with
  | plain hfront => exact literals_plain hfront
  | literal hfront _ hlit _ ih => rw [literals_literal hfront hlit, ih]

theorem plain_segments (h : Interleaved P lits t) {s : Segment} (hs : s ∈ segments t)
    (hplain : s.isLiteral = false) : P s.text := by
  have hpiece {front : Text} (hP : P front) (hs : s ∈ plainSegment front) : P s.text := by
    unfold plainSegment at hs
    split at hs
    · cases hs
    · obtain rfl := mem_singleton.mp hs
      exact hP
  induction h with
  | plain hfront hP => exact hpiece hP (segments_plain hfront ▸ hs)
  | literal hfront hP hlit _ ih =>
    rw [segments_literal hfront hlit, mem_append, mem_cons] at hs
    obtain hs | rfl | hs := hs
    · exact hpiece hP hs
    · cases hplain
    · exact ih hs

end Interleaved

theorem after_append (mode : Mode) (s t : Text) : mode.after (s ++ t) = (mode.after s).after t :=
  foldl_append ..

theorem after_plain (hfront : '"' ∉ front) : Mode.plain.after front = .plain := by
  induction front with
  | nil => rfl
  | cons c front ih =>
    have hc : c ≠ '"' := fun hc => hfront (hc ▸ mem_cons_self)
    have hnext : plain.next c = .plain := if_neg hc
    show (plain.next c).after front = _
    rw [hnext]
    exact ih fun hmem => hfront (mem_cons_of_mem _ hmem)

theorem closesAtEnd_splitLiteral (hmode : mode ≠ .plain) (h : mode.after t = .plain) :
    closesAtEnd mode (splitLiteral mode t).1 = true ∧
      plain.after (splitLiteral mode t).2 = .plain := by
  induction t generalizing mode with
  | nil => exact absurd h hmode
  | cons c t ih =>
    have hsplit : splitLiteral mode (c :: t) =
        (c :: (splitLiteral (mode.next c) t).1, (splitLiteral (mode.next c) t).2) := by
      cases mode with
      | plain => exact absurd rfl hmode
      | quoted | escaped => rfl
    have hcloses (u : Text) : closesAtEnd mode (c :: u) = closesAtEnd (mode.next c) u := by
      cases mode with
      | plain => exact absurd rfl hmode
      | quoted | escaped => rfl
    rw [hsplit, hcloses]
    have hafter : (mode.next c).after t = .plain := h
    by_cases hnext : mode.next c = .plain
    · rw [hnext] at hafter ⊢
      exact ⟨by cases t <;> rfl, by cases t <;> exact hafter⟩
    · exact ih hnext hafter

theorem exists_interleaved (front t : Text) (hfront : '"' ∉ front)
    (h : Mode.plain.after t = .plain) : ∃ lits, Interleaved (fun _ => True) lits (front ++ t) := by
  match t with
  | [] => exact ⟨[], (append_nil front).symm ▸ .plain hfront trivial⟩
  | c :: t =>
    by_cases hc : c = '"'
    · subst hc
      obtain ⟨hclose, hrest⟩ := closesAtEnd_splitLiteral (t := t) noConfusion h
      have hshorter := length_splitLiteral_snd .quoted t
      have hcut : front ++ '"' :: t =
          front ++ (('"' :: (splitLiteral .quoted t).1) ++ (splitLiteral .quoted t).2) := by
        rw [cons_append, splitLiteral_append]
      obtain ⟨lits, hlits⟩ := exists_interleaved [] _ not_mem_nil hrest
      rw [hcut]
      exact ⟨_, .literal hfront trivial hclose hlits⟩
    · have hnext : plain.next c = .plain := if_neg hc
      have hmore : '"' ∉ front ++ [c] := by
        simp [hfront, Ne.symm hc]
      have hstep : (Mode.plain.next c).after t = .plain := h
      rw [hnext] at hstep
      rw [append_cons]
      exact exists_interleaved (front ++ [c]) t hmore hstep
termination_by t.length
decreasing_by
  · exact Nat.lt_succ_of_le hshorter
  · exact Nat.lt_succ_self _

theorem interleaved_of_after (h : Mode.plain.after t = .plain) :
    Interleaved (fun _ => True) (literals t) t := by
  obtain ⟨lits, hlits⟩ := exists_interleaved [] t not_mem_nil h
  exact hlits.literals_eq ▸ hlits

/-- The literals found from a position on. -/
def literalsFrom (mode : Mode) (collected t : Text) : List Text :=
  ((segmentsFrom mode collected t).filter (·.isLiteral)).map Segment.text

theorem filter_plainSegment (collected : Text) :
    (plainSegment collected).filter (·.isLiteral) = [] := by
  cases collected <;> rfl

theorem literalsFrom_plain (collected t : Text) : literalsFrom .plain collected t = literals t := by
  induction t generalizing collected with
  | nil => simp [literalsFrom, literals, segments, segmentsFrom, filter_plainSegment]
  | cons c t ih =>
    by_cases hc : c = '"'
    · subst hc
      simp [literalsFrom, literals, segments, segmentsFrom, Mode.next, filter_plainSegment]
    · have hstep (collected : Text) :
          literalsFrom .plain collected (c :: t) = literalsFrom .plain (collected ++ [c]) t := by
        simp [literalsFrom, segmentsFrom, Mode.next, hc]
      rw [hstep, ih, ← ih [c]]
      exact (hstep []).symm

theorem literals_append {s : Text} (h : plain.after s = .plain) (t : Text) :
    literals (s ++ t) = literals s ++ literals t := by
  have hpieces := interleaved_of_after h
  generalize literals s = lits at hpieces ⊢
  clear h
  induction hpieces with
  | @plain front hfront =>
    have hpassed : literals (front ++ t) = literalsFrom .plain front t := by
      rw [literals, segments, segmentsFrom_plain hfront]
      rfl
    rw [hpassed, literalsFrom_plain]
    rfl
  | literal hfront _ hlit _ ih =>
    rw [append_assoc, append_assoc, literals_literal hfront hlit, ih]
    rfl

end Pseudocode.Expression
