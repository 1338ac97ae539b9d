import Pseudocode.Expression.Arguments
import Pseudocode.Proofs.Expression.Subscripts

/-!
# Arguments and segments agree

The arguments of an output statement are found by a scanner of its own, which
only knows whether it is inside a literal and takes a backslash together with
the character behind it, in a literal and outside one. Where no backslash stands
outside the literals, this scanner and the cut into segments agree on every
character: `argumentsFrom_eq` is the step from one to the other, for a position
in plain text or in a literal, also one that is never closed.

`arguments_eq_cut` says it for whole texts, and that arguments joined by commas
come back.
-/

namespace Pseudocode.Expression

open Text List

variable {args : List Text}

/-- The pieces of a tagged text between its plain commas. -/
def cutTags (tags : List (Char × Bool)) : List Text :=
  (tags.splitOn (',', false)).map (map Prod.fst)

/-- The text cut at exactly the commas of its plain segments. -/
def cutAtCommas (t : Text) : List Text :=
  cutTags (tagged t)

/-- The pieces of a cut that are not blank, trimmed. -/
def trimmedPieces (pieces : List Text) : List Text :=
  (pieces.map trim).filter (· ≠ [])

theorem cutTags_comma (tags : List (Char × Bool)) :
    cutTags ((',', false) :: tags) = [] :: cutTags tags := by
  rfl

theorem cutTags_keep {p : Char × Bool} (hp : p ≠ (',', false)) (tags : List (Char × Bool)) :
    cutTags (p :: tags) = (cutTags tags).modifyHead (p.1 :: ·) := by
  rw [cutTags, cutTags, splitOn_cons_eq_if_modifyHead, if_neg (by simpa using hp)]
  cases tags.splitOn (',', false) <;> rfl

theorem trimmedPieces_eq_flatMap (pieces : List Text) :
    trimmedPieces pieces = pieces.flatMap argument := by
  induction pieces with
  | nil => rfl
  | cons piece pieces ih =>
    rw [flatMap_cons, ← ih]
    by_cases h : trim piece = [] <;> simp [trimmedPieces, argument, h]

/-- The position of the scanner: in a literal or outside one. -/
def Mode.ofFlag : Bool → Mode
  | false => .plain
  | true => .quoted

/-- From a position in plain text or in a literal, the scanner finds the
pieces between the plain commas; what is collected opens the first. -/
theorem argumentsFrom_eq (inLiteral : Bool) (collected t : Text)
    (hslash : ('\\', false) ∉ tagsFrom (.ofFlag inLiteral) t) :
    argumentsFrom inLiteral collected t =
      ((cutTags (tagsFrom (.ofFlag inLiteral) t)).modifyHead (collected ++ ·)).flatMap argument := by
  have hjoin (collected : Text) (c : Char) (pieces : List Text) :
      (pieces.modifyHead (c :: ·)).modifyHead (collected ++ ·) =
        pieces.modifyHead ((collected ++ [c]) ++ ·) := by
    cases pieces <;> simp
  fun_induction argumentsFrom inLiteral collected t with
  | case1 inLiteral collected => simp [tagsFrom, cutTags]
  | case2 inLiteral collected =>
    cases inLiteral with
    | false => exact absurd (mem_cons_self ..) hslash
    | true =>
      have htags : tagsFrom (.ofFlag true) ['\\'] = [('\\', true)] := rfl
      rw [htags, cutTags_keep (by simp)]
      simp [cutTags]
  | case3 inLiteral collected c t ih =>
    cases inLiteral with
    | false => exact absurd (mem_cons_self ..) hslash
    | true =>
      -- The character behind the backslash stands in the literal, whatever it is.
      have htags : tagsFrom (.ofFlag true) ('\\' :: c :: t) =
          ('\\', true) :: (c, true) :: tagsFrom (.ofFlag true) t := by
        simp [tagsFrom, Mode.next, Mode.ofFlag]
      rw [htags] at hslash ⊢
      rw [ih fun hmem => hslash (by simp [hmem]), cutTags_keep (by simp), cutTags_keep (by simp),
        hjoin, hjoin, append_assoc]
      rfl
  | case4 inLiteral collected t _ _ ih =>
    have htags : tagsFrom (.ofFlag inLiteral) ('"' :: t) =
        ('"', true) :: tagsFrom (.ofFlag !inLiteral) t := by
      cases inLiteral <;> rfl
    rw [htags] at hslash ⊢
    rw [ih fun hmem => hslash (mem_cons_of_mem _ hmem), cutTags_keep (by simp), hjoin]
  | case5 inLiteral collected c t _ _ hquote hcomma ih =>
    obtain ⟨rfl, hplain⟩ := hcomma
    cases inLiteral with
    | true => cases hplain
    | false =>
      have htags : tagsFrom (.ofFlag false) (',' :: t) = (',', false) :: tagsFrom .plain t := rfl
      rw [htags] at hslash ⊢
      rw [ih fun hmem => hslash (mem_cons_of_mem _ hmem), cutTags_comma]
      show _ ++ (modifyHead id _).flatMap _ = _
      simp [Mode.ofFlag]
  | case6 inLiteral collected c t hlone hpair hquote hcomma ih =>
    have hc : c ≠ '\\' := by
      rintro rfl
      cases t with
      | nil => exact hlone rfl rfl
      | cons d t => exact hpair d t rfl rfl
    have htags : tagsFrom (.ofFlag inLiteral) (c :: t) =
        (c, inLiteral) :: tagsFrom (.ofFlag inLiteral) t := by
      cases inLiteral <;> simp [tagsFrom, Mode.ofFlag, Mode.next, hquote, hc]
    have hne : (c, inLiteral) ≠ (',', false) := by
      intro heq
      obtain ⟨rfl, rfl⟩ := Prod.mk.inj heq
      exact hcomma ⟨rfl, rfl⟩
    rw [htags] at hslash ⊢
    rw [ih fun hmem => hslash (mem_cons_of_mem _ hmem), cutTags_keep hne, hjoin]

theorem tagged_join_cons {a b : Text} (h : IsClosed a) :
    tagged (join [','] (a :: b :: args)) =
      tagged a ++ (',', false) :: tagged (join [','] (b :: args)) := by
  have hjoin : join [','] (a :: b :: args) = a ++ ',' :: join [','] (b :: args) := by
    simp [join]
  rw [hjoin, tagged_eq_tagsFrom, tagsFrom_append, after_of_isClosed h]
  show _ ++ (',', false) :: tagsFrom .plain _ = _
  rw [← tagged_eq_tagsFrom, ← tagged_eq_tagsFrom]

theorem tagged_join (h : ∀ a ∈ args, IsClosed a) :
    tagged (join [','] args) = [(',', false)].intercalate (args.map tagged) := by
  induction args with
  | nil => rfl
  | cons a args ih =>
    cases args with
    | nil => simp [join]
    | cons b args =>
      rw [tagged_join_cons (h a mem_cons_self), ih fun c hc => h c (mem_cons_of_mem _ hc)]
      simp

def LacksPlain (c : Char) (t : Text) : Prop :=
  ∀ s ∈ segments t, s.isLiteral = false → c ∉ s.text

instance (c : Char) (t : Text) : Decidable (LacksPlain c t) :=
  inferInstanceAs (Decidable (∀ s ∈ segments t, s.isLiteral = false → c ∉ s.text))

theorem lacksPlain_iff {c : Char} {t : Text} : LacksPlain c t ↔ (c, false) ∉ tagged t := by
  simp [LacksPlain, plain_mem_tagged_iff]

theorem arguments_eq_trimmedPieces {t : Text} (h : LacksPlain '\\' t) :
    arguments t = trimmedPieces (cutAtCommas t) := by
  have hslash := lacksPlain_iff.mp h
  rw [tagged_eq_tagsFrom] at hslash
  rw [arguments, argumentsFrom_eq false [] t hslash, trimmedPieces_eq_flatMap, cutAtCommas,
    tagged_eq_tagsFrom]
  show (modifyHead id _).flatMap _ = _
  simp [Mode.ofFlag]

theorem cutAtCommas_join (hne : args ≠ [])
    (h : ∀ a ∈ args, IsClosed a ∧ LacksPlain ',' a) : cutAtCommas (join [','] args) = args := by
  have hcut : ([(',', false)].intercalate (args.map tagged)).splitOn (',', false) =
      args.map tagged := by
    refine splitOn_intercalate _ ?_ (by simpa using hne)
    intro tags htags
    obtain ⟨a, ha, rfl⟩ := mem_map.mp htags
    exact lacksPlain_iff.mp (h a ha).2
  have hback (a : Text) : (tagged a).map Prod.fst = a := by
    rw [tagged_eq_tagsFrom, map_fst_tagsFrom]
  rw [cutAtCommas, cutTags, tagged_join fun a ha => (h a ha).1, hcut, map_map]
  exact (map_congr_left fun a _ => hback a).trans (map_id _)

theorem lacksPlain_join (h : ∀ a ∈ args, IsClosed a ∧ LacksPlain '\\' a) :
    LacksPlain '\\' (join [','] args) := by
  induction args with
  | nil => exact fun s hs => absurd hs not_mem_nil
  | cons a args ih =>
    obtain ⟨hclosed, hfirst⟩ := h a mem_cons_self
    cases args with
    | nil => simpa [join] using hfirst
    | cons b args =>
      have hrest := ih fun c hc => h c (mem_cons_of_mem _ hc)
      rw [lacksPlain_iff] at hfirst hrest ⊢
      rw [tagged_join_cons hclosed]
      simp [hfirst, hrest]

/-- Without backslashes outside the literals, the arguments of a text are the
pieces between the commas of its plain segments, trimmed, less the empty ones;
so arguments that are joined by commas come back. -/
theorem arguments_eq_cut :
    (∀ t, LacksPlain '\\' t → arguments t = trimmedPieces (cutAtCommas t)) ∧
      ∀ args : List Text,
        (∀ a ∈ args, trim a = a ∧ a ≠ [] ∧ IsClosed a ∧ LacksPlain ',' a ∧ LacksPlain '\\' a) →
          arguments (join [','] args) = args := by
  refine ⟨fun t => arguments_eq_trimmedPieces, fun args h => ?_⟩
  rw [arguments_eq_trimmedPieces
    (lacksPlain_join fun a ha => ⟨(h a ha).2.2.1, (h a ha).2.2.2.2⟩)]
  by_cases hne : args = []
  · subst hne
    decide
  · rw [cutAtCommas_join hne fun a ha => ⟨(h a ha).2.2.1, (h a ha).2.2.2.1⟩, trimmedPieces,
      (map_congr_left fun a ha => (h a ha).1).trans (map_id _), filter_eq_self]
    exact fun a ha => by simpa using (h a ha).2.1

/-- A comma and an escaped quote in a literal, and a literal that is never
closed. -/
theorem arguments_eq_cut_sample :
    arguments "x[1] , \"a, \\\" b\" ,, \"c, d" =
        trimmedPieces (cutAtCommas "x[1] , \"a, \\\" b\" ,, \"c, d") ∧
      arguments (join [','] ["x[1]", "\"a, \\\" b\" + y", "\"\\\\\""]) =
        ["x[1]", "\"a, \\\" b\" + y", "\"\\\\\""] :=
  ⟨arguments_eq_cut.1 _ (by decide), arguments_eq_cut.2 _ (by decide)⟩

end Pseudocode.Expression
