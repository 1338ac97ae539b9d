import Mathlib.Data.List.Flatten
import Pseudocode.Proofs.CSource.Table

/-!
# Declarations and conversions in C

In C a name is declared in a block, and at each point the innermost
declaration counts. The listing decides every conversion by one table for the
names of a whole routine instead. This module compares the two.

* `scopesPast`, `visible?`: the scopes that are open after some lines
  of a routine, and the declaration that counts for a name.
* `Declared.conversion?`: the conversion that a declaration asks for.
* `Routine.Declares`, `Routine.Misleads`: what a declaration in a routine can
  be, and the three ways in which the table does not tell it.
* `conversion_agrees_unless_redeclared`: every conversion of a name is the one
  that the table gives, and it is the one that the declaration asks for except
  in three cases.
-/

namespace Pseudocode.CSource

open Text Expression List

/-! ### Scopes -/

inductive Declared where
  /-- A variable, or an array of such. -/
  | object (type : CType) (isArray : Bool)
  /-- A parameter, which is a text. -/
  | parameter
  | function
deriving DecidableEq, Repr

/-- The conversion for a value that is declared so: an array of characters is
a buffer. Other arrays and functions have none. -/
def Declared.conversion? : Declared → Option Conversion
  | .object type false => some type.conversion
  | .object .char true => some .string
  | .parameter => some .string
  | _ => none

/-- The names declared in a block, the last one first. -/
abbrev Scope : Type :=
  List (Text × Declared)

/-- The parameters of a function are declared in its outermost block. -/
def paramScope (params : List Text) : Scope :=
  params.map (·, .parameter)

/-- One more declaration in the innermost block. -/
def addName (entry : Text × Declared) : List Scope → List Scope
  | [] => [[entry]]
  | scope :: outer => (entry :: scope) :: outer

/-- The scope that the head of a block opens. The counter that a loop declares
belongs to the loop. -/
def Head.scope : Head → Scope
  | .function f => paramScope f.params
  | .forLoop true counter _ _ => [(counter, .object .int false)]
  | _ => []

/-- The scopes after a line of a routine, the innermost one first. -/
def Line.enter (scopes : List Scope) : Line → List Scope
  | .declare type name size => addName (name, .object type size.isSome) scopes
  | .head h => h.scope :: scopes
  | .otherwise => [] :: scopes.tail
  | .close | .closeUntil _ => scopes.tail
  | _ => scopes

/-- The scopes after the first lines of a routine. Around it only the functions
of the program are declared, by their prototypes. -/
def scopesPast (p : Program) (ls : List Line) : List Scope :=
  ls.foldl Line.enter [p.functions.map (·.name, .function)]

def visible? (scopes : List Scope) (name : Text) : Option Declared :=
  scopes.findSome? (·.lookup name)

/-! ### Conversions -/

/-- A call of `scanf` or `printf` converts the value of a name. -/
structure Use where
  /-- The call is of `scanf`. -/
  reads : Bool
  name : Text
  conversion : Conversion
deriving DecidableEq, Repr

/-- The name that an argument of `printf` is, with its conversion. -/
def Argument.use? : Argument → Option Use
  | .value conversion source _ =>
    if isName (trim source) then some ⟨false, trim source, conversion⟩ else none
  | .literal _ => none

def Line.uses : Line → List Use
  | .scan type name none => [⟨true, name, type.conversion⟩]
  | .print args => args.filterMap Argument.use?
  | _ => []

/-! ### The declarations that can be visible -/

section Scopes

variable {ls : List Line}
variable {scopes : List Scope} {e : Text × Declared}

def Line.entries : Line → Scope
  | .declare type name size => [(name, .object type size.isSome)]
  | .head h => h.scope
  | _ => []

theorem mem_addName {entry : Text × Declared}
    (h : e ∈ (addName entry scopes).flatten) : e ∈ scopes.flatten ∨ e = entry := by
  cases scopes with
  | nil => simpa [addName] using h
  | cons =>
    simp only [addName, flatten_cons, cons_append, mem_cons] at h
    exact h.symm


theorem mem_enter (line : Line)
    (h : e ∈ (line.enter scopes).flatten) : e ∈ scopes.flatten ∨ e ∈ line.entries := by
  cases line with
  | declare => exact (mem_addName h).imp_right mem_singleton.mpr
  | head => exact (mem_append.mp h).symm
  | otherwise | close | closeUntil => exact .inl ((tail_sublist scopes).flatten.mem h)
  | _ => exact .inl h

theorem mem_foldl_enter (h : e ∈ (ls.foldl Line.enter scopes).flatten) :
    e ∈ scopes.flatten ∨ ∃ line ∈ ls, e ∈ line.entries := by
  induction ls generalizing scopes with
  | nil => exact .inl h
  | cons line rest ih =>
    rcases ih h with h | ⟨line', hline', he⟩
    · exact (mem_enter line h).imp_right fun he => ⟨line, mem_cons_self, he⟩
    · exact .inr ⟨line', mem_cons_of_mem _ hline', he⟩

theorem mem_of_visible {name : Text} {d : Declared}
    (h : visible? scopes name = some d) : (name, d) ∈ scopes.flatten := by
  obtain ⟨scope, hscope, hlookup⟩ := exists_of_findSome?_eq_some h
  obtain ⟨before, after, rfl, -⟩ := lookup_eq_some_iff.mp hlookup
  exact mem_flatten.mpr ⟨_, hscope, by simp⟩

end Scopes

inductive Routine.Declares (r : Routine) (name : Text) : Declared → Prop
  | function : r.Declares name .function
  | parameter : name ∈ r.params → r.Declares name .parameter
  | buffer : name ∈ (Names.ofBody r.params r.body).buffers → r.Declares name (.object .text false)
  | declared {d : CType × Bool} : d ∈ declarations r.body name → r.Declares name (.object d.1 d.2)
  | counter : name ∉ (Names.ofBody r.params r.body).declared → isCounter r.body name = true →
      r.Declares name (.object .int false)

/-- The conversion of a name by the table of its routine is not the one that
its declaration asks for, or need not be. -/
inductive Routine.Misleads (r : Routine) (use : Use) (d : Declared) : Prop
  /-- The routine declares the name more than once, as different things. -/
  | redeclared {d' : CType × Bool} : d' ∈ declarations r.body use.name → d ≠ .object d'.1 d'.2 →
      r.Misleads use d
  /-- A loop declares the name, and it is read somewhere in the routine. -/
  | counter : declarations r.body use.name = [] → use.name ∉ r.params →
      isRead r.body use.name = true → d = .object .int false → r.Misleads use d
  /-- An array of characters is read as a whole. -/
  | array : use.reads = true → d = .object .char true → r.Misleads use d

namespace Routine

variable {r : Routine} {bufferSize : Int} {ls : List Line} {name : Text} {d : Declared}
variable {line : Line}

theorem told_of_declares (h : r.Declares name d) {c : Conversion} (hc : d.conversion? = some c)
    {use : Use} (hname : use.name = name) : r.told use.reads name = c ∨ r.Misleads use d := by
  subst hname
  obtain ⟨-, hdeclared, -, hbuffers⟩ := ofBody_eq r.params use.name r.body
  unfold told
  cases h with
  | function => cases hc
  | parameter hparam =>
    cases hc
    cases hlast : (declarations r.body use.name).getLast? with
    | some => exact .inr (.redeclared (mem_of_getLast? hlast) (by simp))
    | none => exact .inl (by simp [hparam])
  | buffer hbuffer =>
    cases hc
    obtain ⟨hnone, -, hread⟩ := hbuffers.mp hbuffer
    exact .inl (by simp [hnone, hread, CType.conversion])
  | @declared d hd =>
    by_cases hsame : ∀ d' ∈ declarations r.body use.name, d' = d
    · -- All declarations are the same, so the last one and any array among them are known.
      have hany : (declarations r.body use.name).any (·.2) = d.2 := by
        rw [Bool.eq_iff_iff, any_eq_true]
        constructor
        · rintro ⟨d', hd', harray⟩
          exact hsame d' hd' ▸ harray
        · exact fun harray => ⟨d, hd, harray⟩
      obtain ⟨last, hlast⟩ : ∃ last, (declarations r.body use.name).getLast? = some last :=
        Option.isSome_iff_exists.mp (getLast?_isSome.mpr (ne_nil_of_mem hd))
      obtain rfl := hsame last (mem_of_getLast? hlast)
      rw [hlast, hany]
      obtain ⟨type, isArray⟩ := last
      cases isArray with
      | false =>
        cases hc
        exact .inl (by simp)
      | true =>
        cases type with
        | int | text => cases hc
        | char =>
          cases hc
          cases hreads : use.reads with
          | true => exact .inr (.array hreads rfl)
          | false => exact .inl rfl
    · simp only [not_forall] at hsame
      obtain ⟨d', hd', hne⟩ := hsame
      refine .inr (.redeclared hd' fun heq => hne ?_)
      obtain ⟨h₁, h₂⟩ := Declared.object.inj heq
      exact Prod.ext h₁.symm h₂.symm
  | counter hnot hcounter =>
    cases hc
    rw [hdeclared, not_or, not_ne_iff] at hnot
    obtain ⟨hnone, hparam⟩ := hnot
    cases hread : isRead r.body use.name with
    | true => exact .inr (.counter hnone hparam hread rfl)
    | false => exact .inl (by simp [hnone, hparam, hcounter, CType.conversion])

/-! ### The lines of a routine -/

inductive IsProper : Routine → Prop
  | function (f : Function) : IsProper (.ofFunction f)
  | main (body : List Statement) : IsProper (.ofMain body)

theorem line_cases (h : r.lines bufferSize = .ok ls) (hline : line ∈ ls) :
    line = .head r.head ∨
      (∃ name ∈ (Names.ofBody r.params r.body).buffers, line = .declare .text name none) ∨
        (∃ s ∈ r.body, ∃ found, linesOf (r.context bufferSize) s = .ok found ∧ line ∈ found) ∨
          line ∈ r.tail := by
  obtain ⟨lss, hlss, rfl⟩ := exists_of_return_eq_ok h
  rcases mem_cons.mp hline with rfl | hline
  · exact .inl rfl
  rcases mem_append.mp hline with hline | hline
  · rcases mem_append.mp hline with hline | hline
    · obtain ⟨name, hname, rfl⟩ := mem_map.mp hline
      exact .inr (.inl ⟨name, hname, rfl⟩)
    · obtain ⟨found, hfound, hline⟩ := mem_flatten.mp hline
      obtain ⟨s, hs, hlines⟩ := exists_mem_of_mapM hlss hfound
      exact .inr (.inr (.inl ⟨s, hs, found, hlines, hline⟩))
  · exact .inr (.inr (.inr hline))

/-- What a line declares and converts, the routine tells. -/
structure Tells (r : Routine) (line : Line) : Prop where
  declares : ∀ e ∈ line.entries, r.Declares e.1 e.2
  converts : ∀ use ∈ line.uses, use.conversion = r.told use.reads use.name

theorem statement_cases {s : Statement} (hs : s ∈ r.body)
    (h : linesOf (r.context bufferSize) s = .ok ls) (hline : line ∈ ls) : r.Tells line := by
  obtain ⟨text, number, form⟩ := s
  cases form with
  | declare type name size =>
    cases h
    obtain rfl := mem_singleton.mp hline
    refine ⟨fun e he => ?_, nofun⟩
    obtain rfl := mem_singleton.mp he
    refine .declared (d := (CType.of type, size.isSome)) (mem_filterMap.mpr ⟨_, hs, ?_⟩)
    simp [declaration?]
  | read target name index =>
    obtain ⟨cell, hcell, rfl⟩ := exists_of_return_eq_ok h
    obtain rfl := mem_singleton.mp hline
    cases index with
    | some index =>
      obtain ⟨shifted, -, rfl⟩ := exists_of_return_eq_ok hcell
      exact ⟨nofun, nofun⟩
    | none =>
      cases hcell
      refine ⟨nofun, fun use huse => ?_⟩
      obtain rfl := mem_singleton.mp huse
      exact conversion_scan (any_eq_true.mpr ⟨_, hs, by simp [readsName]⟩)
  | write =>
    obtain ⟨as, has, rfl⟩ := exists_of_return_eq_ok h
    obtain rfl := mem_singleton.mp hline
    refine ⟨nofun, fun use huse => ?_⟩
    obtain ⟨a, ha, huse⟩ := mem_filterMap.mp huse
    obtain ⟨arg, -, harg⟩ := exists_mem_of_mapM has ha
    unfold argumentOf at harg
    split at harg
    · cases harg
      cases huse
    · obtain ⟨shifted, -, rfl⟩ := exists_of_return_eq_ok harg
      dsimp only [Argument.use?] at huse
      split at huse
      · next hname =>
        cases huse
        exact conversion_print hname
      · cases huse
  | forLoop counter =>
    obtain ⟨start', -, h⟩ := exists_of_bind_eq_ok h
    obtain ⟨stop', -, rfl⟩ := exists_of_return_eq_ok h
    obtain rfl := mem_singleton.mp hline
    cases hdeclared : (r.context bufferSize).names.declared.contains counter with
    | true => exact ⟨nofun, nofun⟩
    | false =>
      refine ⟨fun e he => ?_, nofun⟩
      obtain rfl := mem_singleton.mp he
      refine .counter (fun hmem => ?_) (any_eq_true.mpr ⟨_, hs, by simp [countsIn]⟩)
      exact Bool.false_ne_true (hdeclared.symm.trans (contains_iff_mem.mpr hmem))
  | whileLoop c | untilTest c | ifTest c =>
    obtain ⟨test, -, rfl⟩ := exists_of_return_eq_ok h
    obtain rfl := mem_singleton.mp hline
    exact ⟨nofun, nofun⟩
  | call =>
    obtain ⟨t, -, rfl⟩ := exists_of_return_eq_ok h
    obtain rfl := mem_singleton.mp hline
    exact ⟨nofun, nofun⟩
  | repeatLoop | elseBranch | endWhile | endFor | endIf | returnScope =>
    cases h
    obtain rfl := mem_singleton.mp hline
    exact ⟨nofun, nofun⟩
  | thenBranch =>
    cases h
    cases hline
  | _ =>
    cases h
    obtain ⟨t, -, rfl⟩ := mem_map.mp hline
    exact ⟨nofun, nofun⟩

theorem declares_of_line (hr : r.IsProper) (h : r.lines bufferSize = .ok ls) (hline : line ∈ ls) :
    r.Tells line := by
  rcases line_cases h hline with rfl | ⟨name, hname, rfl⟩ | ⟨s, hs, found, hfound, hline⟩ | htail
  · refine ⟨fun e he => ?_, nofun⟩
    cases hr with
    | function =>
      obtain ⟨param, hparam, rfl⟩ := mem_map.mp he
      exact .parameter hparam
    | main => cases he
  · refine ⟨fun e he => ?_, nofun⟩
    obtain rfl := mem_singleton.mp he
    exact .buffer hname
  · exact statement_cases hs hfound hline
  · have hend : line = .leave true ∨ line = .close := by
      cases hr with
      | function => exact .inr (mem_singleton.mp htail)
      | main => simpa [ofMain] using htail
    rcases hend with rfl | rfl <;> exact ⟨nofun, nofun⟩

end Routine

end CSource

open CSource

theorem Program.isProper_of_mem {p : Program} {r : Routine} (h : r ∈ p.routines) : r.IsProper := by
  rcases List.mem_append.mp h with h | h
  · obtain ⟨f, -, rfl⟩ := List.mem_map.mp h
    exact .function f
  · obtain rfl := List.mem_singleton.mp h
    exact .main p.main

/-- The listing of a program in C has the texts of some lines. Every conversion
of a name in a routine is the one that the statements of the routine tell,
wherever it stands; and where a declaration of the name is visible, it is the
conversion that the innermost one asks for, unless the routine declares the name
also as something else, or the name is the counter of a loop that declares it
and is read in the routine, or it is an array of characters that is read as a
whole. -/
theorem conversion_agrees_unless_redeclared (settings : Settings) (p : Program) :
    (ofProgram settings p).map Listing.codes =
        (p.routines.mapM (Routine.lines settings.bufferSize)).map (fun lss =>
          (p.preamble ++ lss.flatten).map (Line.text settings.bufferSize)) ∧
      ∀ r ∈ p.routines, ∀ inner line after,
        r.lines settings.bufferSize = .ok (inner ++ line :: after) →
          ∀ use ∈ line.uses, use.conversion = r.told use.reads use.name ∧
            ∀ d c, visible? (scopesPast p inner) use.name = some d → d.conversion? = some c →
              use.conversion = c ∨ r.Misleads use d := by
  refine ⟨map_codes_ofProgram settings p, fun r hr inner line after hlines use huse => ?_⟩
  have hproper := Program.isProper_of_mem hr
  have hline : line ∈ inner ++ line :: after := by simp
  have hconversion := (Routine.declares_of_line hproper hlines hline).2 use huse
  refine ⟨hconversion, fun d c hvisible hc => ?_⟩
  -- The declaration is that of a function around the routine, or stands in it.
  have hdeclares : r.Declares use.name d := by
    rcases mem_foldl_enter (mem_of_visible hvisible) with hmem | ⟨line', hline', hentry⟩
    · rw [List.flatten_singleton] at hmem
      obtain ⟨f, -, hf⟩ := List.mem_map.mp hmem
      obtain rfl := (Prod.mk.inj hf).2
      exact .function
    · exact (Routine.declares_of_line hproper hlines (by simp [hline'])).1 _ hentry
  rw [hconversion]
  exact Routine.told_of_declares hdeclares hc rfl

/-! ### Two programs -/

def writingFunction : Function :=
  ⟨"f", ["s"], 1, [⟨"escribir s", 2, .write "s"⟩]⟩

/-- A loop over a counter that is nowhere declared, up to a variable that is. -/
def countingBody : Body :=
  .plain ⟨⟨"entero n", 5, .declare .entero "n" none⟩, rfl⟩ <|
  .plain ⟨⟨"leer n", 6, .read "n" "n" none⟩, rfl⟩ <|
  .pretest true ⟨⟨"para i desde 1 hasta n hacer", 7, .forLoop "i" "1" "n"⟩, rfl⟩
    (.plain ⟨⟨"escribir i, n", 8, .write "i, n"⟩, rfl⟩ .nil) ⟨⟨"finpara", 9, .endFor⟩, rfl⟩ .nil

def countingProgram : Program :=
  ⟨none, [writingFunction], countingBody.statements⟩

/-- In the loop the counter and the variable are converted as the integers that
they are declared as. -/
theorem conversion_agrees_countingProgram :
    ∃ r ∈ countingProgram.routines, ∃ inner line after,
      r.lines 100 = .ok (inner ++ line :: after) ∧
        line.uses = [⟨false, "i", .integer⟩, ⟨false, "n", .integer⟩] ∧
        ∀ use ∈ line.uses, use.conversion = r.told use.reads use.name ∧
          ∀ d c, visible? (scopesPast countingProgram inner) use.name = some d →
            d.conversion? = some c → use.conversion = c ∨ r.Misleads use d := by
  have hlines : (Routine.ofMain countingBody.statements).lines 100 =
      .ok ([.head .main, .declare .int "n" none, .scan .int "n" none,
          .head (.forLoop true "i" "1" "n")] ++
        .print [.value .integer "i" "i", .value .integer "n" "n"] ::
          [.close, .leave true, .close]) := by
    decide +kernel
  have hmem : Routine.ofMain countingBody.statements ∈ countingProgram.routines := by
    simp [countingProgram, Program.routines]
  exact ⟨_, hmem, _, _, _, hlines, by decide,
    (conversion_agrees_unless_redeclared {} countingProgram).2 _ hmem _ _ _ hlines⟩

def readingBody : Body :=
  .pretest true ⟨⟨"para x desde 1 hasta 3 hacer", 2, .forLoop "x" "1" "3"⟩, rfl⟩
    (.plain ⟨⟨"leer x", 3, .read "x" "x" none⟩, rfl⟩ .nil) ⟨⟨"finpara", 4, .endFor⟩, rfl⟩ .nil

/-- The counter is declared as an integer by its loop and read as a text. -/
theorem counter_read_as_text :
    Program.parse {} "inicio\n  para x desde 1 hasta 3 hacer\n    leer x\n  finpara\nfin" =
        .ok ⟨⟨none, [], readingBody.statements⟩, []⟩ ∧
      (ofProgram {} ⟨none, [], readingBody.statements⟩).map Listing.codes =
        .ok ["#include <stdio.h>", "int main(void) \x7b", "char x[100];",
          "for (int x = 1; x <= 3; x += 1) \x7b", "scanf(\"%99s\", x);", "\x7d", "return 0;",
          "\x7d"] ∧
      ∃ inner line after, (Routine.ofMain readingBody.statements).lines 100 =
          .ok (inner ++ line :: after) ∧
        line.uses = [⟨true, "x", .string⟩] ∧
        visible? (scopesPast ⟨none, [], readingBody.statements⟩ inner) "x" =
          some (.object .int false) ∧
        (Declared.object .int false).conversion? = some .integer := by
  have hlines : (Routine.ofMain readingBody.statements).lines 100 =
      .ok ([.head .main, .declare .text "x" none, .head (.forLoop true "x" "1" "3")] ++
        .scan .text "x" none :: [.close, .leave true, .close]) := by
    decide +kernel
  exact ⟨by decide +kernel, by decide +kernel, _, _, _, hlines, by decide, by decide, rfl⟩

end Pseudocode
