import Mathlib.Data.List.TakeWhile
import Pseudocode.Proofs.Program.Change
import Pseudocode.Proofs.Program.Clean

/-!
# Where diagnostics point

A diagnostic gives a line by its number and a range of the text by its
offsets. The numbers come from cutting the text into lines, where a carriage
return may go with a line feed, and the offsets from the lengths of the parts
between line feeds. The two agree: what the offsets enclose is the line of
that number, or its indentation when the indentation is what is wrong.

* `Text.splitLines`: the lines of a text, read off its characters.
  `SourceLine.map_text_ofText` says that the pass reads these lines, and
  `SourceLine.covers_span` that each of them is found at its offsets.
* `IsIndent`: the longest run of tabs and spaces at the front of a line.
* `Diagnostic.PointsInto`: where a diagnostic must point.
* `Scan.Pointed`: all diagnostics so far point where they must, and the open
  blocks know lines of the text. `Pointed.changes` for a line and
  `pointed_foldlM_line` for the run.
-/

namespace Pseudocode

open List SourceLine

/-! ### Lines and ranges -/

namespace Text

/-- The lines of a text. A line ends at a line feed, and a carriage return
right before it belongs to the line end. -/
def splitLines : Text → List Text
  | [] => [[]]
  | '\r' :: '\n' :: t => [] :: splitLines t
  | '\n' :: t => [] :: splitLines t
  | c :: t =>
    match splitLines t with
    | [] => [[c]]
    | line :: rest => (c :: line) :: rest

/-- The characters of a text from one offset up to another. -/
def slice (t : Text) (start stop : Int) : Text :=
  (t.take stop.toNat).drop start.toNat

end Text

open Text

/-- A range lies in a text and encloses some characters of it. -/
structure Span.Covers (s : Span) (t part : Text) : Prop where
  zero_le : 0 ≤ s.start
  le_length : s.stop ≤ t.length
  slice_eq : t.slice s.start s.stop = part

structure IsIndent (line lead : Text) : Prop where
  front : lead <+: line
  spaces : ∀ c ∈ lead, c = '\t' ∨ c = ' '
  longest : ∀ other, other <+: line → (∀ c ∈ other, c = '\t' ∨ c = ' ') → other <+: lead

/-- A diagnostic points into a text. A missing main body is reported at the
start of the text, an indentation at the indentation of its line, and anything
else at its whole line. -/
inductive Diagnostic.PointsInto (t : Text) (d : Diagnostic) : Prop
  | start (hcode : d.code = .missingMain) (hstart : d.span.start = 0)
      (hstop : d.span.stop ≤ t.length)
  | indent (hcode : d.code = .tabIndent ∨ d.code = .badIndent) {n : Nat} {line lead : Text}
      (hnumber : d.span.line = n + 1) (hline : (splitLines t)[n]? = some line)
      (hlead : IsIndent line lead) (hcovers : d.span.Covers t lead)
  | line (hcode : d.code ∉ [DiagnosticCode.missingMain, .tabIndent, .badIndent]) {n : Nat}
      {line : Text} (hnumber : d.span.line = n + 1) (hline : (splitLines t)[n]? = some line)
      (hcovers : d.span.Covers t line)

theorem Span.covers_of (before part after : Text) (line : Int) :
    (Span.of before.length (before.length + part.length) line).Covers
      (before ++ (part ++ after)) part := by
  have hstop : max (before.length : Int) (before.length + part.length) =
      ((before.length + part.length : Nat)) := by omega
  refine ⟨Int.natCast_nonneg _, ?_, ?_⟩
  · show max _ _ ≤ _
    simp only [length_append]
    omega
  · show slice _ before.length (max _ _) = part
    rw [hstop, slice, Int.toNat_natCast, Int.toNat_natCast, ← append_assoc, ← length_append,
      take_left, drop_left]

theorem isIndent_leading (l : SourceLine) : IsIndent l.text l.leading := by
  refine ⟨ takeWhile_prefix _, fun c hc => ?_, fun other hother hspaces => ?_⟩
  · simpa using mem_takeWhile_imp hc
  · obtain ⟨rest, hrest⟩ := hother
    have hall : ∀ c ∈ other, (c == '\t' || c == ' ') = true := by
      simpa using hspaces
    rw [leading, ← hrest, takeWhile_append_of_pos hall]
    exact prefix_append other _

/-! ### The lines of a text at their offsets -/

namespace SourceLine

theorem dropReturn_cons {c : Char} {raw : Text} (h : raw = [] → c ≠ '\r') :
    dropReturn (c :: raw) = c :: dropReturn raw := by
  cases raw with
  | nil => simp [dropReturn, h rfl]
  | cons a raw =>
    unfold dropReturn
    rw [getLast?_cons_cons]
    split <;> rfl

/-- The texts of lines do not depend on where their numbers and offsets
start. -/
theorem map_text_fromParts (number start : Nat) (parts : List Text) :
    (fromParts number start parts).map text = (fromParts 1 0 parts).map text := by
  induction parts generalizing number start with
  | nil => rfl
  | cons raw rest ih =>
    cases rest with
    | nil => rfl
    | cons => exact congrArg (_ :: ·) ((ih _ _).trans (ih _ _).symm)

theorem map_text_fromParts_cons (raw next : Text) (parts : List Text) :
    (fromParts 1 0 (raw :: next :: parts)).map text =
      dropReturn raw :: (fromParts 1 0 (next :: parts)).map text :=
  congrArg (_ :: ·) (map_text_fromParts _ _ _)

theorem map_text_ofText (t : Text) : (ofText t).map text = splitLines t := by
  unfold ofText
  induction t using splitLines.induct with
  | case1 => rfl
  | case2 t ih =>
    obtain ⟨part, parts, hparts⟩ := exists_cutAt (· == '\n') t
    rw [splitLines, ← ih, hparts]
    have hcut : cutAt (· == '\n') ('\r' :: '\n' :: t) = ['\r'] :: part :: parts := by
      simp [cutAt, hparts]
    rw [hcut, map_text_fromParts_cons]
    rfl
  | case3 t ih =>
    obtain ⟨part, parts, hparts⟩ := exists_cutAt (· == '\n') t
    rw [splitLines, ← ih, hparts]
    have hcut : cutAt (· == '\n') ('\n' :: t) = [] :: part :: parts := by
      simp [cutAt, hparts]
    rw [hcut, map_text_fromParts_cons]
    rfl
  | case4 c t _ _ hnil ih =>
    obtain ⟨part, parts, hparts⟩ := exists_cutAt (· == '\n') t
    rw [hnil, hparts] at ih
    cases parts <;> cases ih
  | case5 c t hreturn hfeed line rest hlines ih =>
    obtain ⟨part, parts, hparts⟩ := exists_cutAt (· == '\n') t
    have hsplit : splitLines (c :: t) = (c :: line) :: rest := by
      rw [splitLines.eq_4 _ _ hreturn hfeed, hlines]
    rw [cutAt_cons_of_not (by simpa using hfeed) hparts, hsplit]
    rw [hlines, hparts] at ih
    cases parts with
    | nil =>
      obtain ⟨rfl, rfl⟩ := cons.inj ih
      rfl
    | cons next parts =>
      rw [map_text_fromParts_cons] at ih ⊢
      obtain ⟨rfl, rfl⟩ := cons.inj ih
      rw [dropReturn_cons]
      -- A carriage return in front of an empty part is in front of a line feed.
      rintro rfl rfl
      have hjoin := join_cutAt t
      rw [hparts] at hjoin
      exact hreturn _ rfl hjoin.symm

/-- A line is found in the text that its parts are joined to, at its
offset. -/
theorem exists_of_mem_fromParts {number start : Nat} {parts : List Text} {l : SourceLine}
    (h : l ∈ fromParts number start parts) : ∃ before after : Text,
      join "\n" parts = before ++ (l.text ++ after) ∧ l.start = start + before.length := by
  induction parts generalizing number start with
  | nil => cases h
  | cons raw rest ih =>
    cases rest with
    | nil =>
      obtain rfl := mem_singleton.mp h
      exact ⟨[], [], by simp [join], rfl⟩
    | cons next rest =>
      rw [join_cons_cons]
      rcases mem_cons.mp h with rfl | h
      · have hraw : ∃ after, raw = dropReturn raw ++ after := by
          unfold dropReturn
          split
          · exact ( dropLast_prefix raw).imp fun _ => Eq.symm
          · exact ⟨[], (append_nil raw).symm⟩
        obtain ⟨after, hafter⟩ := hraw
        refine ⟨[], after ++ '\n' :: join "\n" (next :: rest), ?_, rfl⟩
        rw [nil_append, ← append_assoc, ← hafter]
      · obtain ⟨before, after, hjoin, hstart⟩ := ih h
        refine ⟨raw ++ '\n' :: before, after, ?_, ?_⟩
        · rw [hjoin, append_assoc, cons_append]
        · rw [length_append, length_cons]
          omega

theorem exists_of_mem_ofText {t : Text} {l : SourceLine} (h : l ∈ ofText t) :
    ∃ before after : Text, t = before ++ (l.text ++ after) ∧ l.start = before.length := by
  obtain ⟨before, after, hjoin, hstart⟩ := exists_of_mem_fromParts h
  exact ⟨before, after, (join_cutAt t).symm.trans hjoin, hstart.trans (Nat.zero_add _)⟩

theorem exists_splitLines {t : Text} {l : SourceLine} (h : l ∈ ofText t) :
    ∃ n, l.number = n + 1 ∧ (splitLines t)[n]? = some l.text := by
  obtain ⟨n, hn⟩ := getElem?_of_mem h
  have hnumber := congrArg (·[n]?) (numbers_ofText t)
  rw [getElem?_map, hn, getElem?_range' (List.getElem?_eq_some_iff.mp hn).1] at hnumber
  refine ⟨n, ?_, ?_⟩
  · simpa [Nat.add_comm] using hnumber
  · rw [← map_text_ofText, getElem?_map, hn]
    rfl

theorem covers_span {t : Text} {l : SourceLine} (h : l ∈ ofText t) : l.span.Covers t l.text := by
  obtain ⟨before, after, rfl, hstart⟩ := exists_of_mem_ofText h
  rw [span, hstart]
  exact Span.covers_of before l.text after l.number

theorem covers_leadingSpan {t : Text} {l : SourceLine} (h : l ∈ ofText t) :
    l.leadingSpan.Covers t l.leading := by
  obtain ⟨before, after, rfl, hstart⟩ := exists_of_mem_ofText h
  obtain ⟨rest, hrest⟩ := (isIndent_leading l).front
  rw [leadingSpan, hstart, ← hrest, append_assoc]
  exact Span.covers_of before l.leading (rest ++ after) l.number

end SourceLine

/-! ### The pass -/

variable {t : Text} {l : SourceLine}

theorem SourceLine.Finds.pointsInto {d : Diagnostic} (h : l.Finds d)
    (hl : l ∈ ofText t) : d.PointsInto t := by
  obtain ⟨n, hnumber, hline⟩ := exists_splitLines hl
  cases h with
  | indent hcode hspan =>
    refine .indent hcode ?_ hline (isIndent_leading l) (hspan ▸ covers_leadingSpan hl)
    exact hspan ▸ congrArg Nat.cast hnumber
  | whole hcode hspan =>
    exact .line hcode (hspan ▸ congrArg Nat.cast hnumber) hline (hspan ▸ covers_span hl)

namespace Scan

structure Pointed (t : Text) (s : Scan) : Prop where
  diagnostics : ∀ d ∈ s.diagnostics, d.PointsInto t
  stack : ∀ f ∈ s.stack, f.line ∈ SourceLine.ofText t

theorem Pointed.changes {s s' : Scan} {stmt : Statement} (h : s.Pointed t)
    (hl : l ∈ ofText t) (hchanges : Changes l stmt s s') : s'.Pointed t := by
  obtain ⟨⟨ds, hds, hfinds⟩, hstack, -⟩ := hchanges
  refine ⟨?_, fun f hf => ?_⟩
  · rw [hds]
    exact forall_mem_append.mpr ⟨h.diagnostics, fun d hd => (hfinds d hd).pointsInto hl⟩
  · rcases hstack f hf with hf | rfl
    · exact h.stack f hf
    · exact hl

theorem pointed_foldlM_line {width : Int} {lines : List SourceLine} {s s' : Scan}
    (hlines : ∀ l ∈ lines, l ∈ ofText t) (h : s.Pointed t)
    (hok : lines.foldlM (line width) s = .ok s') : s'.Pointed t :=
  foldlM_line_induct (P := fun _ s => s.Pointed t) (fun _ _ _ h => h)
    (fun l hl _ _ _ _ _ hchanges h => h.changes (hlines l hl) hchanges) hok h

theorem Pointed.reportUnclosed {s : Scan} (h : s.Pointed t) : s.reportUnclosed.Pointed t := by
  rw [reportUnclosed_eq]
  refine ⟨forall_mem_append.mpr ⟨h.diagnostics, forall_mem_map.mpr fun f hf => ?_⟩, h.stack⟩
  have hcode : DiagnosticCode.unclosedBlock ∉
      [DiagnosticCode.missingMain, .tabIndent, .badIndent] := by decide
  exact Finds.pointsInto (.whole hcode rfl) (h.stack f (mem_reverse.mp hf))

theorem Pointed.reportMissingMain {s : Scan} (h : s.Pointed t) :
    (s.reportMissingMain t).Pointed t := by
  unfold Scan.reportMissingMain
  split
  · exact h
  · refine ⟨forall_mem_concat h.diagnostics ?_, h.stack⟩
    refine .start rfl rfl ?_
    show max 0 (min (t.length : Int) 8) ≤ t.length
    omega

end Scan

/-- Whatever the line ends and the characters of a text are, every diagnostic
on it lies within the text and encloses exactly the line of its number, or the
indentation of that line when the indentation is at fault; a missing main body
is reported at the start of the text. -/
theorem Program.diagnostics_point_into {settings : Settings} {t : Text} {parsed : Parsed}
    (h : Program.parse settings t = .ok parsed) : ∀ d ∈ parsed.diagnostics, d.PointsInto t := by
  obtain ⟨s, hfold, rfl⟩ := exists_of_return_eq_ok h
  have hstart : Scan.Pointed t {} :=
    ⟨forall_mem_nil _, forall_mem_nil _⟩
  have hpointed : s.Pointed t := Scan.pointed_foldlM_line (fun _ hl => hl) hstart hfold
  exact hpointed.reportUnclosed.reportMissingMain.diagnostics

/-- A text with all line ends, carriage returns within a line and at its end,
and no main body. -/
def mixedEnds : Text :=
  "funcion f(\r\n \tx\ry\n\r\n  si x\r"

/-- The ranges that are reported on the sample: its first line, the
indentation of the second one twice and that whole line, the blocks that stay
open, and the start of the text. -/
theorem Program.diagnostics_point_into_mixedEnds :
    ∃ parsed, Program.parse {} mixedEnds = .ok parsed ∧
      parsed.diagnostics.map (fun d => (d.span.line, d.span.start, d.span.stop)) =
        [(1, 0, 10), (2, 12, 14), (2, 12, 14), (2, 12, 17), (1, 0, 10), (4, 20, 27), (1, 0, 8)] ∧
      ∀ d ∈ parsed.diagnostics, d.PointsInto mixedEnds := by
  obtain ⟨parsed, hparse, hspans⟩ : ∃ parsed, Program.parse {} mixedEnds = .ok parsed ∧
      parsed.diagnostics.map (fun d => (d.span.line, d.span.start, d.span.stop)) =
        [(1, 0, 10), (2, 12, 14), (2, 12, 14), (2, 12, 17), (1, 0, 10), (4, 20, 27), (1, 0, 8)] :=
    exists_parse (by decide +kernel)
  exact ⟨parsed, hparse, hspans, diagnostics_point_into hparse⟩

end Pseudocode
