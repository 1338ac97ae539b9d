import Pseudocode.Proofs.Run.Alignment
import Pseudocode.Proofs.Run.Texts

/-!
# The outputs of a run are texts

An output statement inserts a part that looks like a literal as it stands. If
each such part has a text as its value, all that a run writes and all that its
steps tell as their outputs are texts, and the outcome has a text. A part may
begin and end with a quote and be something else, and then it is that which
is written.

* `textCore`: the core of a run whose outputs are followed.
  `writing_mainStart` says that the main routine begins with it.
* `exec_texts`: what any run of a script that writes texts leaves.
* `outcome_has_text`: the outcomes of such a script.
-/

namespace Pseudocode

open Text Script List

namespace Run

/-! ### The core for texts -/

def textCore (x : Executable) (outputs : List Text) (tracer : Routine) (count : Nat) : Core :=
  { coreOf x [] tracer count with
    extra := [("__text", [.routine 4]), ("__write", [.routine 5])]
    loose := outputs
    admits := Value.IsText
    unbound := ["str"]
    reports := (textRules x.entryPoint outputs).reports
    asks := (textRules x.entryPoint outputs).asks
    also := (textRules x.entryPoint outputs).also }

/-- The world of a run. Nothing joins the core later. -/
def textStart (k : Core) (text writer : Routine) : k.World :=
  ⟨none, [(4, .closure (closureIn [1] text)), (5, .closure (closureIn [1] writer))]⟩

section Start

variable {x : Executable} {outputs : List Text} {slot tracer text writer main : Routine}
  {others : List Routine}

theorem isOf_textCore (h : x.entryPoint ∉ writerNames) (count : Nat) :
    (textCore x outputs tracer count).IsOf x tracer count := by
  refine ⟨rfl, rfl, rfl, rfl, rfl, fun name hname => ?_⟩
  rintro (_ | ⟨_, ⟨⟩⟩)
  -- Only the name of the script's own routine could be that of the builtin.
  by_cases hentry : "str" = x.entryPoint
  · exact h (hentry ▸ by decide)
  · exact not_mem_coreNames (by decide) hentry hname

section Names

variable (h : HasTexts x outputs slot tracer text writer others main)
include h

theorem not_mem_outputs {name : Text} (hname : "__out".toList.isPrefixOf name = false) :
    name ∉ outputs := by
  intro hmem
  have hmarked := h.marked name hmem
  simp only [isOutputName, Bool.and_eq_true] at hmarked
  exact absurd (hname.symm.trans hmarked.1.1) (by decide)

theorem mayBind_textRules {name : Text} (hname : name ∉ textNames "" [])
    (hstr : name ∉ ["str".toList]) (hout : "__out".toList.isPrefixOf name = false)
    (hentry : name ≠ x.entryPoint) : (textRules x.entryPoint outputs).mayBind name = true := by
  rw [textNames, append_nil, mem_append, not_or] at hname
  refine Rules.mayBind_iff.mpr ⟨?_, hstr⟩
  show name ∉ coreNames x.entryPoint ++ _ ++ _
  rw [mem_append, mem_append, not_or, not_or]
  exact ⟨⟨not_mem_coreNames hname.1 hentry, hname.2⟩, not_mem_outputs h hout⟩

theorem not_mem_coreNames_output {name : Text} (hname : name ∈ outputs) :
    name ∉ coreNames x.entryPoint := by
  have hmarked := h.marked name hname
  simp only [isOutputName, Bool.and_eq_true, bne_iff_ne] at hmarked
  refine not_mem_coreNames (fun hcore => ?_) hmarked.1.2
  have hnone : ∀ name ∈ coreNames "", "__out".toList.isPrefixOf name = false := by decide
  exact absurd (hnone name hcore ▸ hmarked.1.1) (by decide)

theorem writing_textCore :
    (textCore x outputs tracer (others.length + 5)).Writing (4, closureIn [1] text)
      (5, closureIn [1] writer) := by
  have hgives := h.givesText
  simp only [RoutineOf.givesText, Bool.and_eq_true] at hgives
  have hisWriter := h.isWriter
  simp only [RoutineOf.isWriter, Bool.and_eq_true] at hisWriter
  have hapart {name : Text} (hname : name ∈ writerNames) : name ≠ x.entryPoint :=
    ne_of_mem_of_not_mem hname h.apart
  have hreserved {name : Text} (hname : name ∈ reservedNames) : name ≠ x.entryPoint :=
    ne_of_mem_of_not_mem hname h.entryPoint
  refine ⟨rfl, fun _ => Iff.rfl, ?_, ?_, fun t ht => ⟨?_, ?_⟩, h.givesText, fun w =>
    (tame_closureIn (k := textCore x outputs tracer (others.length + 5)) hgives.1.2).initials,
    h.isWriter, ?_, h.isTracer, h.output, initials_tracer h.toHasRoutines, ?_⟩
  · rw [Core.lookup_bindings (not_mem_coreNames (by decide) (hapart (by decide)))]
    rfl
  · rw [Core.lookup_bindings (not_mem_coreNames (by decide) (hapart (by decide)))]
    rfl
  · rw [Core.lookup_bindings (not_mem_coreNames_output h ht)]
    refine lookup_eq_none_iff.mpr fun p hp => ?_
    simp only [bne_iff_ne]
    rintro rfl
    have hnone : ∀ p ∈ (textCore x outputs tracer (others.length + 5)).extra,
        "__out".toList.isPrefixOf p.1 = false := by
      simp only [textCore, forall_mem_cons]
      exact ⟨by decide, by decide, forall_mem_nil _⟩
    exact not_mem_outputs h (hnone p hp) ht
  · have hmarked := h.marked t ht
    simp only [isOutputName, Bool.and_eq_true, Option.isNone_iff_eq_none] at hmarked
    exact hmarked.2
  · show constants (initialExprs writer.params) = []
    rw [eq_writerParams hisWriter.1.2]
    rfl
  · simp only [writerParams, tracerParams, cons_append, nil_append, forall_mem_cons]
    exact ⟨mayBind_textRules h (by decide) (by decide) (by decide) (hapart (by decide)),
      mayBind_textRules h (by decide) (by decide) (by decide) (hreserved (by decide)),
      mayBind_textRules h (by decide) (by decide) (by decide) (hreserved (by decide)),
      mayBind_textRules h (by decide) (by decide) (by decide) (hreserved (by decide)),
      forall_mem_nil _⟩

theorem fits_textCore {p : Text × Value}
    (hp : Initial x (slot :: tracer :: (text :: writer :: others ++ [main])) p) :
    (textStart (textCore x outputs tracer (others.length + 5)) text writer).Fits p := by
  have hk : (textCore x outputs tracer (others.length + 5)).IsOf x tracer
      ((text :: writer :: others).length + 3) :=
    isOf_textCore h.apart _
  have hcore := writing_textCore h
  -- The routines that keep to the rules have addresses of their own.
  have hkept : ∀ a r, r ∈ slot :: others → a ∉ [0, 1, 3, others.length + 6, others.length + 7] →
      a ≠ 4 → a ≠ 5 →
        (textStart (textCore x outputs tracer (others.length + 5)) text writer).Fits
          (r.name, .routine a) := by
    intro a r hr hapart h4 h5
    refine Core.World.fits_of_tame ⟨h.names r hr, hapart, nofun, fun o ho => ?_⟩
    simp only [textStart, mem_cons, Prod.mk.injEq, not_mem_nil, or_false] at ho
    omega
  refine fits_initial hk h.entryPoint
    (fun hname => mayBind_textRules h (by decide) (by decide) (by decide) hname.symm)
    (mayBind_textRules h (by decide) (by decide) (by decide) fun heq =>
      h.entryPoint (heq ▸ by decide))
    (fun hr => fits_routines hk h.toHasRoutines ?_ (fun i r hi => ?_) hr) hp
  · exact hkept 2 slot (by simp) (by simp) (by decide) (by decide)
  · match i with
    | 0 =>
      cases hi
      rw [h.text_name]
      refine ⟨by simp [textCore], ?_⟩
      rw [hcore.text_binding]
      exact mem_singleton_self _
    | 1 =>
      cases hi
      rw [h.writer_name]
      refine ⟨by simp [textCore], ?_⟩
      rw [hcore.writer_binding]
      exact mem_singleton_self _
    | i + 2 =>
      have hi' : others[i]? = some r := hi
      have hlt := (List.getElem?_eq_some_iff.mp hi').1
      refine hkept _ r (mem_cons_of_mem _ (mem_of_getElem? hi')) ?_ (by omega) (by omega)
      simp only [mem_cons, not_mem_nil, or_false]
      omega

theorem writing_mainStart {entry : Routine} (hname : entry.name = x.entryPoint)
    (inputs : List Datum) :
    ((textCore x outputs tracer (others.length + 5)).writing (4, closureIn [1] text)
      (5, closureIn [1] writer)).At (textStart _ text writer)
        (mainStart entry (slot :: tracer :: (text :: writer :: others ++ [main])) main inputs) := by
  obtain ⟨hobjects, hvars, hlog⟩ := of_mainStart h.entryPoint hname main inputs
    fun _ => fits_textCore h
  have hshown : ∀ p ∈ (textStart (textCore x outputs tracer (others.length + 5)) text
      writer).shown, (mainStart entry (slot :: tracer :: (text :: writer :: others ++ [main])) main
        inputs).heap.objects[p.1]? = some p.2 := by
    rw [hobjects]
    simp [textStart, scriptObjects]
  refine ⟨⟨?_, hvars⟩, by simp [textStart], by simp [textStart], rfl, fun p hp => ?_⟩
  · refine sound_of_objects (isOf_textCore h.apart _) entry hobjects
      (fun _ => tame_closureIn (h.obeys slot (by simp))) (fun i r hi hopen => ?_) (by simp [textStart])
      hshown
    -- The first two are known to the core alone.
    rcases i with _ | _ | i
    · exact absurd (by simp [textStart]) (hopen.unseen (.closure (closureIn [1] text)))
    · exact absurd (by simp [textStart]) (hopen.unseen (.closure (closureIn [1] writer)))
    · exact tame_closureIn (h.obeys r (mem_cons_of_mem _
        (mem_of_getElem? (show others[i]? = some r from hi))))
  · rw [hlog] at hp
    exact absurd hp (Array.not_mem_empty p)

/-! ### Runs -/

theorem exec_texts :
    ∃ p, Prepared.ofExecutable x = .ok p ∧ ∀ fuel inputs e,
      e ∈ (exec fuel p inputs).log ∨ e ∈ (exec fuel p inputs).kept → e.IsText := by
  obtain ⟨p, hp, hshown⟩ := exec_shown h.toHasRoutines
    (fun entry inputs hname => writing_mainStart h hname inputs)
    (fun fuel s => ((writing_textCore h).writes x fuel).1.body h.main_obeys)
  refine ⟨p, hp, fun fuel inputs e he => ?_⟩
  obtain ⟨w, m, ⟨-, -, -, -, hlog⟩, shown, hmem, rfl | rfl⟩ := hshown fuel inputs e he
  · exact (hlog shown hmem).2
  · exact (hlog shown hmem).1.event m.heap

end Names

end Start

end Run

open Run

/-! ### Outcomes -/

theorem mapM_str? (texts : List Text) : (texts.map Datum.str).mapM Datum.str? = some texts := by
  induction texts with
  | nil => rfl
  | cons t rest ih =>
    rw [map_cons, mapM_cons, ih]
    rfl

theorem exists_texts_written {log : List Event} (h : ∀ e ∈ log, e.IsText) :
    ∃ texts : List Text, written log = texts.map Datum.str := by
  induction log with
  | nil => exact ⟨[], rfl⟩
  | cons e rest ih =>
    obtain ⟨he, hrest⟩ := forall_mem_cons.mp h
    obtain ⟨texts, htexts⟩ := ih hrest
    cases e with
    | write =>
      obtain ⟨u, rfl⟩ := he
      exact ⟨u :: texts, congrArg (Datum.str u :: ·) htexts⟩
    | _ => exact ⟨texts, htexts⟩

theorem text_of_mem_traced {log : List Event} (h : ∀ e ∈ log, e.IsText) {e : TraceEvent}
    (he : e ∈ traced log) : ∃ u, e.output = .str u := by
  obtain ⟨event, hevent, htrace⟩ := mem_filterMap.mp he
  cases event with
  | trace =>
    cases htrace
    exact h _ hevent
  | _ => cases htrace

/-- A text whose outputs have parts of all kinds. The last one looks like a
literal and is a choice between two. -/
def mixedText : Text :=
  "inicio\n  entero x\n  escribir \"x = \", x, x < 1\n  escribir \"si\" if x < 1 else \"no\"\nfin"

def mixedOutput : List (Option Text) :=
  [some "x = 0verdadero", some "si"]

/-- A text with an output that looks like a literal and is a comparison. -/
def comparedText : Text :=
  "inicio\n  escribir \"a\" == \"a\"\nfin"

/-- The first text writes two texts. The second one writes a truth value, and
tells it as the output of a step. -/
theorem completes_mixedText_comparedText :
    Completes mixedText Analysis.WritesText (fun _ o => o.output.map Datum.str? = mixedOutput) ∧
      Completes comparedText (fun _ => True) fun _ o =>
        o.output.map Datum.str? = [none] ∧ o.trace.map (fun e => e.output.str?) = [none] := by
  decide +kernel

end Pseudocode
