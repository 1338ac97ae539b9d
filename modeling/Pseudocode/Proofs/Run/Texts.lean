import Pseudocode.Proofs.Run.Slot
import Pseudocode.Proofs.Script.Texts

/-!
# What a script writes is a text

The variables of output statements have texts as their values, since only
texts are stored in them and nothing else can reach them. What the host is
asked to write, and what a step tells as its output, comes from these
variables.

* `Value.IsText`, `Showing.IsText`, `Event.IsText`: a value is a text, and so
  is what is written or told as an output.
* `Core.writing`: the invariant that all that was shown is so.
* `Core.Writing`: the core has what an output statement needs.
* `Core.Writing.call_text`, `Core.Writing.gives`: the routine for texts and
  the expressions that pass as texts have texts as their values.
* `Core.Writing.compose_upholds`, `write_upholds`, `trace_upholds`: the three
  statements of an output statement keep the invariant.
* `Core.Writing.writes`: code that keeps to the rules writes texts only.
-/

namespace Pseudocode.Run

open Text Script Realm List Expr

/-! ### Texts -/

def Value.IsText (v : Value) : Prop :=
  ∃ t, v = .str t

def Showing.IsText : Showing → Prop
  | .write v => v.IsText
  | .trace _ _ output => output.IsText
  | _ => True

def Event.IsText : Event → Prop
  | .write d => ∃ u, d = .str u
  | .trace e => ∃ u, e.output = .str u
  | _ => True

theorem Showing.IsText.event {shown : Showing} (h : shown.IsText) (heap : Heap) :
    (heap.event shown).IsText := by
  cases shown with
  | write | trace =>
    obtain ⟨u, rfl⟩ := h
    exact ⟨u, by unfold Heap.datum; rw [Heap.writeOut]⟩
  | _ => trivial

namespace Core

variable {t : Text} {v : Value}

namespace World

variable {k : Core} {w : k.World}

theorem binary_isText {assigning : Bool} {a b : Value} (h : a.IsText ∨ b.IsText) :
    Safe w (binary .add assigning a b) Value.IsText := by
  rcases h with ⟨t, rfl⟩ | ⟨t, rfl⟩
  · cases b with
    | str u => exact .pure ⟨t ++ u, rfl⟩
    | _ => exact .fail
  · cases a with
    | str u => exact .pure ⟨u ++ t, rfl⟩
    | _ => exact .fail

theorem apply_str_isText {args : List Value} : Safe w (Builtin.apply .str args) Value.IsText := by
  refine .get_bind fun h _ => ?_
  show Safe w (optionalArgument _ args _ _) _
  unfold optionalArgument
  split
  · exact .pure ⟨[], rfl⟩
  · exact Safe.any.bind fun t _ => .pure ⟨t, rfl⟩
  · exact .fail

end World

/-! ### The invariant -/

/-- All that was written or told as an output is a text, and the routines for
texts are at their places. -/
def writing (k : Core) (text writer : Nat × Closure) : k.Invariant where
  At w m := w.Steady m ∧ (text.1, .closure text.2) ∈ w.shown ∧
    (writer.1, .closure writer.2) ∈ w.shown ∧ k.asks HostAct.write.word = false ∧
      ∀ p ∈ m.log, p.1.IsText ∧ p.2.IsText
  steady h := h.1
  heap := by
    rintro w w' m h ⟨hm, htext, hwriter, hrest⟩ hle hs
    exact ⟨⟨hs, hm.fits.mono fun p hp => hp.mono hle⟩, hle.shown _ htext, hle.shown _ hwriter, hrest⟩
  frames := by
    rintro w m fs ⟨hm, hrest⟩ hfits
    exact ⟨⟨hm.sound, hfits⟩, hrest⟩
  inputs := by
    rintro w m ds ⟨hm, hrest⟩
    exact ⟨{ hm with }, hrest⟩
  reveal := by
    rintro w m shown ⟨hm, htext, hwriter, hasks, hlog⟩ hshown
    refine ⟨{ hm with }, htext, hwriter, hasks, fun p hp => ?_⟩
    rcases Array.mem_push.mp hp with hp | rfl
    · exact hlog p hp
    -- Code outside the core neither writes nor reports a step.
    · cases shown with
      | trace => cases hshown
      | write => exact absurd (hasks.symm.trans hshown) (by decide)
      | _ => exact ⟨trivial, trivial⟩

theorem writing_shows {k : Core} {text writer : Nat × Closure} {w : k.World} {m : Machine}
    {shown : Showing} (hm : (k.writing text writer).At w m) (h : shown.IsText) :
    (k.writing text writer).At w (m.shows shown) := by
  obtain ⟨hm, htext, hwriter, hasks, hlog⟩ := hm
  refine ⟨{ hm with }, htext, hwriter, hasks, fun p hp => ?_⟩
  rcases Array.mem_push.mp hp with hp | rfl
  · exact hlog p hp
  · exact ⟨h, h.event m.heap⟩

/-- The core has what an output statement needs: the routine that gives a
text, the one that writes it and the one that reports a step, each under its
name, and variables that have texts as their values. -/
structure Writing (k : Core) (text writer : Nat × Closure) : Prop where
  rules : k.rules = textRules k.entryPoint k.loose
  admits : ∀ v, k.admits v ↔ v.IsText
  text_binding : k.bindings.lookup "__text".toList = some [.routine text.1]
  writer_binding : k.bindings.lookup "__write".toList = some [.routine writer.1]
  outputs : ∀ t ∈ k.loose, k.bindings.lookup t = none ∧ builtinValue? t = none
  givesText : text.2.code.givesText k.rules = true
  text_initials : ∀ (w : k.World), TameEntries w text.2.initials
  isWriter : writer.2.code.isWriter = true
  writer_initials : writer.2.initials = []
  isTracer : k.tracer.code.isTracer = true
  hasOutput : k.tracer.code.locals.contains "output" = true
  tracer_initials : k.tracer.initials = [("output".toList, .str [])]
  names : ∀ p ∈ writerParams ++ tracerParams, k.rules.mayBind p.name = true

namespace Invariant

variable {k : Core} {I : k.Invariant} {w : k.World} {x : Executable} {s : Site} {fuel : Nat}

/-- The expressions that pass as texts have texts as their values, for one
bound of the recursion. -/
def Gives (I : k.Invariant) (x : Executable) (fuel : Nat) : Prop :=
  ∀ (w : k.World) s e, e.isText (Expr.obeys k.rules) = true →
    I.Upholds w (eval x fuel s e) fun _ => Value.IsText

def TextFlow (flow : Flow) : Prop :=
  ∃ t, flow = .leftScope (.str t)

theorem leave_gives (hgives : ∀ n < fuel, I.Gives x n) {l : Nat} {e : Expr}
    (he : e.isText (obeys k.rules) = true) :
    I.Upholds w (execBlock x fuel s [.action l (.leaveScope (some e))]) fun _ => TextFlow := by
  match fuel with
  | 0 | 1 | 2 | 3 => exact .stop
  | fuel + 4 =>
    refine Upholds.bind (Q := fun _ => TextFlow) ?_ ?_
    · refine (hgives fuel (by omega) w _ e he).bind ?_
      rintro _ - _ ⟨t, rfl⟩
      exact .pure ⟨t, rfl⟩
    · rintro _ - _ ⟨t, rfl⟩
      exact .pure ⟨t, rfl⟩

theorem textBody_gives (ih : ∀ n < fuel, I.Evaluates x n) (hgives : ∀ n < fuel, I.Gives x n)
    {body : List Node} (h : isTextBody (obeys k.rules) body = true) :
    I.Upholds w (execBlock x fuel s body) fun _ => TextFlow := by
  induction body using isTextBody.induct generalizing w fuel with
  | case1 => exact leave_gives hgives h
  | case2 l test l' e rest ihrest =>
    simp only [isTextBody, Bool.and_eq_true] at h
    obtain ⟨⟨htest, he⟩, hrest⟩ := h
    match fuel with
    | 0 | 1 => exact .stop
    | fuel + 2 =>
      unfold execBlock
      -- A test that holds ends the block, and one that does not leads to the rest.
      refine Upholds.bind (Q := fun _ flow => TextFlow flow ∨ flow = .next) ?_ ?_
      · refine ((ih fuel (by omega)).value htest).bind fun w₁ _ v _ => Stays.isTrue.then fun b _ => ?_
        refine .ite ?_ ?_
        · exact (leave_gives (fun n hn => hgives n (by omega)) he).mono fun _ _ _ h => .inl h
        · exact fun m hm => Ends.block_nil hm (.inr rfl) fuel
      · rintro w₁ - flow (⟨t, rfl⟩ | rfl)
        · exact .pure ⟨t, rfl⟩
        · exact ihrest (fun n hn => ih n (by omega)) (fun n hn => hgives n (by omega)) hrest
  | case3 body hleave hchoice =>
    unfold isTextBody at h
    split at h
    · exact absurd rfl (hleave _ _)
    · exact absurd rfl (hchoice _ _ _ _ _)
    · cases h

theorem Stays.ofReads {α : Type} {e : Exec α} {Q : α → Prop}
    (h : ∀ m, I.At w m → Reads m e Q) : I.Stays w e Q :=
  fun m hm => ⟨(h m hm).1.symm ▸ hm, (h m hm).2⟩

theorem Upholds.ends {α : Type} {e : Exec α} {Q : k.World → α → Prop} {m : Machine}
    (h : I.Upholds w e Q) (hm : I.At w m) : I.Ends w (fun w' _ a => True ∧ Q w' a) (e m) :=
  (h m hm).mono w.le_refl fun _ _ _ _ ha => ⟨trivial, ha⟩

theorem call_str {a : Arguments} :
    I.Upholds w (call x fuel s (.builtin .str) a) fun _ => Value.IsText := by
  cases fuel with
  | zero => exact .stop
  | succ => exact .ite (.evaluate (.ofSafe World.apply_str_isText)) .fail

theorem storeOne_upholds (h : w.Fits (t, v)) :
    I.Upholds w (storeAll x fuel s [(.name t, v)]) fun _ _ => True := by
  match fuel with
  | 0 | 1 => exact .stop
  | fuel + 2 =>
    refine (storeName_stays h).then fun _ _ => ?_
    exact .pure trivial

end Invariant

namespace Writing

variable {k : Core} {text writer : Nat × Closure} {w : k.World} {m : Machine} {x : Executable}
variable {n : Nat} {u : Text}
  {s : Site} {fuel : Nat} (hk : k.Writing text writer)
include hk

theorem unbound_eq : k.unbound = ["str".toList] :=
  congrArg Rules.unbound hk.rules

theorem also_eq : k.also = isTextAction k.loose :=
  congrArg Rules.also hk.rules

theorem reports_eq : k.reports = fun _ _ => false :=
  congrArg Rules.reports hk.rules

/-! ### Names -/

theorem lookup_text (hm : w.Fitting m)
    (hv : m.lookup n "__text" = .ok v) : v = .routine text.1 :=
  mem_singleton.mp (hm.lookup_hidden hv hk.text_binding (by decide +kernel))

theorem lookup_writer (hm : w.Fitting m)
    (hv : m.lookup n "__write" = .ok v) : v = .routine writer.1 :=
  mem_singleton.mp (hm.lookup_hidden hv hk.writer_binding (by decide +kernel))

theorem lookup_output (hm : w.Fitting m) (ht : t ∈ k.loose)
    (hv : m.lookup n t = .ok v) : v.IsText := by
  obtain ⟨hbinding, hbuiltin⟩ := hk.outputs t ht
  rcases hm.lookup hv with hfits | hfound
  · have hvalue := hfits.2
    rw [hbinding] at hvalue
    exact (hk.admits v).mp ((if_pos ht).mp hvalue)
  · exact nomatch hbuiltin.symm.trans hfound

theorem fits_output (ht : t ∈ k.loose) : w.Fits (t, .str u) := by
  obtain ⟨hbinding, hbuiltin⟩ := hk.outputs t ht
  refine ⟨?_, ?_⟩
  · rw [hk.unbound_eq]
    rintro (_ | ⟨_, ⟨⟩⟩)
    exact absurd hbuiltin (by decide +kernel)
  · rw [hbinding]
    exact (if_pos ht).mpr ((hk.admits _).mpr ⟨u, rfl⟩)

theorem fits_param {p : Param Expr} (hp : p ∈ writerParams ++ tracerParams)
    (hv : Tame w v) : w.Fits (p.name, v) :=
  World.fits_of_tame ⟨hk.names p hp, hv⟩

/-! ### Expressions -/

section Expressions

variable (ih : ∀ n < fuel, (k.writing text writer).Evaluates x n)
  (hgives : ∀ n < fuel, (k.writing text writer).Gives x n)
include ih hgives

theorem call_text {a : Arguments} (ha : TameArguments w a) :
    (k.writing text writer).Upholds w (call x fuel s (.routine text.1) a)
      fun _ => Value.IsText := by
  have hcode := hk.givesText
  simp only [RoutineOf.givesText, RoutineOf.obeys, Bool.and_eq_true, Bool.not_eq_true'] at hcode
  obtain ⟨⟨⟨hasync, hyields⟩, hparams, -⟩, hbody⟩ := hcode
  have hnames : ∀ p ∈ text.2.code.params, k.rules.mayBind p.name = true := fun p hp =>
    (obeysParams_iff.mp hparams p hp).1
  match fuel with
  | 0 => exact .stop
  | fuel + 1 =>
    refine .get_bind fun m hm => ?_
    rw [hm.1.sound.closure?_shown hm.2.1]
    refine (Invariant.Upholds.evaluate (bindArguments_tame ha hnames
      (hk.text_initials w))).bind fun w₁ _ bound hbound => ?_
    rw [if_neg (by simp [hyields]), if_neg (by simp [hasync])]
    match fuel with
    | 0 => exact .stop
    | fuel + 1 =>
      refine .ite .fail_bind ((Invariant.enterFrame_stays fun p hp =>
        World.fits_of_tame (hbound p hp)).then fun n _ => ?_)
      refine (Invariant.textBody_gives (fun n hn => ih n (by omega))
        (fun n hn => hgives n (by omega)) hbody).bind ?_
      rintro w₂ - _ ⟨t, rfl⟩
      exact Invariant.leaveFrame_stays.then fun _ _ => .pure ⟨t, rfl⟩

theorem gives : (k.writing text writer).Gives x fuel := by
  intro w s e he
  match fuel with
  | 0 => exact .stop
  | fuel + 1 =>
    have hpart := hgives fuel (by omega)
    have hany := ih fuel (by omega)
    unfold isText at he
    split at he
    · next t =>
      exact .pure ⟨t, rfl⟩
    · next parts =>
      have hparts : obeysAll k.rules parts = true := by rwa [obeys] at he
      exact Invariant.Upholds.bind (hany.parts false w s parts (obeysAll_iff.mp hparts))
        fun _ _ t _ => .pure ⟨t, rfl⟩
    · exact hpart w _ _ he
    · next left right =>
      simp only [Bool.or_eq_true, Bool.and_eq_true] at he
      have hside : ∀ (w : k.World) e, e.isText (obeys k.rules) = true ∨
          e.obeys k.rules = true → (k.writing text writer).Upholds w (eval x fuel s e)
            fun _ v => e.isText (obeys k.rules) = true → v.IsText := by
        intro w e hside
        by_cases htext : e.isText (obeys k.rules) = true
        · exact (hpart w s e htext).mono fun _ _ _ hv _ => hv
        · exact (hany.value (hside.resolve_left htext)).mono fun _ _ _ _ h => absurd h htext
      have hleft := he.elim (fun h => Or.inl h.1) fun h => .inr h.1
      have hright := he.elim (fun h => h.2) fun h => .inl h.2
      have hsome := he.imp (fun h => h.1) fun h => h.2
      refine (hside w left hleft).bind fun w₁ _ a ha => (hside w₁ right hright).bind
        fun _ _ b hb => .evaluate (.ofSafe (World.binary_isText ?_))
      exact hsome.imp ha hb
    · next left right =>
      simp only [Bool.and_eq_true] at he
      refine (hpart w s left he.1).bind fun w₁ _ v hv => Invariant.Stays.isTrue.then fun _ _ => ?_
      exact .ite (hpart w₁ s right he.2) (.pure hv)
    · next left right =>
      simp only [Bool.and_eq_true] at he
      refine (hpart w s left he.1).bind fun w₁ _ v hv => Invariant.Stays.isTrue.then fun _ _ => ?_
      exact .ite (.pure hv) (hpart w₁ s right he.2)
    · next test yes no =>
      simp only [Bool.and_eq_true] at he
      refine (hany.value he.1.1).bind fun w₁ _ v _ => Invariant.Stays.isTrue.then fun _ _ => ?_
      exact .ite (hpart w₁ s yes he.1.2) (hpart w₁ s no he.2)
    · next f args named =>
      simp only [Bool.and_eq_true, Bool.or_eq_true, beq_iff_eq, all_eq_true] at he
      obtain ⟨⟨hf, hargs⟩, hnamed⟩ := he
      have harguments : ∀ (w : k.World) callee, (k.writing text writer).Upholds w
          (evalArguments x fuel s callee args named) fun w' a => TameArguments w' a := fun w callee =>
        Invariant.Upholds.mono (hany.arguments false w s callee args named hargs hnamed)
          fun _ _ _ ha => ⟨ha.1.1, ha.2.1⟩
      rcases hf with rfl | rfl
      · refine (Invariant.Stays.ofReads (I := k.writing text writer) fun m hm => .name
          (fun v hv => lookup_text hk hm.1.fits hv) fuel).then ?_
        rintro _ rfl
        refine (harguments w _).bind fun w₁ _ a ha => ?_
        exact call_text hk (fun n hn => ih n (by omega)) (fun n hn => hgives n (by omega)) ha
      · refine (Invariant.Stays.ofReads (I := k.writing text writer) fun m hm =>
          Invariant.reads_builtin hm.1.fits (by rw [hk.unbound_eq]; simp) rfl fuel).then ?_
        rintro _ rfl
        exact (harguments w _).bind fun _ _ _ _ => Invariant.call_str
    · cases he

end Expressions

/-! ### Output statements -/

theorem compose_upholds (hgives : ∀ n < fuel, (k.writing text writer).Gives x n) {e : Expr}
    (ht : t ∈ k.loose) (he : e.isText (obeys k.rules) = true) :
    (k.writing text writer).Upholds w (execAction x fuel s (.assign [.name t] e))
      TameFlow := by
  match fuel with
  | 0 => exact .stop
  | fuel + 1 =>
    refine (hgives fuel (by omega) w s e he).bind ?_
    rintro w₁ - _ ⟨u, rfl⟩
    exact (Invariant.storeOne_upholds (fits_output hk ht)).bind fun _ _ _ _ => .pure trivial

omit hk in
theorem writerCall_ends {locals : List Text} (hframe : s.frame = n)
    (hlocal : locals.contains "text".toList = true)
    (h : Holds n locals [("text".toList, .str u)] [] m.frames)
    (hm : (k.writing text writer).At w m) (fuel : Nat) :
    (k.writing text writer).Ends w (fun _ _ _ => True) (eval x fuel s writerCall m) := by
  have hio : ∀ fuel, Reads m (eval x fuel s (.attribute (.name "io") "write"))
      (· = .hostAct .write) := by
    intro fuel
    cases fuel with
    | zero => exact .stop
    | succ fuel =>
      unfold eval
      refine (Reads.name (fun v hv => hm.1.fits.lookup_host hv) fuel).bind ?_
      rintro _ rfl
      exact .evaluate rfl fun _ h => (Except.ok.inj h).symm
  have hvalue : ∀ v, m.lookup s.frame "text".toList = .ok v → v = .str u := by
    intro v hv
    rw [hframe, h.lookup hlocal (by decide) rfl] at hv
    exact (Except.ok.inj hv).symm
  cases fuel with
  | zero => exact .stop hm
  | succ fuel =>
    unfold writerCall eval
    refine .read_bind (hio fuel) hm ?_
    rintro _ rfl
    refine .read_bind (Reads.arguments rfl
      (.items_cons (by simp [bare]) (.name hvalue) .items_nil) fuel) hm ?_
    rintro ⟨byPosition, byName⟩ ⟨rfl, _, _, rfl, rfl, rfl⟩
    cases fuel with
    | zero => exact .stop hm
    | succ =>
      unfold call
      exact ⟨w, w.le_refl, writing_shows hm ⟨u, rfl⟩, trivial⟩

theorem writer_ends (hm : (k.writing text writer).At w m) (fuel : Nat) :
    (k.writing text writer).Ends w (fun _ _ _ => True)
      (call x fuel s (.routine writer.1) ⟨[.str u], []⟩ m) := by
  have hwriter := hk.isWriter
  simp only [RoutineOf.isWriter, Bool.and_eq_true, Bool.not_eq_true'] at hwriter
  obtain ⟨⟨⟨⟨hasync, hyields⟩, hlocal⟩, hparams⟩, hbody⟩ := hwriter
  obtain ⟨l, hbody⟩ := exists_writerBody hbody
  have hfits : ∀ p ∈ [("text".toList, Value.str u)], w.Fits p :=
    forall_mem_singleton.mpr (fits_param hk (p := ⟨.plain, "text", none, none⟩)
      (by simp [writerParams]) trivial)
  cases fuel with
  | zero => exact .stop hm
  | succ fuel =>
    refine .read_bind (Reads.get_bind (.pure rfl)) hm ?_
    rintro m rfl
    rw [hm.1.sound.closure?_shown hm.2.2.1]
    dsimp only
    rw [eq_writerParams hparams, hk.writer_initials]
    refine .read_bind
      (.evaluate rfl fun _ h => (Except.ok.inj h).symm) hm ?_
    rintro _ rfl
    rw [if_neg (by simp [hyields]), if_neg (by simp [hasync])]
    cases fuel with
    | zero => exact .stop hm
    | succ fuel =>
      unfold runRoutine
      split
      · exact ⟨w, w.le_refl, hm⟩
      · refine .bind (Q := fun w' m' n => w' = w ∧
          Holds n writer.2.code.locals [("text", .str u)] [] m'.frames)
            ⟨w, w.le_refl, (Invariant.enterFrame_stays hfits m hm).1, rfl, .push _ _⟩ ?_
        rintro _ - m₁ n hm₁ ⟨rfl, hholds⟩
        rw [hbody]
        refine .bind (Q := fun _ _ _ => True) ?_ ?_
        · refine Invariant.Ends.block_cons hm₁ (fun fuel => ?_)
            (fun _ _ m₂ hm₂ _ => .block_nil hm₂ trivial) (fun _ _ _ hne h => absurd h hne) fuel
          rcases fuel with _ | _ | fuel
          · exact .stop hm₁
          · exact .stop hm₁
          · exact (writerCall_ends rfl hlocal hholds hm₁ fuel).bind fun _ _ _ _ hm₂ _ =>
              .pure hm₂ rfl
        · intro w₂ _ m₂ flow hm₂ _
          refine (Invariant.leaveFrame_stays.then fun _ _ => ?_) m₂ hm₂
          cases flow <;> exact .pure trivial

theorem write_upholds (ht : t ∈ k.loose) :
    (k.writing text writer).Upholds w
      (execAction x fuel s (.evaluate (.call (.name "__write") [.name t] []))) TameFlow := by
  intro m hm
  match fuel with
  | 0 | 1 => exact .stop hm
  | fuel + 2 =>
    refine .bind (Q := fun _ _ _ => True) ?_ fun _ _ _ _ hm' _ => .pure hm' trivial
    refine .read_bind (.name (fun v hv => lookup_writer hk hm.1.fits hv) fuel) hm ?_
    rintro _ rfl
    refine .read_bind (Reads.arguments rfl (.items_cons (by nofun)
      (.name fun v hv => lookup_output hk hm.1.fits ht hv) .items_nil) fuel) hm ?_
    rintro ⟨byPosition, byName⟩ ⟨rfl, _, _, rfl, ⟨u, rfl⟩, rfl⟩
    exact writer_ends hk hm fuel

theorem output_upholds {rest : List Expr} (h : isOutput k.loose rest = true) :
    (k.writing text writer).Upholds w (evalItems x fuel s rest) fun _ vs =>
      ∃ u, vs = [] ∧ u = [] ∨ vs = [.str u] := by
  unfold isOutput at h
  split at h
  · refine .ofStays (.ofReads fun m _ => (Reads.items_nil fuel).mono ?_)
    rintro _ rfl
    exact ⟨[], .inl ⟨rfl, rfl⟩⟩
  · next t =>
    refine .ofStays (.ofReads fun m hm => (Reads.items_cons (by nofun) (.name fun v hv =>
      lookup_output hk hm.1.fits (by simpa using h) hv) .items_nil fuel).mono ?_)
    rintro _ ⟨_, _, rfl, ⟨u, rfl⟩, rfl⟩
    exact ⟨u, .inr rfl⟩
  · cases h

theorem tracer_ends {line : Nat} {snapshot : Value} {rest : List Value}
    (hsnapshot : Tame w snapshot) (hrest : rest = [] ∧ u = [] ∨ rest = [.str u])
    (hm : (k.writing text writer).At w m) (fuel : Nat) :
    (k.writing text writer).Ends w (fun _ _ _ => True)
      (call x fuel s (.routine k.tracerAt) ⟨.int line :: snapshot :: rest, []⟩ m) := by
  have hfits : ∀ p ∈ [("line".toList, .int line), ("snapshot", snapshot),
      ("output", .str u)], w.Fits p := by
    simp only [forall_mem_cons]
    exact ⟨fits_param hk (p := ⟨.plain, "line", none, none⟩) (by simp [tracerParams]) trivial,
      fits_param hk (p := ⟨.plain, "snapshot", none, none⟩) (by simp [tracerParams]) hsnapshot,
      fits_param hk (p := ⟨.plain, "output", some (.str []), none⟩) (by simp [tracerParams]) trivial,
      nofun⟩
  have hbind : Makes w (bindArguments k.tracer.code.path tracerParams k.tracer.initials
      ⟨.int line :: snapshot :: rest, []⟩) fun w' bound => (∀ p ∈ bound, w'.Fits p) ∧
        bound.lookup "line".toList = some (.int line) ∧
          bound.lookup "output".toList = some (.str u) := by
    rw [hk.tracer_initials]
    have hgiven : rest = [] ∧ Value.str u = .str [] ∨ rest = [.str u] :=
      hrest.imp_left fun h => ⟨h.1, by rw [h.2]⟩
    refine (Invariant.bindArguments_tracer hgiven).mono ?_
    rintro _ _ - ⟨rfl, rfl⟩
    exact ⟨hfits, rfl, rfl⟩
  have hname : "snapshot".toList ∉ k.hidden :=
    (Rules.mayBind_iff.mp (hk.names ⟨.plain, "snapshot", none, none⟩ (by simp [tracerParams]))).1
  refine (Invariant.tracer_reveals (V := fun _ _ => True) (O := Value.IsText) hk.isTracer
    (by rw [hk.unbound_eq]; decide) hbind ?_ ?_ hm fuel).ends ?_
  · intro w' _ bound _ n m' hm' _ v hv
    have htame : Tame w' v := (hm'.1.fits.lookup hv).elim (fun h => h.tame hname)
      World.tame_builtinValue?
    exact .ofSafe ((valuesOf_safe htame).mono fun _ _ => trivial)
  · intro w' _ bound hbound n m' _ hholds v hv
    rw [hholds.lookup hk.hasOutput (by decide) hbound] at hv
    exact ⟨u, (Except.ok.inj hv).symm⟩
  · rintro w' m' _ hm' ⟨vs, output, rfl, -, houtput⟩
    exact writing_shows hm' houtput

theorem trace_upholds (ih : ∀ n < fuel, (k.writing text writer).Evaluates x n) {line : Nat}
    {es rest : List Expr} (hes : obeysAll k.rules es = true)
    (hrest : isOutput k.loose rest = true) :
    (k.writing text writer).Upholds w (execAction x fuel s
      (.evaluate (.call (.name "__trace") (.int line :: .list es :: rest) []))) TameFlow := by
  intro m hm
  match fuel with
  | 0 | 1 => exact .stop hm
  | fuel + 2 =>
    refine .bind (Q := fun _ _ _ => True) ?_ fun _ _ _ _ hm' _ => .pure hm' trivial
    refine .read_bind (.name (fun v hv => hm.1.fits.lookup_trace hv) fuel) hm ?_
    rintro _ rfl
    have hline : ∀ n, (k.writing text writer).Upholds w (eval x n s (.int line))
        fun _ v => v = .int line := fun n =>
      .ofStays (.ofReads fun m _ => .constant (fun _ => by rfl) n)
    have hsnapshot : ∀ n < fuel, ∀ w', (k.writing text writer).Upholds w' (eval x n s (.list es))
        Tame := fun n hn w' => (ih n (by omega)).value (by rwa [obeys])
    refine .bind (Invariant.Ends.arguments hm rfl fun n hn => .items_cons hm (by nofun)
      (fun n' _ => (hline n').ends hm) (fun _ _ _ _ h => h) fun w' _ m' hm' _ n' hn' =>
        .items_cons hm' (by nofun) (fun n'' hn'' => (hsnapshot n'' (by omega) w').ends hm')
          (fun _ _ _ hle h => h.mono hle) fun w'' _ m'' hm'' _ n'' _ =>
            (output_upholds hk hrest).ends hm'') ?_
    rintro w₁ - m₁ ⟨byPosition, byName⟩ hm₁ ⟨-, rfl, _, _, rfl, rfl, snapshot, _, rfl, hv, u, hu⟩
    exact tracer_ends hk hv hu hm₁ fuel

/-! ### All code -/

theorem also_upholds (ih : ∀ n < fuel, (k.writing text writer).Evaluates x n)
    (hgives : ∀ n < fuel, (k.writing text writer).Gives x n) {a : Action}
    (h : k.also (obeys k.rules) a = true) :
    (k.writing text writer).Upholds w (execAction x fuel s a) TameFlow := by
  rw [hk.also_eq] at h
  unfold isTextAction at h
  split at h
  · simp only [Bool.and_eq_true, contains_iff_mem] at h
    exact compose_upholds hk hgives h.1 h.2
  · simp only [Bool.and_eq_true, beq_iff_eq, contains_iff_mem] at h
    obtain ⟨rfl, ht⟩ := h
    exact write_upholds hk ht
  · simp only [Bool.and_eq_true, beq_iff_eq, all_eq_true] at h
    obtain ⟨⟨rfl, hes⟩, hrest⟩ := h
    exact trace_upholds hk ih (obeysAll_iff.mpr hes) hrest
  · cases h

theorem writes (x : Executable) (fuel : Nat) :
    (k.writing text writer).Evaluates x fuel ∧ (k.writing text writer).Gives x fuel := by
  induction fuel using Nat.strongRecOn with
  | ind fuel ih =>
    have hevaluates := fun n hn => (ih n hn).1
    have hgives := fun n hn => (ih n hn).2
    refine ⟨?_, gives hk hevaluates hgives⟩
    cases fuel with
    | zero => exact .zero
    | succ fuel =>
      refine (hevaluates fuel (by omega)).succ (fun w s e line args _ h => ?_) fun w s a h =>
        also_upholds hk hevaluates hgives h
      rw [hk.reports_eq] at h
      cases h

end Writing

end Core

end Pseudocode.Run
