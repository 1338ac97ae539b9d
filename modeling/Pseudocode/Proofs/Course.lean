import Pseudocode.Proofs.Nesting

/-!
# The ways through a nested body

A body can be passed through in many ways: every loop is entered any
number of times, every choice takes either branch, and at a `volver` the
way may end. What a way has in common with a walk through the chart and
with a run of the script is the order in which the steps come:
declarations, inputs, outputs, and the rounds of counted loops.

* `Statement.steps`: the line of a statement that is a step by itself.
* `Ways`: the lines of the steps on the ways that come to the end, and on
  those that end at a `volver`. There is one operation for each way to
  put blocks together, and `Ways.Le` compares the results.
* `Body.ways`: the ways through a body.
-/

namespace Pseudocode

variable {F : List Nat → Prop} {ls : List Nat}

def Kind.isStep : Kind → Bool
  | .declare | .read | .write => true
  | _ => false

def Statement.steps (s : Statement) : List Nat :=
  if s.kind.isStep then [s.line] else []

/-! ### Lists of lines -/

def Then (F G : List Nat → Prop) (ls : List Nat) : Prop :=
  ∃ xs ys, F xs ∧ G ys ∧ ls = xs ++ ys

theorem then_assoc {G H : List Nat → Prop} (h : Then F (Then G H) ls) : Then (Then F G) H ls := by
  obtain ⟨xs, _, hxs, ⟨ys, zs, hys, hzs, rfl⟩, rfl⟩ := h
  exact ⟨xs ++ ys, zs, ⟨xs, ys, hxs, hys, rfl⟩, hzs, (List.append_assoc ..).symm⟩

theorem then_nil (h : Then F (· = []) ls) : F ls := by
  obtain ⟨xs, _, hxs, rfl, rfl⟩ := h
  rwa [List.append_nil]

theorem nil_then : Then (· = []) F ls ↔ F ls := by
  constructor
  · rintro ⟨_, ys, rfl, hys, rfl⟩
    exact hys
  · exact fun h => ⟨[], ls, rfl, h, rfl⟩

/-- Any number of lists of lines after each other. -/
inductive Rounds (F : List Nat → Prop) : List Nat → Prop
  | nil : Rounds F []
  | cons {xs ys : List Nat} : F xs → Rounds F ys → Rounds F (xs ++ ys)

theorem Rounds.ofThen (h : Then F (Rounds F) ls) : Rounds F ls := by
  obtain ⟨xs, ys, hxs, hys, rfl⟩ := h
  exact .cons hxs hys

theorem Rounds.mono {G : List Nat → Prop} (h : ∀ ls, F ls → G ls)
    (hls : Rounds F ls) : Rounds G ls := by
  induction hls with
  | nil => exact .nil
  | cons hxs _ ih => exact .cons (h _ hxs) ih

/-! ### Ways -/

structure Ways where
  whole : List Nat → Prop
  /-- The way ends at a `volver` of the block. -/
  left : List Nat → Prop

namespace Ways

def only (ls : List Nat) : Ways :=
  ⟨(· = ls), fun _ => False⟩

/-- Past a statement; a `volver` may be passed, too. -/
def past (s : Statement) : Ways :=
  ⟨(· = s.steps), fun ls => s.kind = .returnScope ∧ ls = []⟩

/-- Through one block and then through another. -/
def seq (V W : Ways) : Ways :=
  ⟨Then V.whole W.whole, fun ls => V.left ls ∨ Then V.whole W.left ls⟩

def or (V W : Ways) : Ways :=
  ⟨fun ls => V.whole ls ∨ W.whole ls, fun ls => V.left ls ∨ W.left ls⟩

def rounds (V : Ways) : Ways :=
  ⟨Rounds V.whole, Then (Rounds V.whole) V.left⟩

structure Le (V W : Ways) : Prop where
  whole : ∀ ls, V.whole ls → W.whole ls
  left : ∀ ls, V.left ls → W.left ls

variable {U V W : Ways}

theorem le_refl (W : Ways) : W.Le W :=
  ⟨fun _ h => h, fun _ h => h⟩

theorem le_or_left : V.Le (V.or W) :=
  ⟨fun _ => .inl, fun _ => .inl⟩

theorem le_or_right : W.Le (V.or W) :=
  ⟨fun _ => .inr, fun _ => .inr⟩

theorem seq_assoc_le : (U.seq (V.seq W)).Le ((U.seq V).seq W) := by
  refine ⟨fun _ => then_assoc, ?_⟩
  rintro ls (h | ⟨xs, ys, hxs, h | h, rfl⟩)
  · exact .inl (.inl h)
  · exact .inl (.inr ⟨xs, ys, hxs, h, rfl⟩)
  · exact .inr (then_assoc ⟨xs, ys, hxs, h, rfl⟩)

theorem seq_nil_le : (V.seq (only [])).Le V := by
  refine ⟨fun _ => then_nil, ?_⟩
  rintro ls (h | ⟨xs, ys, -, h, -⟩)
  · exact h
  · exact h.elim

theorem le_seq_nil : V.Le (V.seq (only [])) :=
  ⟨fun ls h => ⟨ls, [], h, rfl, (List.append_nil ls).symm⟩, fun _ => .inl⟩

theorem nil_seq_le : ((only []).seq V).Le V := by
  refine ⟨fun _ => nil_then.mp, ?_⟩
  rintro ls (h | h)
  · exact h.elim
  · exact nil_then.mp h

theorem le_nil_seq : V.Le ((only []).seq V) :=
  ⟨fun _ => nil_then.mpr, fun _ h => .inr (nil_then.mpr h)⟩

theorem rounds_le (h : V.Le W) : V.rounds.Le W.rounds := by
  refine ⟨fun _ => Rounds.mono h.whole, ?_⟩
  rintro _ ⟨xs, ys, hxs, hys, rfl⟩
  exact ⟨xs, ys, hxs.mono h.whole, h.left ys hys, rfl⟩

theorem nil_le_rounds : (only []).Le V.rounds := by
  refine ⟨?_, fun _ h => h.elim⟩
  rintro _ rfl
  exact .nil

theorem seq_rounds_le : (V.seq V.rounds).Le V.rounds := by
  refine ⟨fun _ => Rounds.ofThen, ?_⟩
  rintro ls (h | ⟨xs, _, hxs, ⟨ys, zs, hys, hzs, rfl⟩, rfl⟩)
  · exact ⟨[], ls, .nil, h, rfl⟩
  · exact ⟨xs ++ ys, zs, .cons hxs hys, hzs, (List.append_assoc ..).symm⟩

theorem le_past_seq {s : Statement} (h : s.kind.isStep = false) : V.Le ((past s).seq V) := by
  have hsteps : s.steps = [] := by
    unfold Statement.steps
    rw [h]
    rfl
  exact ⟨fun ls hls => ⟨[], ls, hsteps.symm, hls, rfl⟩,
    fun ls hls => .inr ⟨[], ls, hsteps.symm, hls, rfl⟩⟩

end Ways

namespace Body

/-- The lines that come before each round of a loop that tests first: its
own, if it counts. -/
def roundSteps (counted : Bool) (head : Statement) : List Nat :=
  if counted then [head.line] else []

def ways : Body → Ways
  | .nil => .only []
  | .comment _ rest => rest.ways
  | .plain s rest => (Ways.past s.1).seq rest.ways
  | .pretest counted head body _ rest =>
    ((Ways.only (roundSteps counted head.1)).seq body.ways).rounds.seq rest.ways
  | .posttest _ body _ rest => (body.ways.seq body.ways.rounds).seq rest.ways
  | .choice _ _ yes _ rest => (yes.ways.or (.only [])).seq rest.ways
  | .choiceElse _ _ yes _ no _ rest => (yes.ways.or no.ways).seq rest.ways

end Body

end Pseudocode
