import Pseudocode.Proofs.Run.Code
import Pseudocode.Proofs.Run.Entry

/-!
# A run and its inputs

A run sees its inputs only through its reads, and each read takes the
next one. So what a run does up to a read depends on the inputs before it
alone: a run that never asks for more than it was given does the same when
there is more, and one that does has shown, up to the read for which there
was nothing, what every run on more inputs shows first.

* `Receives e m ds`: the reads of a computation from a state got the values
  `ds`, and each got one.
* `RunsDry e m ds log`: there was a read that got none; the reads before it
  got `ds`, and `log` is what had been shown when it was made.
* `Receives.feed` and `RunsDry.prefix_feed`: the same computation with more
  inputs.
* `answerable_run`: every run is of one of the two kinds.
-/

namespace Pseudocode.Run

open Text Script Realm List

variable {α : Type} {m : Machine} {e : Exec α}

/-! ### Variables -/

/-- A computation that sees no inputs, changes only the frames and stops
only at a fault. -/
structure OnFrames {α : Type} (e : Exec α) : Prop where
  ends : ∀ m stop, (e m).1 = .error stop → ∃ fault line, stop = .failed fault line
  frames : ∀ m, (e m).2 = { m with frames := (e m).2.frames }
  blind : ∀ m inputs, e { m with inputs } = ((e m).1, { (e m).2 with inputs })

theorem fail_onFrames (s : Site) (fault : Fault) : OnFrames (fail s fault : Exec α) :=
  ⟨fun _ _ h => ⟨fault, s.traceback, (Except.error.inj h).symm⟩, fun _ => rfl, fun _ _ => rfl⟩

theorem changeVars_onFrames (frame : Nat) (f : List (Text × Value) → List (Text × Value)) :
    OnFrames (modify fun m => m.changeVars frame f) :=
  ⟨nofun, fun _ => rfl, fun _ _ => rfl⟩

theorem OnFrames.look {f : Machine → Exec α} (hblind : ∀ m inputs, f { m with inputs } = f m)
    (hf : ∀ m, OnFrames (f m)) : OnFrames (get >>= f) := by
  refine ⟨fun m => (hf m).ends m, fun m => (hf m).frames m, fun m inputs => ?_⟩
  show f { m with inputs } { m with inputs } = _
  rw [hblind]
  exact (hf m).blind m inputs

theorem lookup_onFrames (s : Site) (name : Text) :
    OnFrames (do orFail s ((← get).lookup s.frame name)) := by
  refine .look (fun _ _ => rfl) fun m => ?_
  rcases m.lookup s.frame name with fault | v
  · exact fail_onFrames s fault
  · exact ⟨nofun, fun _ => rfl, fun _ _ => rfl⟩

theorem storeName_onFrames (s : Site) (name : Text) (v : Value) : OnFrames (storeName s name v) :=
  .look (fun _ _ => rfl) fun _ => changeVars_onFrames _ _

theorem deleteName_onFrames (s : Site) (name : Text) : OnFrames (deleteName s name) := by
  refine .look (fun _ _ => rfl) fun m => ?_
  split
  · exact changeVars_onFrames _ _
  · exact fail_onFrames s _
  · exact fail_onFrames s _

theorem enterFrame_onFrames (f : Frame) : OnFrames (enterFrame f) :=
  ⟨nofun, fun _ => rfl, fun _ _ => rfl⟩

theorem leaveFrame_onFrames (n : Nat) : OnFrames (leaveFrame n) := by
  have happly : ∀ m : Machine, leaveFrame n m =
      (.ok (), if n + 1 = m.frames.size && !(m.frames[n]?).any Frame.kept then
        { m with frames := m.frames.pop } else m) := fun _ => rfl
  refine ⟨nofun, fun m => ?_, fun m inputs => ?_⟩
  · rw [happly]
    split <;> rfl
  · rw [happly, happly]
    split <;> rfl

/-! ### What was shown -/

def Event.isRead : Event → Bool
  | .read _ => true
  | _ => false

/-- How often some events ask for a value. -/
def asks (log : List Event) : Nat :=
  log.countP Event.isRead

theorem asks_append (log log' : List Event) : asks (log ++ log') = asks log + asks log' :=
  countP_append

theorem asks_le_of_prefix {log log' : List Event} (h : log <+: log') : asks log ≤ asks log' :=
  h.sublist.countP_le

/-- What a run has shown, as it was when it was shown. -/
def Machine.shown (m : Machine) : List Event :=
  m.log.toList.map Prod.snd

theorem Machine.log_shows (m : Machine) (shown : Showing) :
    (m.shows shown).log.toList = m.log.toList ++ [(shown, m.heap.event shown)] :=
  Array.toList_push

theorem Machine.shown_shows (m : Machine) (shown : Showing) :
    (m.shows shown).shown = m.shown ++ [m.heap.event shown] := by
  rw [Machine.shown, m.log_shows, map_append]
  rfl

def Machine.feed (m : Machine) (ys : List Datum) : Machine :=
  { m with inputs := m.inputs ++ ys }

/-- A computation takes back nothing of what was shown. -/
def Grows {α : Type} (e : Exec α) : Prop :=
  ∀ m, m.log.toList <+: (e m).2.log.toList

/-- A computation neither looks at the inputs nor asks for one. -/
structure Blind {α : Type} (e : Exec α) : Prop where
  inputs : ∀ m inputs, e { m with inputs } = ((e m).1, { (e m).2 with inputs })
  grows : Grows e
  asks : ∀ m, asks (e m).2.shown = asks m.shown

namespace Blind

variable {α : Type} {e : Exec α}

theorem inputs_eq (h : Blind e) (m : Machine) : (e m).2.inputs = m.inputs := by
  have heq : e m = ((e m).1, { (e m).2 with inputs := m.inputs }) := h.inputs m m.inputs
  rw [heq]

theorem feed (h : Blind e) (m : Machine) (ys : List Datum) :
    e (m.feed ys) = ((e m).1, (e m).2.feed ys) := by
  have heq : e (m.feed ys) = ((e m).1, { (e m).2 with inputs := m.inputs ++ ys }) :=
    h.inputs m (m.inputs ++ ys)
  rw [heq, Machine.feed, h.inputs_eq]

theorem of_log (hinputs : ∀ m inputs, e { m with inputs } = ((e m).1, { (e m).2 with inputs }))
    (hlog : ∀ m, (e m).2.log = m.log) : Blind e := by
  refine ⟨hinputs, fun m => ?_, fun m => ?_⟩
  · exact hlog m ▸ prefix_rfl
  · rw [Machine.shown, hlog, Machine.shown]

theorem pure (a : α) : Blind (Pure.pure a) :=
  of_log (fun _ _ => rfl) fun _ => rfl

theorem stop (stop : Stop) : Blind (throw stop : Exec α) :=
  of_log (fun _ _ => rfl) fun _ => rfl

theorem evaluate (s : Site) (e : Eval α) : Blind (evaluate s e) :=
  of_log (fun _ _ => rfl) fun _ => rfl

theorem onFrames (h : OnFrames e) : Blind e := by
  refine of_log h.blind fun m => ?_
  rw [h.frames]

theorem reveal {shown : Showing} (h : ∀ label, shown ≠ .read label) : Blind (reveal shown) := by
  refine ⟨fun _ _ => rfl, fun m => ?_, fun m => ?_⟩
  · show m.log.toList <+: (m.shows shown).log.toList
    rw [m.log_shows]
    exact prefix_append ..
  · show Run.asks (m.shows shown).shown = Run.asks m.shown
    rw [m.shown_shows, asks_append]
    cases shown with
    | read label => exact absurd rfl (h label)
    | write | trace | print => rfl

end Blind

/-! ### One read -/

theorem nextInput_cons {s : Site} {label : Text} {d : Datum} {rest : List Datum}
    (h : m.inputs = d :: rest) :
    nextInput s label m = (.ok d, { m.shows (.read label) with inputs := rest }) := by
  obtain ⟨heap, frames, log, inputs⟩ := m
  cases h
  rfl

theorem nextInput_nil {s : Site} {label : Text} (h : m.inputs = []) :
    nextInput s label m = (.error (.starved label s.traceback), m.shows (.read label)) := by
  obtain ⟨heap, frames, log, inputs⟩ := m
  cases h
  rfl

theorem log_nextInput (s : Site) (label : Text) (m : Machine) :
    (nextInput s label m).2.log = (m.shows (.read label)).log := by
  rcases h : m.inputs with _ | ⟨d, rest⟩
  · rw [nextInput_nil h]
  · rw [nextInput_cons h]

theorem heap_nextInput (s : Site) (label : Text) (m : Machine) :
    (nextInput s label m).2.heap = m.heap := by
  rcases h : m.inputs with _ | ⟨d, rest⟩
  · rw [nextInput_nil h]
    rfl
  · rw [nextInput_cons h]
    rfl

theorem asks_shows_read (m : Machine) (label : Text) :
    asks (m.shows (.read label)).shown = asks m.shown + 1 := by
  rw [m.shown_shows, asks_append]
  rfl

/-! ### Reads of a computation -/

/-- The reads that a computation makes from a state got these values, in
order, and none got nothing. -/
inductive Receives : {α : Type} → Exec α → Machine → List Datum → Prop where
  | blind {α : Type} {e : Exec α} (m : Machine) : Blind e → Receives e m []
  | read {s : Site} {label : Text} {m m' : Machine} {d : Datum} :
    nextInput s label m = (.ok d, m') → Receives (nextInput s label) m [d]
  | look {α : Type} {f : Machine → Exec α} {m : Machine} {ds : List Datum} :
    (∀ m inputs, f { m with inputs } = f m) → Receives (f m) m ds → Receives (get >>= f) m ds
  | bind {α β : Type} {e : Exec α} {f : α → Exec β} {m m' : Machine} {a : α}
      {ds ds' : List Datum} :
    Receives e m ds → e m = (.ok a, m') → Receives (f a) m' ds' → Receives (e >>= f) m (ds ++ ds')
  | stop {α β : Type} {e : Exec α} {f : α → Exec β} {m m' : Machine} {stop : Stop}
      {ds : List Datum} :
    Receives e m ds → e m = (.error stop, m') → Receives (e >>= f) m ds
  | attempt {α : Type} {e : Exec α} {m : Machine} {ds : List Datum} :
    Receives e m ds → Receives (attempt e) m ds

/-- A read that a computation makes from a state got nothing. The reads
before the first such one got these values, and the log had come so far when
it was made. -/
inductive RunsDry : {α : Type} → Exec α → Machine → List Datum → List (Showing × Event) → Prop where
  | read {s : Site} {label : Text} {m m' : Machine} {stop : Stop} :
    nextInput s label m = (.error stop, m') → RunsDry (nextInput s label) m [] m'.log.toList
  | look {α : Type} {f : Machine → Exec α} {m : Machine} {ds : List Datum}
      {log : List (Showing × Event)} :
    (∀ m inputs, f { m with inputs } = f m) → RunsDry (f m) m ds log → RunsDry (get >>= f) m ds log
  | first {α β : Type} {e : Exec α} {f : α → Exec β} {m : Machine} {ds : List Datum}
      {log : List (Showing × Event)} :
    RunsDry e m ds log → (∀ a, Grows (f a)) → RunsDry (e >>= f) m ds log
  | later {α β : Type} {e : Exec α} {f : α → Exec β} {m m' : Machine} {a : α}
      {ds ds' : List Datum} {log : List (Showing × Event)} :
    Receives e m ds → e m = (.ok a, m') → RunsDry (f a) m' ds' log →
      RunsDry (e >>= f) m (ds ++ ds') log
  | attempt {α : Type} {e : Exec α} {m : Machine} {ds : List Datum}
      {log : List (Showing × Event)} :
    RunsDry e m ds log → RunsDry (attempt e) m ds log

namespace Receives

variable {α : Type} {e : Exec α} {m : Machine} {ds : List Datum}

theorem inputs_eq (h : Receives e m ds) : m.inputs = ds ++ (e m).2.inputs := by
  induction h with
  | blind m hblind => rw [hblind.inputs_eq, nil_append]
  | @read s label m m' d hread =>
    rcases hinputs : m.inputs with _ | ⟨d', rest⟩
    · rw [nextInput_nil hinputs] at hread
      cases hread
    · rw [nextInput_cons hinputs] at hread ⊢
      cases hread
      rfl
  | look _ _ ih => exact ih
  | bind _ heq _ ih ih' =>
    rw [bind_apply, heq]
    rw [heq] at ih
    rw [ih, ih', append_assoc]
  | stop _ heq ih =>
    rw [bind_apply, heq]
    rwa [heq] at ih
  | attempt _ ih => exact ih

theorem asks_eq (h : Receives e m ds) : asks (e m).2.shown = asks m.shown + ds.length := by
  induction h with
  | blind m hblind => exact hblind.asks m
  | @read s label m m' d hread =>
    rw [Machine.shown, log_nextInput]
    exact asks_shows_read m label
  | look _ _ ih => exact ih
  | bind _ heq _ ih ih' =>
    rw [bind_apply, heq]
    rw [heq] at ih
    rw [length_append]
    dsimp only at ih ih' ⊢
    omega
  | stop _ heq ih =>
    rw [bind_apply, heq]
    rwa [heq] at ih
  | attempt _ ih => exact ih

theorem feed (h : Receives e m ds) (ys : List Datum) :
    e (m.feed ys) = ((e m).1, (e m).2.feed ys) := by
  induction h with
  | blind m hblind => exact hblind.feed m ys
  | @read s label m m' d hread =>
    rcases hinputs : m.inputs with _ | ⟨d', rest⟩
    · rw [nextInput_nil hinputs] at hread
      cases hread
    · have hfed : (m.feed ys).inputs = d' :: (rest ++ ys) := by
        rw [Machine.feed, hinputs, cons_append]
      rw [nextInput_cons hinputs, nextInput_cons hfed]
      rfl
  | @look _ f m ds hf _ ih =>
    show f (m.feed ys) (m.feed ys) = _
    rw [Machine.feed, hf]
    exact ih
  | bind _ heq _ ih ih' =>
    rw [bind_apply, bind_apply, ih, heq]
    exact ih'
  | stop _ heq ih => rw [bind_apply, bind_apply, ih, heq]
  | @attempt _ e m ds _ ih =>
    show (Except.ok (e (m.feed ys)).1, (e (m.feed ys)).2) = _
    rw [ih]
    rfl

end Receives

namespace RunsDry

variable {α : Type} {e : Exec α} {m : Machine} {ds : List Datum} {log : List (Showing × Event)}
variable (h : RunsDry e m ds log)
include h

theorem inputs_eq : m.inputs = ds := by
  induction h with
  | @read s label m m' stop hread =>
    rcases hinputs : m.inputs with _ | ⟨d, rest⟩
    · rfl
    · rw [nextInput_cons hinputs] at hread
      cases hread
  | look _ _ ih => exact ih
  | first _ _ ih => exact ih
  | later hfirst heq _ ih =>
    have hinputs := hfirst.inputs_eq
    rw [heq] at hinputs
    rw [hinputs, ih]
  | attempt _ ih => exact ih

theorem asks_eq : asks (log.map Prod.snd) = asks m.shown + ds.length + 1 := by
  induction h with
  | @read s label m m' stop hread =>
    have hlog := log_nextInput s label m
    rw [hread] at hlog
    rw [hlog]
    exact asks_shows_read m label
  | look _ _ ih => exact ih
  | first _ _ ih => exact ih
  | later hfirst heq =>
    have hasks := hfirst.asks_eq
    rw [heq] at hasks
    rw [length_append]
    dsimp only at hasks
    omega
  | attempt _ ih => exact ih

theorem last_eq : ∃ front shown label, log = front ++ [(shown, .read label)] := by
  induction h with
  | @read s label m m' stop hread =>
    have hlog := log_nextInput s label m
    rw [hread] at hlog
    exact ⟨m.log.toList, .read label, label, by rw [hlog, m.log_shows]; rfl⟩
  | look _ _ ih => exact ih
  | first _ _ ih => exact ih
  | later _ _ _ ih => exact ih
  | attempt _ ih => exact ih

theorem prefix_feed (ys : List Datum) : log <+: (e (m.feed ys)).2.log.toList := by
  induction h with
  | @read s label m m' stop hread =>
    have hlog := log_nextInput s label m
    rw [hread] at hlog
    rw [log_nextInput, hlog]
    exact prefix_rfl
  | @look _ f m ds log hf _ ih =>
    show log <+: (f (m.feed ys) (m.feed ys)).2.log.toList
    rw [show f (m.feed ys) = f m from hf m _]
    exact ih
  | @first _ _ e f m ds log _ hf ih =>
    -- What comes after the read takes nothing back.
    rw [bind_apply]
    rcases heq : e (m.feed ys) with ⟨result, m'⟩
    rw [heq] at ih
    cases result with
    | error => exact ih
    | ok a => exact ih.trans (hf a m')
  | later hfirst heq _ ih =>
    rw [bind_apply, hfirst.feed ys, heq]
    exact ih
  | attempt _ ih => exact ih

theorem prefix_log : log <+: (e m).2.log.toList := by
  have hfeed : m.feed [] = m := by rw [Machine.feed, append_nil]
  have hprefix := h.prefix_feed []
  rwa [hfeed] at hprefix

end RunsDry

theorem RunsDry.lt_asks {ds : List Datum} {log : List (Showing × Event)} (h : RunsDry e m ds log) :
    asks m.shown + m.inputs.length < asks (e m).2.shown := by
  have hasks := h.asks_eq
  have hle : asks (log.map Prod.snd) ≤ asks (e m).2.shown :=
    asks_le_of_prefix (h.prefix_log.map Prod.snd)
  rw [h.inputs_eq]
  omega

theorem Receives.asks_le {ds : List Datum}
    (h : Receives e m ds) : asks (e m).2.shown ≤ asks m.shown + m.inputs.length := by
  rw [h.asks_eq, h.inputs_eq, length_append]
  omega

/-! ### Every computation -/

namespace Grows

variable {α β : Type} {e : Exec α} {f : α → Exec β}

theorem bind (he : Grows e) (hf : ∀ a, Grows (f a)) : Grows (e >>= f) := by
  intro m
  have hm := he m
  rw [bind_apply]
  rcases heq : e m with ⟨result, m'⟩
  rw [heq] at hm
  cases result with
  | error => exact hm
  | ok a => exact hm.trans (hf a m')

theorem look {f : Machine → Exec β} (hf : ∀ m, Grows (f m)) : Grows (get >>= f) :=
  fun m => hf m m

theorem nextInput (s : Site) (label : Text) : Grows (nextInput s label) := by
  intro m
  rw [log_nextInput, m.log_shows]
  exact prefix_append ..

end Grows

/-- A computation takes back nothing that was shown, and from every state
either all its reads get a value or one runs dry. -/
structure Answerable {α : Type} (e : Exec α) : Prop where
  grows : Grows e
  cases : ∀ m, (∃ ds, Receives e m ds) ∨ ∃ ds log, RunsDry e m ds log

namespace Answerable

variable {α β : Type} {e : Exec α}

theorem ofBlind (h : Blind e) : Answerable e :=
  ⟨h.grows, fun m => .inl ⟨[], .blind m h⟩⟩

theorem bind {f : α → Exec β} (he : Answerable e) (hf : ∀ a, Answerable (f a)) :
    Answerable (e >>= f) := by
  refine ⟨he.grows.bind fun a => (hf a).grows, fun m => ?_⟩
  rcases he.cases m with ⟨ds, hds⟩ | ⟨ds, log, hdry⟩
  · rcases heq : e m with ⟨stop | a, m'⟩
    · exact .inl ⟨ds, hds.stop heq⟩
    · rcases (hf a).cases m' with ⟨ds', hds'⟩ | ⟨ds', log, hdry⟩
      · exact .inl ⟨ds ++ ds', hds.bind heq hds'⟩
      · exact .inr ⟨ds ++ ds', log, hdry.later hds heq⟩
  · exact .inr ⟨ds, log, hdry.first fun a => (hf a).grows⟩

theorem bind_of {f : α → Exec β} {Q : α → Prop} (he : Answerable e)
    (hQ : ∀ m a, (e m).1 = .ok a → Q a) (hf : ∀ a, Q a → Answerable (f a)) :
    Answerable (e >>= f) := by
  classical
  have heq : e >>= f = e >>= fun a => if Q a then f a else throw .outOfFuel := by
    funext m
    rw [bind_apply, bind_apply]
    rcases hem : e m with ⟨stop | a, m'⟩
    · rfl
    · exact (congrFun (if_pos (hQ m a (by rw [hem]))) m').symm
  rw [heq]
  refine he.bind fun a => ?_
  split
  · next ha => exact hf a ha
  · exact .ofBlind (.stop _)

theorem look {f : Machine → Exec β} (hblind : ∀ m inputs, f { m with inputs } = f m)
    (hf : ∀ m, Answerable (f m)) : Answerable (get >>= f) := by
  refine ⟨.look fun m => (hf m).grows, fun m => ?_⟩
  rcases (hf m).cases m with ⟨ds, hds⟩ | ⟨ds, log, hdry⟩
  · exact .inl ⟨ds, hds.look hblind⟩
  · exact .inr ⟨ds, log, hdry.look hblind⟩

theorem nextInput (s : Site) (label : Text) : Answerable (nextInput s label) := by
  refine ⟨.nextInput s label, fun m => ?_⟩
  rcases heq : Run.nextInput s label m with ⟨stop | d, m'⟩
  · exact .inr ⟨[], _, .read heq⟩
  · exact .inl ⟨[d], .read heq⟩

theorem attempt (he : Answerable e) : Answerable (attempt e) := by
  refine ⟨he.grows, fun m => ?_⟩
  rcases he.cases m with ⟨ds, hds⟩ | ⟨ds, log, hdry⟩
  · exact .inl ⟨ds, hds.attempt⟩
  · exact .inr ⟨ds, log, hdry.attempt⟩

end Answerable

theorem newRoutine_blind (s : Site) (code : Routine) (initials : List (Text × Value)) :
    Blind (newRoutine s code initials) :=
  .of_log (fun _ _ => rfl) fun _ => rfl

theorem beginCall_apply (s : Site) (address : Nat) (m : Machine) :
    beginCall s address m = match m.heap.objects[address]? with
      | some (.call c) =>
        if c.done then (.error (.failed .awaitedTwice s.traceback), m)
        else (.ok (some c), { m with heap :=
          { m.heap with
            objects := m.heap.objects.setIfInBounds address (.call { c with done := true }) } })
      | _ => (.ok none, m) := by
  show (match m.heap.objects[address]? with
    | some (.call c) => _
    | _ => _ : Exec (Option Call)) m = _
  rcases m.heap.objects[address]? with _ | (items | pairs | c | c)
  · rfl
  · rfl
  · rfl
  · rfl
  · dsimp only
    by_cases hdone : c.done = true
    · rw [if_pos hdone, if_pos hdone]
      rfl
    · rw [if_neg hdone, if_neg hdone]
      rfl

theorem beginCall_blind (s : Site) (address : Nat) : Blind (beginCall s address) := by
  refine .of_log (fun m inputs => ?_) fun m => ?_
  · rw [beginCall_apply, beginCall_apply]
    dsimp only
    split
    · split <;> rfl
    · rfl
  · rw [beginCall_apply]
    split
    · split <;> rfl
    · rfl

theorem OnFrames.answers (h : OnFrames e) {P : Bool → Routine → Prop}
    {w : Holding P} : Answerable e ∧ w.Keeps e fun _ => True :=
  ⟨.ofBlind (.onFrames h), .ofHeap fun m => by rw [h.frames]⟩

/-- Whatever code is run, its reads get their values or one of them runs
dry. -/
def answering (x : Executable) : Logic (Holding fun _ _ => True) x where
  code := anyCode
  Holds _ _ w _ e Q := Answerable e ∧ w.Keeps e (Q w)
  Stops _ _ := True
  failed _ _ := trivial
  outOfFuel := trivial
  pure h := ⟨.ofBlind (.pure _), .pure h⟩
  stop _ := ⟨.ofBlind (.stop _), .stop⟩
  bind he hf := ⟨he.1.bind_of (fun m => (he.2 m fun _ _ _ => trivial).2)
    fun a ha => (hf _ trivial a ha).1, he.2.bind fun a ha => (hf _ trivial a ha).2⟩
  mono h hQ := ⟨h.1, h.2.mono fun a => hQ _ a trivial⟩
  look hblind hf := ⟨.look hblind fun m => (hf m fun _ _ _ => trivial).1,
    .look fun m hm => (hf m hm).2⟩
  evaluate h := ⟨.ofBlind (.evaluate _ _), .evaluate h⟩
  lookup _ := (lookup_onFrames _ _).answers.imp_right (·.mono fun v _ => Holding.tame _ v)
  host h := absurd trivial h
  storeName _ := (storeName_onFrames _ _ _).answers
  deleteName := (deleteName_onFrames _ _).answers
  enterFrame _ := (enterFrame_onFrames _).answers
  leaveFrame := (leaveFrame_onFrames _).answers
  newRoutine _ _ := ⟨.ofBlind (newRoutine_blind _ _ _), .newRoutine trivial⟩
  beginCall _ := ⟨.ofBlind (beginCall_blind _ _), .beginCall⟩
  reveal h := ⟨.ofBlind (.reveal fun _ hread => by rw [hread] at h; exact h), .ofHeap fun _ => rfl⟩
  read := ⟨.nextInput _ _, .ofHeap (heap_nextInput _ _)⟩
  attempt {_ _ w _ _ Q _ _ _} he hok hstop := by
    refine ⟨he.1.attempt.bind_of (Q := fun result => ∀ a, result = .ok a → Q w a)
      (fun m result hresult a ha => ?_) fun result hresult => ?_,
      he.2.attempt (fun a ha => (hok _ trivial a ha).2) fun stop => (hstop _ trivial stop trivial).2⟩
    · cases hresult
      exact (he.2 m fun _ _ _ => trivial).2 a ha
    · cases result with
      | ok a => exact (hok w trivial a (hresult a rfl)).1
      | error stop => exact (hstop w trivial stop trivial).1
  ofStill h := h
  ofWaiting _ h := h
  ofWithin h := h
  enter h := h
  goTo _ h := h

theorem answerable_run (p : Prepared) (fuel : Nat) : Answerable (p.run fuel) := by
  have hruns := (answering p.script).evaluates nofun fuel
  exact ((answering p.script).bind (hruns.call true ⟨⟩ {} p.entry ⟨[.host], []⟩ (Holding.tame _ _)
    ⟨fun v _ => Holding.tame _ v, nofun⟩) fun w _ v hv => hruns.await w {} v hv).1

end Pseudocode.Run
