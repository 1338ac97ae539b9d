import Pseudocode.Proofs.Run.Report

/-!
# Which counted lines a computation reports

Here a computation is described by the counted lines that it reports. The
objects of a run need not be counted for that, so there is only one world.

* `Core.Logs`: a computation keeps a steady state steady and reports the
  given lines; if it stops early, only the first of them.
* `Core.Calm`: a computation that reports none of the counted lines.
* `Core.counting`: the invariant that some lines have been reported. A
  computation that upholds it, whatever the lines are, is calm.
* `Core.evaluates`: quiet code reports no counted line.
-/

namespace Pseudocode.Run

open Text Script Realm List

variable {line : Nat}

def Showing.line? : Showing → Option Nat
  | .trace (.int (.ofNat n)) _ _ => some n
  | _ => none

namespace Core

section

variable (k : Core)

/-- The counted lines of the steps that were reported. -/
def counted (m : Machine) : List Nat :=
  (m.log.toList.filterMap fun p => p.1.line?).filter k.lines.contains

/-- From a state, a computation reports some counted lines, or the first
of them if it stops early, and its result has a property. -/
def LogsAt {α : Type} (m : Machine) (ls : List Nat) (e : Exec α) (Q : α → Prop) : Prop :=
  k.free.Steady (e m).2 ∧ (∃ ls₀, ls₀ <+: ls ∧ k.counted (e m).2 = k.counted m ++ ls₀) ∧
    ∀ a, (e m).1 = .ok a → k.counted (e m).2 = k.counted m ++ ls ∧ Q a

def Logs {α : Type} (ls : List Nat) (e : Exec α) (Q : α → Prop) : Prop :=
  ∀ m, k.free.Steady m → k.LogsAt m ls e Q

theorem counted_shows (m : Machine) (shown : Showing) :
    k.counted (m.shows shown) =
      k.counted m ++ shown.line?.toList.filter k.lines.contains := by
  unfold counted Machine.shows
  cases h : shown.line? <;> simp [h]

abbrev Calm {α : Type} (e : Exec α) (Q : α → Prop) : Prop :=
  k.Logs [] e Q

end

theorem LogsAt.append {k : Core} {α β : Type} {Q : α → Prop} {R : β → Prop}
    {ls ls' : List Nat} {m : Machine} {e : Exec α} {f : α → Exec β} (he : k.LogsAt m ls e Q)
    (hf : ∀ a, Q a → k.Logs ls' (f a) R) : k.LogsAt m (ls ++ ls') (e >>= f) R := by
  obtain ⟨hm', ⟨ls₀, hls₀, hlog⟩, hok⟩ := he
  unfold LogsAt
  rw [bind_apply]
  rcases hem : e m with ⟨r, m'⟩
  rw [hem] at hm' hlog hok
  cases r with
  | error => exact ⟨hm', ⟨ls₀, hls₀.trans (prefix_append _ _), hlog⟩, fun _ h => nomatch h⟩
  | ok a =>
    obtain ⟨hlog, hQ⟩ := hok a rfl
    obtain ⟨hm'', ⟨ls₁, hls₁, hlog'⟩, hok'⟩ := hf a hQ m' hm'
    refine ⟨hm'', ⟨ls ++ ls₁, (prefix_append_right_inj ls).mpr hls₁, ?_⟩, fun b hb => ?_⟩
    · rw [hlog', hlog, append_assoc]
    · obtain ⟨hlog'', hR⟩ := hok' b hb
      exact ⟨by rw [hlog'', hlog, append_assoc], hR⟩

namespace Logs

variable {k : Core} {α β : Type} {Q : α → Prop} {R : β → Prop} {ls ls' : List Nat}

theorem mono {e : Exec α} {Q' : α → Prop} (h : k.Logs ls e Q) (hQ : ∀ a, Q a → Q' a) :
    k.Logs ls e Q' := by
  intro m hm
  obtain ⟨hm', hlog, hok⟩ := h m hm
  exact ⟨hm', hlog, fun a ha => ⟨(hok a ha).1, hQ a (hok a ha).2⟩⟩

theorem pure {a : α} (h : Q a) : k.Calm (Pure.pure a) Q := by
  intro m hm
  refine ⟨hm, ⟨[], nil_prefix, (append_nil _).symm⟩, fun b hb => ?_⟩
  cases hb
  exact ⟨(append_nil _).symm, h⟩

theorem stop {stop : Stop} : k.Logs ls (throw stop) Q := by
  intro m hm
  exact ⟨hm, ⟨[], nil_prefix, (append_nil _).symm⟩, fun _ h => nomatch h⟩

theorem append {e : Exec α} {f : α → Exec β} (he : k.Logs ls e Q)
    (hf : ∀ a, Q a → k.Logs ls' (f a) R) : k.Logs (ls ++ ls') (e >>= f) R :=
  fun m hm => (he m hm).append hf

theorem bind {e : Exec α} {f : α → Exec β} (he : k.Calm e Q)
    (hf : ∀ a, Q a → k.Logs ls (f a) R) : k.Logs ls (e >>= f) R :=
  append he hf

theorem andThen {e : Exec α} {f : α → Exec β} (he : k.Logs ls e Q)
    (hf : ∀ a, Q a → k.Calm (f a) R) : k.Logs ls (e >>= f) R := by
  have happend := append he hf
  rwa [append_nil] at happend

theorem get_bind {f : Machine → Exec β} (hf : ∀ m, k.free.Steady m → k.Logs ls (f m) R) :
    k.Logs ls (get >>= f) R :=
  fun m hm => hf m hm m hm

theorem fail {s : Site} {fault : Fault} : k.Logs ls (fail s fault) Q :=
  stop

theorem orFail {s : Site} {e : Except Fault α} (h : ∀ a, e = .ok a → Q a) :
    k.Calm (orFail s e) Q := by
  unfold Run.orFail
  split
  · exact pure (h _ rfl)
  · exact fail

theorem isTrue {v : Value} : k.Calm (isTrue v) fun _ => True :=
  get_bind fun _ _ => pure trivial

end Logs

/-! ### Calm computations uphold an invariant -/

def counting (k : Core) (ls : List Nat) : k.Invariant where
  At w m := w = k.free ∧ k.free.Steady m ∧ k.counted m = ls
  steady := by
    rintro w m ⟨rfl, hm, -⟩
    exact hm
  heap := by
    rintro w w' m h ⟨rfl, hm, hls⟩ hle hs
    obtain rfl := hle.free rfl
    exact ⟨rfl, ⟨hs, hm.fits⟩, hls⟩
  frames := by
    rintro w m fs ⟨rfl, hm, hls⟩ hfits
    exact ⟨rfl, ⟨hm.sound, hfits⟩, hls⟩
  inputs := by
    rintro w m ds ⟨rfl, hm, hls⟩
    exact ⟨rfl, { hm with }, hls⟩
  reveal := by
    rintro w m shown ⟨rfl, hm, hls⟩ hshown
    refine ⟨rfl, { hm with }, ?_⟩
    have hline : shown.line? = none := by
      cases shown with
      | trace => cases hshown
      | _ => rfl
    rw [counted_shows, hline, hls]
    exact append_nil _

variable {k : Core} {α : Type}

theorem Calm.of_upholds {e : Exec α} {Q : k.World → α → Prop}
    (h : ∀ ls, (k.counting ls).Upholds k.free e Q) : k.Calm e (Q k.free) := by
  intro m hm
  have hend := h (k.counted m) m ⟨rfl, hm, rfl⟩
  unfold LogsAt
  rcases hem : e m with ⟨r, m'⟩
  rw [hem] at hend
  have hlogs : k.free.Steady m' → k.counted m' = k.counted m →
      k.free.Steady m' ∧ ∃ ls₀, ls₀ <+: [] ∧ k.counted m' = k.counted m ++ ls₀ :=
    fun hm' hls => ⟨hm', [], nil_prefix, hls.trans (append_nil _).symm⟩
  cases r with
  | ok =>
    obtain ⟨w, -, ⟨rfl, hm', hls⟩, ha⟩ := hend
    refine ⟨hm', (hlogs hm' hls).2, fun b hb => ?_⟩
    cases hb
    exact ⟨hls.trans (append_nil _).symm, ha⟩
  | error =>
    obtain ⟨w, -, -, hm', hls⟩ := hend
    exact ⟨hm', (hlogs hm' hls).2, fun _ h => nomatch h⟩

theorem Calm.of_stays {e : Exec α} {Q : α → Prop}
    (h : ∀ ls, (k.counting ls).Stays k.free e Q) : k.Calm e Q :=
  of_upholds (Q := fun _ => Q) fun ls => .ofStays (h ls)

theorem Calm.evaluate {s : Site} {e : Eval α} {Q : α → Prop} (h : Safe k.free e Q) :
    k.Calm (evaluate s e) Q :=
  .of_stays fun _ => .evaluate h

theorem Calm.upholds {e : Exec α} {Q : α → Prop} (h : k.Calm e Q) (ls : List Nat) (w : k.World) :
    (k.counting ls).Upholds w e fun _ => Q := by
  rintro m ⟨rfl, hm, rfl⟩
  obtain ⟨hm', ⟨ls₀, hls₀, hlog⟩, hok⟩ := h m hm
  obtain rfl := prefix_nil.mp hls₀
  rw [append_nil] at hlog
  rcases hem : e m with ⟨r, m'⟩
  rw [hem] at hm' hlog hok
  cases r with
  | ok a => exact ⟨k.free, World.le_refl _, ⟨rfl, hm', hlog⟩, (hok a rfl).2⟩
  | error => exact ⟨k.free, World.le_refl _, rfl, hm', hlog⟩

/-! ### Reports -/

variable {x : Executable} {s : Site}

/-- The core has the routine that reports a step. -/
structure Tracing (k : Core) : Prop where
  rules : k.rules = .quiet k.hidden k.lines
  isTracer : k.tracer.code.isTracer = true
  names : ∀ p ∈ tracerParams, p.name ∉ k.hidden
  initials : TameEntries k.free k.tracer.initials

theorem Tracing.unbound (hk : k.Tracing) : k.unbound = [] :=
  congrArg Rules.unbound hk.rules

theorem Tracing.also_eq (hk : k.Tracing) : k.also = fun _ _ => false :=
  congrArg Rules.also hk.rules

theorem Tracing.mayBind (hk : k.Tracing) {name : Text} (h : name ∉ k.hidden) :
    k.rules.mayBind name = true := by
  rw [hk.rules]
  exact Rules.mayBind_quiet.mpr (by simpa using h)

theorem bindArguments_tracer {routine : Text} {initials : List (Text × Value)} {vs : List Value} :
    Safe k.free (bindArguments routine tracerParams initials ⟨.int line :: vs, []⟩)
      fun bound => bound.lookup "line".toList = some (.int line) := by
  refine (Safe.ofExcept fun r h => (Except.ok.inj h).symm).bind ?_
  rintro ⟨bound, others⟩ hbound
  obtain ⟨rfl, rfl⟩ := Prod.mk.inj hbound
  exact .guard (.guard (.guard (.pure rfl)))

theorem tracer_logs (hk : k.Tracing) {vs : List Value} (hvs : AllTame k.free vs) (fuel : Nat) :
    k.Logs ([line].filter k.lines.contains)
      (call x fuel s (.routine k.tracerAt) ⟨.int line :: vs, []⟩) fun _ => True := by
  have hargs : TameArguments k.free ⟨.int line :: vs, []⟩ :=
    ⟨forall_mem_cons.mpr ⟨trivial, hvs⟩, nofun⟩
  have hbind : Makes k.free (bindArguments k.tracer.code.path tracerParams k.tracer.initials
      ⟨.int line :: vs, []⟩) fun w bound => (∀ p ∈ bound, w.Fits p) ∧
        bound.lookup "line".toList = some (.int line) ∧ True := by
    refine .ofSafe ((bindArguments_tracer.and (World.safe_of_makes (bindArguments_tame hargs
      (fun p hp => hk.mayBind (hk.names p hp)) hk.initials) rfl)).mono fun bound hbound => ?_)
    exact ⟨fun p hp => World.fits_of_tame (hbound.2 p hp), hbound.1, trivial⟩
  have hsnapshot : "snapshot".toList ∉ k.hidden :=
    hk.names ⟨.plain, "snapshot", none, none⟩ (by simp [tracerParams])
  intro m hm
  have hreveals := Invariant.tracer_reveals (x := x) (s := s)
    hk.isTracer (hk.unbound ▸ not_mem_nil) hbind
    (fun w' _ _ _ _ m' hm' _ v hv => .ofSafe ((valuesOf_safe
      ((((k.counting _).steady hm').fits.lookup hv).elim (fun h => h.tame hsnapshot)
        World.tame_builtinValue?)).mono fun _ _ => trivial))
    (fun _ _ _ _ _ _ _ _ _ _ => trivial) ⟨rfl, hm, rfl⟩ fuel
  unfold LogsAt
  obtain ⟨⟨stop, hstop⟩, _, -, -, hm', hls⟩ |
    ⟨_, m', shown, -, ⟨-, hm', hls⟩, ⟨vs', output, hshown, -⟩, hlast⟩ := hreveals
  · refine ⟨hm', ⟨[], nil_prefix, hls.trans (append_nil _).symm⟩, fun a ha => ?_⟩
    rw [hstop] at ha
    cases ha
  · have hlog := hls ▸ k.counted_shows m' shown
    rw [hshown] at hlog hlast
    rw [hlast]
    exact ⟨⟨hm'.sound, hm'.fits⟩, ⟨_, prefix_refl _, hlog⟩, fun _ _ => ⟨hlog, trivial⟩⟩

/-! ### Quiet code -/

theorem report_logs (hk : k.Tracing) {fuel : Nat} (ih : ∀ ls, (k.counting ls).Evaluates x fuel)
    {e : Expr} {args : List Expr} (he : e.report? = some (line, args))
    (h : avoidsAll k.hidden args = true) :
    k.Logs ([line].filter k.lines.contains) (eval x (fuel + 1) s e) fun _ => True := by
  unfold Expr.report? at he
  split at he
  · next f line' args' =>
    split at he
    · next hf =>
      obtain ⟨rfl, rfl⟩ := Prod.mk.inj (Option.some.inj he)
      subst hf
      have hcallee : k.Calm (eval x fuel s (.name "__trace"))
          (· = .routine k.tracerAt) := by
        cases fuel with
        | zero => exact .stop
        | succ => exact .get_bind fun m hm => .orFail fun v hv => hm.fits.lookup_trace hv
      have hargs : obeysAll k.rules (.int line' :: args') = true := by
        rw [hk.rules]
        simp [obeysAll, Expr.obeys, obeysAll_of_avoids args' h]
      refine hcallee.bind fun f hf => ?_
      subst hf
      refine .bind (Calm.of_upholds fun ls => (ih ls).arguments false k.free s _ _ []
        (obeysAll_iff.mp hargs) nofun) ?_
      rintro ⟨byPosition, byName⟩ ⟨⟨htame, hline⟩, -, hnamed⟩
      obtain rfl := hnamed rfl
      obtain ⟨us, rfl⟩ := hline line' args' rfl
      exact tracer_logs hk (forall_mem_cons.mp htame).2 fuel
    · cases he
  · cases he

theorem evaluates (hk : k.Tracing) (x : Executable) (fuel : Nat) (ls : List Nat) :
    (k.counting ls).Evaluates x fuel := by
  induction fuel generalizing ls with
  | zero => exact .zero
  | succ fuel ih =>
    refine (ih ls).succ (fun w s e line args he hreports => ?_) fun w s a halso => ?_
    · replace hreports : (Rules.quiet k.hidden k.lines).reports line args = true := by
        rw [← hk.rules]
        exact hreports
      obtain ⟨hline, hargs⟩ := Bool.and_eq_true_iff.mp hreports
      have hlogs := report_logs (s := s) hk ih he hargs
      rw [filter_cons_of_neg (by simpa using hline)] at hlogs
      exact Calm.upholds hlogs ls w
    -- The rules of quiet code allow no further statements.
    · rw [hk.also_eq] at halso
      cases halso

section Quiet

variable {fuel : Nat} (hk : k.Tracing)
include hk

theorem value_calm {e : Expr} (h : e.avoids k.hidden = true) :
    k.Calm (eval x fuel s e) (Tame k.free) :=
  .of_upholds fun ls => (evaluates hk x fuel ls).value (hk.rules ▸ e.obeys_of_avoids h)

theorem option_calm {e : Option Expr} (h : avoidsOption k.hidden e = true) :
    k.Calm (evalOption x fuel s e) (Tame k.free) :=
  .of_upholds fun ls =>
    (evaluates hk x fuel ls).option false k.free s e
      (obeysOption_iff.mp (hk.rules ▸ obeysOption_of_avoids e h))

theorem store_calm {target : Expr} {v : Value} (h : target.avoids k.hidden = true)
    (hv : Tame k.free v) : k.Calm (store x fuel s target v) fun _ => True :=
  .of_upholds fun ls => (evaluates hk x fuel ls).store false k.free s target v
    (show target.obeysAsTarget k.rules = true from hk.rules ▸ target.obeysAsTarget_of_avoids h) hv

theorem action_calm {a : Action} (h : a.quiet k.hidden k.lines = true) :
    k.Calm (execAction x fuel s a) (TameFlow k.free) :=
  .of_upholds fun ls => (evaluates hk x fuel ls).obeying (hk.rules ▸ Action.obeys_of_quiet h)

theorem step_logs {e : Expr} {args : List Expr} (he : e.report? = some (line, args))
    (h : avoidsAll k.hidden args = true) :
    k.Logs ([line].filter k.lines.contains) (eval x fuel s e) fun _ => True := by
  cases fuel with
  | zero => exact .stop
  | succ fuel => exact report_logs hk (evaluates hk x fuel) he h

end Quiet

end Core

end Pseudocode.Run
