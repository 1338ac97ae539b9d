import Pseudocode.Proofs.Program.Clean
import Pseudocode.Proofs.Script.Written
import Pseudocode.Run.Outcome

/-!
# Scripts that are ready to run

A script is ready when its rendered text can be read and its definitions can
be made. Only then does it have a run that is completed.

* `prepare_eq_ok_iff`: what was read, and what is made of it.
* `exists_completed_iff`: the outcomes of completed runs, by the script that
  is ready.
* `Readies`, `Completes`: what can be said of the script of a text. Both are
  decided by a run of it.
-/

namespace Pseudocode.Run

open Text Script

section Scripts

variable {settings : Settings} {lines : Lines}

theorem prepare_eq_ok_iff {p : Prepared} :
    prepare settings lines = .ok p ↔
      ∃ x, load settings lines = .ok x ∧ Prepared.ofExecutable x = .ok p := by
  unfold prepare
  cases load settings lines with
  | ok => simp
  | error fault => cases fault <;> simp

/-- A script is ready and has a property then. -/
def ReadyWith (settings : Settings) (lines : Lines) (P : Prepared → Prop) : Prop :=
  ∃ p, prepare settings lines = .ok p ∧ P p

theorem readyWith_iff {P : Prepared → Prop} :
    ReadyWith settings lines P ↔
      ∃ x, load settings lines = .ok x ∧ ∃ p, Prepared.ofExecutable x = .ok p ∧ P p := by
  simp only [ReadyWith, prepare_eq_ok_iff]
  grind

theorem runScript_of_prepare {p : Prepared} (h : prepare settings lines = .ok p)
    (inputs : List Datum) :
    runScript settings lines inputs = .ok (exec ampleFuel p inputs).outcome := by
  unfold runScript
  rw [h]

theorem exists_completed_iff {Q : Outcome → Prop} {inputs : List Datum} :
    (∃ o, runScript settings lines inputs = .ok o ∧ o.status = .completed ∧ Q o) ↔
      ∃ p, prepare settings lines = .ok p ∧
        (exec ampleFuel p inputs).outcome.status = .completed ∧
          Q (exec ampleFuel p inputs).outcome := by
  constructor
  · rintro ⟨o, ho, hstatus, hQ⟩
    unfold runScript at ho
    split at ho
    next p hp =>
      cases ho
      exact ⟨p, hp, hstatus, hQ⟩
    next line _ =>
      cases ho
      cases hstatus
    next => cases ho
  · rintro ⟨p, hp, hstatus, hQ⟩
    exact ⟨_, runScript_of_prepare hp inputs, hstatus, hQ⟩

end Scripts

instance (settings : Settings) (lines : Lines) (P : Prepared → Prop) [DecidablePred P] :
    Decidable (ReadyWith settings lines P) :=
  decidable_of_iff ((evalLoad settings lines).toOption.any (fun x =>
      (Prepared.ofExecutable x).toOption.any (P ·) = true) = true) (by
    simp only [evalLoad_eq, any_toOption_iff, readyWith_iff])

def Readies (t : Text) (P : Prepared → Prop) : Prop :=
  ∃ a, Analysis.ofText {} t = .ok a ∧ ∃ p, prepare a.settings a.script = .ok p ∧ P p

instance (t : Text) (P : Prepared → Prop) [DecidablePred P] : Decidable (Readies t P) :=
  decidable_of_iff ((Analysis.ofText {} t).toOption.any (fun a =>
      ReadyWith a.settings a.script P) = true) (by
    rw [any_toOption_iff]
    rfl)

/-- A text has an analysis with a property, and a run of its script without
inputs is completed with an outcome as described. -/
def Completes (t : Text) (P : Analysis → Prop) (Q : Analysis → Outcome → Prop) : Prop :=
  ∃ a, Analysis.ofText {} t = .ok a ∧ P a ∧ ∃ o, runScript a.settings a.script [] = .ok o ∧
    o.status = .completed ∧ Q a o

instance (t : Text) (P : Analysis → Prop) (Q : Analysis → Outcome → Prop) [DecidablePred P]
    [∀ a, DecidablePred (Q a)] : Decidable (Completes t P Q) :=
  decidable_of_iff ((Analysis.ofText {} t).toOption.any (fun a => P a ∧
      ReadyWith a.settings a.script fun p => (exec ampleFuel p []).outcome.status = .completed ∧
        Q a (exec ampleFuel p []).outcome) = true) (by
    rw [any_toOption_iff]
    simp only [Completes, exists_completed_iff, ReadyWith])

end Pseudocode.Run
