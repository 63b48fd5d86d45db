import Mathlib

/-!
# Loops that end at a test

A round of a loop is a partial function: it has no value where the test of the
loop fails.  A loop runs for as many rounds as it is given; it ends if some
number of rounds is enough, and then its result does not depend on the number.
-/

namespace NvmeVirt.WhileLoops

open Relation

variable {σ : Type*} (round : σ → Option σ)

/-- The state in which the test fails, if it is met in fewer rounds. -/
def runLoop : ℕ → σ → Option σ
  | 0, _ => none
  | rounds + 1, st =>
      match round st with
      | none => some st
      | some st' => runLoop rounds st'

def EndsIn (st final : σ) : Prop :=
  ∃ rounds, runLoop round rounds st = some final

def Ends (st : σ) : Prop := ∃ final, EndsIn round st final

/-- Some number of rounds leads from one state to the other. -/
def Reaches : σ → σ → Prop :=
  ReflTransGen fun st st' => round st = some st'

variable {round} {st st' final : σ}

theorem endsIn_of_none (hnone : round st = none) : EndsIn round st st :=
  ⟨1, by rw [runLoop, hnone]⟩

theorem endsIn_step (hstep : round st = some st') :
    EndsIn round st final ↔ EndsIn round st' final := by
  constructor
  · rintro ⟨rounds, hrun⟩
    cases rounds with
    | zero => cases hrun
    | succ rounds =>
        rw [runLoop, hstep] at hrun
        exact ⟨rounds, hrun⟩
  · rintro ⟨rounds, hrun⟩
    refine ⟨rounds + 1, ?_⟩
    rw [runLoop, hstep]
    exact hrun

/-- The rounds that have been run do not change how the loop ends. -/
theorem endsIn_reaches (hreaches : Reaches round st st') :
    EndsIn round st final ↔ EndsIn round st' final := by
  induction hreaches with
  | refl => exact Iff.rfl
  | tail _ hstep ih => exact ih.trans (endsIn_step hstep)

/-- A loop whose test holds throughout an invariant does not end. -/
theorem not_ends_of_invariant (invariant : σ → Prop)
    (hround : ∀ st, invariant st → ∃ st', round st = some st' ∧ invariant st')
    (hst : invariant st) : ¬ Ends round st := by
  rintro ⟨final, rounds, hrun⟩
  induction rounds generalizing st with
  | zero => cases hrun
  | succ rounds ih =>
      obtain ⟨next, hnext, hinvariant⟩ := hround st hst
      rw [runLoop, hnext] at hrun
      exact ih hinvariant hrun

end NvmeVirt.WhileLoops
