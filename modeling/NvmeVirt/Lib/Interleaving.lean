import Mathlib

/-!
# Interleaved runs

A system of actors that share a state.  Each actor has at most one step in a
state; a schedule names the actor to move next, and an actor that is blocked
leaves the state alone.
-/

namespace NvmeVirt.Interleaving

variable {Actor State : Type} (step : Actor → State → Option State)

/-- One turn of an actor. -/
def turn (st : State) (actor : Actor) : State := (step actor st).getD st

def run (schedule : List Actor) (st : State) : State :=
  schedule.foldl (turn step) st

theorem run_append (schedule schedule' : List Actor) (st : State) :
    run step (schedule ++ schedule') st =
      run step schedule' (run step schedule st) :=
  List.foldl_append

/-- Every turn of the schedule meets a condition on the state before it. -/
def Meets (condition : Actor → State → Prop) : List Actor → State → Prop
  | [], _ => True
  | actor :: rest, st =>
      condition actor st ∧ Meets condition rest (turn step st actor)

instance decidableMeets (condition : Actor → State → Prop)
    [∀ actor st, Decidable (condition actor st)] :
    ∀ schedule st, Decidable (Meets step condition schedule st)
  | [], _ => .isTrue trivial
  | actor :: rest, st =>
      have := decidableMeets condition rest (turn step st actor)
      inferInstanceAs (Decidable
        (condition actor st ∧ Meets step condition rest (turn step st actor)))

/-- An invariant of the steps that meet a condition is an invariant of the runs
that meet it throughout. -/
theorem run_invariant_of_meets {invariant : State → Prop}
    {condition : Actor → State → Prop}
    (hstep : ∀ actor st st', condition actor st → invariant st →
      step actor st = some st' → invariant st')
    {schedule : List Actor} {st : State} (hst : invariant st)
    (hmeets : Meets step condition schedule st) :
    invariant (run step schedule st) := by
  induction schedule generalizing st with
  | nil => exact hst
  | cons actor rest ih =>
      obtain ⟨hcondition, hrest⟩ := hmeets
      refine ih ?_ hrest
      cases hnext : step actor st with
      | none =>
          rw [turn, hnext]
          exact hst
      | some st' =>
          rw [turn, hnext]
          exact hstep actor st st' hcondition hst hnext

theorem meets_true (schedule : List Actor) (st : State) :
    Meets step (fun _ _ => True) schedule st := by
  induction schedule generalizing st with
  | nil => trivial
  | cons actor rest ih => exact ⟨trivial, ih _⟩

theorem meets_of_forall {condition : Actor → Prop} {schedule : List Actor}
    (hall : ∀ actor ∈ schedule, condition actor) (st : State) :
    Meets step (fun actor _ => condition actor) schedule st := by
  induction schedule generalizing st with
  | nil => trivial
  | cons actor rest ih =>
      exact ⟨hall actor List.mem_cons_self,
        ih (fun other hother => hall other (List.mem_cons_of_mem _ hother)) _⟩

theorem meets_and {condition condition' : Actor → State → Prop}
    {schedule : List Actor} {st : State}
    (hleft : Meets step condition schedule st)
    (hright : Meets step condition' schedule st) :
    Meets step (fun actor st => condition actor st ∧ condition' actor st)
      schedule st := by
  induction schedule generalizing st with
  | nil => trivial
  | cons actor rest ih =>
      exact ⟨⟨hleft.1, hright.1⟩, ih hleft.2 hright.2⟩

theorem run_invariant {invariant : State → Prop}
    (hstep : ∀ actor st st', invariant st → step actor st = some st' →
      invariant st')
    (schedule : List Actor) {st : State} (hst : invariant st) :
    invariant (run step schedule st) :=
  run_invariant_of_meets step (fun actor st st' _ => hstep actor st st') hst
    (meets_true step schedule st)

/-- A property holds in the first state of a run and after each of its turns. -/
def Always (property : State → Prop) : List Actor → State → Prop
  | [], st => property st
  | actor :: rest, st =>
      property st ∧ Always property rest (turn step st actor)

instance decidableAlways (property : State → Prop)
    [∀ st, Decidable (property st)] :
    ∀ schedule st, Decidable (Always step property schedule st)
  | [], st => inferInstanceAs (Decidable (property st))
  | actor :: rest, st =>
      have := decidableAlways property rest (turn step st actor)
      inferInstanceAs (Decidable
        (property st ∧ Always step property rest (turn step st actor)))

variable {step} in
theorem Always.last {property : State → Prop} {schedule : List Actor}
    {st : State} (halways : Always step property schedule st) :
    property (run step schedule st) := by
  induction schedule generalizing st with
  | nil => exact halways
  | cons actor rest ih => exact ih halways.2

/-- Turns that meet a condition which keeps an invariant keep what the invariant
implies. -/
theorem always_of_meets {invariant property : State → Prop}
    {condition : Actor → State → Prop}
    (hproperty : ∀ st, invariant st → property st)
    (hkeeps : ∀ actor st, invariant st → condition actor st →
      invariant (turn step st actor))
    {schedule : List Actor} {st : State} (hst : invariant st)
    (hmeets : Meets step condition schedule st) :
    Always step property schedule st := by
  induction schedule generalizing st with
  | nil => exact hproperty st hst
  | cons actor rest ih =>
      obtain ⟨hactor, hrest⟩ := hmeets
      exact ⟨hproperty st hst, ih (hkeeps actor st hst hactor) hrest⟩

/-- In the runs whose turns are allowed, a property holds throughout exactly if
every turn meets the condition that decides it. -/
theorem always_iff_meets {invariant property : State → Prop}
    {allowed condition : Actor → State → Prop}
    (hproperty : ∀ st, invariant st → property st)
    (hkeeps : ∀ actor st, invariant st → allowed actor st →
      condition actor st → invariant (turn step st actor))
    (hbreaks : ∀ actor st, invariant st → allowed actor st →
      property (turn step st actor) → condition actor st)
    {schedule : List Actor} {st : State} (hst : invariant st)
    (hallowed : Meets step allowed schedule st) :
    Always step property schedule st ↔ Meets step condition schedule st := by
  induction schedule generalizing st with
  | nil => exact ⟨fun _ => trivial, fun _ => hproperty st hst⟩
  | cons actor rest ih =>
      obtain ⟨hactor, hrest⟩ := hallowed
      constructor
      · rintro ⟨-, halways⟩
        have hnext : property (turn step st actor) := by
          cases rest with
          | nil => exact halways
          | cons _ _ => exact halways.1
        have hcondition := hbreaks actor st hst hactor hnext
        exact ⟨hcondition, (ih (hkeeps actor st hst hactor hcondition) hrest).mp
          halways⟩
      · rintro ⟨hcondition, hmeets⟩
        exact ⟨hproperty st hst,
          (ih (hkeeps actor st hst hactor hcondition) hrest).mpr hmeets⟩

/-- Turns that meet a condition which keeps an invariant do what the two imply.
-/
theorem meets_of_meets {invariant : State → Prop}
    {condition property : Actor → State → Prop}
    (hproperty : ∀ actor st, invariant st → condition actor st →
      property actor st)
    (hkeeps : ∀ actor st, invariant st → condition actor st →
      invariant (turn step st actor))
    {schedule : List Actor} {st : State} (hst : invariant st)
    (hmeets : Meets step condition schedule st) :
    Meets step property schedule st := by
  induction schedule generalizing st with
  | nil => trivial
  | cons actor rest ih =>
      obtain ⟨hactor, hrest⟩ := hmeets
      exact ⟨hproperty actor st hst hactor,
        ih (hkeeps actor st hst hactor) hrest⟩

/-- In the runs whose turns are allowed, every turn does what is asked of it
exactly if every turn meets the condition that decides it. -/
theorem meets_iff_meets {invariant : State → Prop}
    {allowed property condition : Actor → State → Prop}
    (hiff : ∀ actor st, invariant st → allowed actor st →
      (property actor st ↔ condition actor st))
    (hkeeps : ∀ actor st, invariant st → allowed actor st →
      condition actor st → invariant (turn step st actor))
    {schedule : List Actor} {st : State} (hst : invariant st)
    (hallowed : Meets step allowed schedule st) :
    Meets step property schedule st ↔ Meets step condition schedule st := by
  induction schedule generalizing st with
  | nil => exact Iff.rfl
  | cons actor rest ih =>
      obtain ⟨hactor, hrest⟩ := hallowed
      have hdecides := hiff actor st hst hactor
      constructor
      · rintro ⟨hproperty, hmeets⟩
        have hcondition := hdecides.mp hproperty
        exact ⟨hcondition, (ih (hkeeps actor st hst hactor hcondition)
          hrest).mp hmeets⟩
      · rintro ⟨hcondition, hmeets⟩
        exact ⟨hdecides.mpr hcondition, (ih (hkeeps actor st hst hactor
          hcondition) hrest).mpr hmeets⟩

/-- A flag that a turn keeps exactly if it meets a condition is still up at the
end of a run exactly if every turn met it. -/
theorem run_flag_iff {invariant : State → Prop} (flag : State → Prop)
    {allowed condition : Actor → State → Prop}
    (hkeeps : ∀ actor st, invariant st → allowed actor st →
      invariant (turn step st actor))
    (hflag : ∀ actor st, invariant st → allowed actor st →
      (flag (turn step st actor) ↔ flag st ∧ condition actor st))
    {schedule : List Actor} {st : State} (hst : invariant st)
    (hallowed : Meets step allowed schedule st) :
    flag (run step schedule st) ↔
      flag st ∧ Meets step condition schedule st := by
  induction schedule generalizing st with
  | nil => exact ⟨fun hflag => ⟨hflag, trivial⟩, And.left⟩
  | cons actor rest ih =>
      obtain ⟨hactor, hrest⟩ := hallowed
      have hturn := hflag actor st hst hactor
      calc flag (run step rest (turn step st actor))
          ↔ flag (turn step st actor) ∧
              Meets step condition rest (turn step st actor) :=
            ih (hkeeps actor st hst hactor) hrest
        _ ↔ (flag st ∧ condition actor st) ∧
              Meets step condition rest (turn step st actor) := by rw [hturn]
        _ ↔ flag st ∧ condition actor st ∧
              Meets step condition rest (turn step st actor) := and_assoc

/-- A countdown that the turns of some actors move on, and that no turn sets
back, is over when they have had enough turns. -/
theorem run_countdown {invariant : State → Prop}
    {allowed : Actor → State → Prop} {own : Actor → Bool}
    {within : ℕ → State → Prop}
    (hkeeps : ∀ actor st, invariant st → allowed actor st →
      invariant (turn step st actor))
    (hown : ∀ actor st count, own actor = true → invariant st →
      allowed actor st → within (count + 1) st →
      within count (turn step st actor))
    (hother : ∀ actor st count, own actor = false → invariant st →
      allowed actor st → within count st → within count (turn step st actor))
    (hmono : ∀ st count, within count st → within (count + 1) st)
    {schedule : List Actor} {st : State} {count : ℕ} (hst : invariant st)
    (hallowed : Meets step allowed schedule st) (hwithin : within count st)
    (hcount : count ≤ schedule.countP own) :
    within 0 (run step schedule st) := by
  induction schedule generalizing st count with
  | nil =>
      rw [List.countP_nil, Nat.le_zero] at hcount
      exact hcount ▸ hwithin
  | cons actor rest ih =>
      obtain ⟨hactor, hrest⟩ := hallowed
      have hnext := hkeeps actor st hst hactor
      cases howner : own actor with
      | false =>
          rw [List.countP_cons_of_neg (by simp [howner])] at hcount
          exact ih hnext hrest (hother actor st count howner hst hactor hwithin)
            hcount
      | true =>
          rw [List.countP_cons_of_pos howner] at hcount
          cases count with
          | zero =>
              exact ih hnext hrest (hown actor st 0 howner hst hactor
                (hmono st 0 hwithin)) (Nat.zero_le _)
          | succ count =>
              exact ih hnext hrest (hown actor st count howner hst hactor
                hwithin) (Nat.le_of_succ_le_succ hcount)

/-- Some continuation of the run gets to the goal. -/
def CanReach (goal : State → Prop) (st : State) : Prop :=
  ∃ schedule, goal (run step schedule st)

namespace CanReach

variable {step} {goal : State → Prop}

theorem of_goal {st : State} (hst : goal st) : CanReach step goal st :=
  ⟨[], hst⟩

theorem trans {goal' : State → Prop} {st : State}
    (hst : CanReach step goal st)
    (hgoal : ∀ st', goal st' → CanReach step goal' st') :
    CanReach step goal' st := by
  obtain ⟨schedule, hschedule⟩ := hst
  obtain ⟨schedule', hschedule'⟩ := hgoal _ hschedule
  exact ⟨schedule ++ schedule', by rwa [run_append]⟩

theorem of_step {actor : Actor} {st st' : State}
    (hstep : step actor st = some st') (hst' : CanReach step goal st') :
    CanReach step goal st := by
  obtain ⟨schedule, hschedule⟩ := hst'
  refine ⟨actor :: schedule, ?_⟩
  have hturn : turn step st actor = st' := by rw [turn, hstep]; rfl
  rw [run, List.foldl_cons, hturn]
  exact hschedule

/-- If the goal or a smaller state can always be reached, the goal can. -/
theorem of_measure {rank : Type*} [Preorder rank] [WellFoundedLT rank]
    {invariant : State → Prop} (measure : State → rank)
    (hprogress : ∀ st, invariant st → ¬ goal st → CanReach step
      (fun st' => invariant st' ∧ measure st' < measure st) st)
    {st : State} (hst : invariant st) : CanReach step goal st := by
  induction hmeasure : measure st using WellFoundedLT.induction
    generalizing st with
  | ind value ih =>
      by_cases hgoal : goal st
      · exact of_goal hgoal
      · refine (hprogress st hst hgoal).trans ?_
        rintro st' ⟨hst', hlt⟩
        exact ih _ (hmeasure ▸ hlt) hst' rfl

end CanReach

end NvmeVirt.Interleaving
