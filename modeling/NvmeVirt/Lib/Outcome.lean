import Mathlib

/-!
# Computations that may fault

A computation in `Except ε` ends with a result or with a fault.  `Ends`
describes both ways of ending, and the rules below compose it along sequencing
and bounded loops.
-/

namespace NvmeVirt.Outcome

variable {α β ε σ : Type}

/-- The computation ends with a result that satisfies `ok` or with a fault that
satisfies `fault`. -/
def Ends (ok : α → Prop) (fault : ε → Prop) : Except ε α → Prop
  | .ok a => ok a
  | .error e => fault e

/-- Fault `e` unless the condition holds. -/
def require (e : ε) (condition : Prop) [Decidable condition] :
    Except ε Unit :=
  if condition then .ok () else .error e

theorem require_bind {e : ε} {condition : Prop} [Decidable condition]
    (hcondition : condition) (next : Unit → Except ε β) :
    (require e condition >>= next) = next () := by
  rw [require, if_pos hcondition]
  rfl

theorem require_bind_eq_ok {e : ε} {condition : Prop} [Decidable condition]
    {next : Unit → Except ε β} {b : β} :
    (require e condition >>= next) = .ok b ↔
      condition ∧ next () = .ok b := by
  by_cases hcondition : condition
  · rw [require_bind hcondition]
    simp [hcondition]
  · simp [require, hcondition, bind, Except.bind]

theorem bind_eq_ok {x : Except ε α} {next : α → Except ε β} {b : β} :
    (x >>= next) = .ok b ↔ ∃ a, x = .ok a ∧ next a = .ok b := by
  cases x with
  | ok a =>
      change next a = .ok b ↔ _
      simp
  | error e =>
      change Except.error e = .ok b ↔ _
      simp

theorem Ends.mono {ok ok' : α → Prop} {fault fault' : ε → Prop}
    {x : Except ε α} (hx : Ends ok fault x) (hok : ∀ a, ok a → ok' a)
    (hfault : ∀ e, fault e → fault' e) : Ends ok' fault' x := by
  cases x with
  | ok a => exact hok a hx
  | error e => exact hfault e hx

theorem Ends.bind {ok : α → Prop} {ok' : β → Prop} {fault : ε → Prop}
    {x : Except ε α} {next : α → Except ε β} (hx : Ends ok fault x)
    (hnext : ∀ a, ok a → Ends ok' fault (next a)) :
    Ends ok' fault (x >>= next) := by
  cases x with
  | ok a => exact hnext a hx
  | error e => exact hx

/-- The ending of a computation whose result is looked at through a function. -/
theorem Ends.map_iff {ok : β → Prop} {fault : ε → Prop} {f : α → β}
    {x : Except ε α} :
    Ends ok fault (f <$> x) ↔ Ends (fun a => ok (f a)) fault x := by
  cases x <;> exact Iff.rfl

/-- What is known of a result in any case. -/
theorem Ends.and_of_ok {ok ok' : α → Prop} {fault : ε → Prop}
    {x : Except ε α} (hx : Ends ok fault x)
    (hok : ∀ a, x = .ok a → ok a → ok' a) :
    Ends (fun a => ok a ∧ ok' a) fault x := by
  cases x with
  | ok a => exact ⟨hx, hok a rfl hx⟩
  | error e => exact hx

/-- A check that fails is one way of ending. -/
theorem Ends.require_bind {ok : β → Prop} {fault : ε → Prop} {e : ε}
    {condition : Prop} [Decidable condition] {next : Unit → Except ε β}
    (hnext : condition → Ends ok fault (next ())) (hfault : fault e) :
    Ends ok fault (require e condition >>= next) := by
  by_cases hcondition : condition
  · rw [Outcome.require_bind hcondition]
    exact hnext hcondition
  · rw [require, if_neg hcondition]
    exact hfault

/-- A computation without a fault has a result. -/
theorem Ends.exists_ok {ok : α → Prop} {x : Except ε α}
    (hx : Ends ok (fun _ => False) x) : ∃ a, x = .ok a ∧ ok a := by
  cases x with
  | ok a => exact ⟨a, rfl, hx⟩
  | error e => exact absurd hx id

/-- Loop invariant over the visited prefix, for a loop that may fault. -/
theorem Ends.foldlM (invariant : List α → σ → Prop) {fault : ε → Prop}
    (f : σ → α → Except ε σ) (visited : List α)
    (hbody : ∀ before a after s, visited = before ++ a :: after →
      invariant before s → Ends (invariant (before ++ [a])) fault (f s a))
    {s : σ} (hstart : invariant [] s) :
    Ends (invariant visited) fault (visited.foldlM f s) := by
  suffices haux : ∀ after before s, visited = before ++ after →
      invariant before s →
        Ends (invariant visited) fault (after.foldlM f s) by
    exact haux visited [] s rfl hstart
  intro after
  induction after with
  | nil =>
      intro before s hsplit hinv
      rw [List.append_nil] at hsplit
      exact hsplit ▸ hinv
  | cons head tail ih =>
      intro before s hsplit hinv
      rw [List.foldlM_cons]
      apply Ends.bind (hbody before head tail s hsplit hinv)
      intro next hnext
      apply ih (before ++ [head]) next _ hnext
      rw [hsplit, List.append_assoc, List.singleton_append]

/-- A loop of checks that all succeed. -/
theorem forM_require {e : ε} {condition : α → Prop}
    [∀ a, Decidable (condition a)] {visited : List α}
    (hcondition : ∀ a ∈ visited, condition a) :
    visited.forM (fun a => require e (condition a)) = .ok () := by
  induction visited with
  | nil => rfl
  | cons head tail ih =>
      rw [List.forM, require_bind (hcondition head List.mem_cons_self)]
      exact ih (fun a ha => hcondition a (List.mem_cons_of_mem _ ha))

/-- A loop over a state that is looked at through a function. -/
theorem foldlM_map {τ : Type} {f : σ → τ} {body : σ → α → Except ε σ}
    {body' : τ → α → Except ε τ}
    (hbody : ∀ s a, f <$> body s a = body' (f s) a) (visited : List α) (s : σ) :
    f <$> visited.foldlM body s = visited.foldlM body' (f s) := by
  induction visited generalizing s with
  | nil => rfl
  | cons head tail ih =>
      rw [List.foldlM_cons, List.foldlM_cons, ← hbody, map_bind,
        bind_map_left]
      exact congrArg _ (funext ih)

/-- A loop whose body is itself a loop. -/
theorem foldlM_flatMap (f : σ → β → Except ε σ) (parts : α → List β)
    (visited : List α) (s : σ) :
    visited.foldlM (fun s a => (parts a).foldlM f s) s =
      (visited.flatMap parts).foldlM f s := by
  induction visited generalizing s with
  | nil => rfl
  | cons head tail ih =>
      rw [List.foldlM_cons, List.flatMap_cons, List.foldlM_append]
      exact congrArg _ (funext ih)

end NvmeVirt.Outcome
