import Mathlib

/-!
# Linearization

The calls of several parties on one object, in the order in which they take
effect, and the results that each party gets from them.
-/

namespace NvmeVirt.Linearization

variable {Party Call Result Object : Type}
  (apply : Object → Call → Object × Result)

/-- The object after some calls, one after the other. -/
def objectAfter (object : Object) (calls : List (Party × Call)) : Object :=
  calls.foldl (fun object call => (apply object call.2).1) object

/-- What the calls of one party return. -/
def resultsOf [DecidableEq Party] (party : Party) (object : Object) :
    List (Party × Call) → List Result
  | [] => []
  | (caller, call) :: rest =>
      let results := resultsOf party (apply object call).1 rest
      if caller = party then (apply object call).2 :: results else results

theorem objectAfter_concat (object : Object) (calls : List (Party × Call))
    (party : Party) (call : Call) :
    objectAfter apply object (calls ++ [(party, call)]) =
      (apply (objectAfter apply object calls) call).1 := by
  rw [objectAfter, List.foldl_append]
  rfl

/-- The last call adds a result for its caller only. -/
theorem resultsOf_concat [DecidableEq Party] (party : Party) (object : Object)
    (calls : List (Party × Call)) (caller : Party) (call : Call) :
    resultsOf apply party object (calls ++ [(caller, call)]) =
      resultsOf apply party object calls ++
        if caller = party then
          [(apply (objectAfter apply object calls) call).2]
        else [] := by
  induction calls generalizing object with
  | nil =>
      rcases eq_or_ne caller party with hcaller | hcaller
      · simp [resultsOf, objectAfter, hcaller]
      · simp [resultsOf, hcaller]
  | cons first rest ih =>
      obtain ⟨other, earlier⟩ := first
      rw [List.cons_append]
      simp only [resultsOf, ih]
      split
      · rfl
      · rfl

end NvmeVirt.Linearization
