import Mathlib

/-!
# Sums over a changing function

How a sum over a finite set, the number of elements of one kind, and the lists
joined along a list follow the change of a single value.
-/

namespace NvmeVirt.Counting

open Function

variable {α β : Type*} [DecidableEq α]

theorem sum_update_add {s : Finset α} {a : α} (ha : a ∈ s) (f : α → ℕ)
    (value : ℕ) :
    ∑ x ∈ s, update f a value x + f a = ∑ x ∈ s, f x + value := by
  rw [Finset.sum_update_of_mem ha, ← Finset.erase_eq,
    ← Finset.add_sum_erase s f ha]
  omega

/-- The values of a function of an updated function. -/
theorem sum_comp_update_add {s : Finset α} {a : α} (ha : a ∈ s) (f : α → β)
    (b : β) (measure : β → ℕ) :
    ∑ x ∈ s, measure (update f a b x) + measure (f a) =
      ∑ x ∈ s, measure (f x) + measure b := by
  have hcomp : ∀ x, measure (update f a b x) =
      update (fun x => measure (f x)) a (measure b) x := by
    intro x
    by_cases hx : x = a
    · simp [hx]
    · simp [hx]
  simp only [hcomp]
  exact sum_update_add ha (fun x => measure (f x)) (measure b)

/-- A change of one value moves one element between the classes. -/
theorem card_filter_update [DecidableEq β] {s : Finset α} {a : α} (ha : a ∈ s)
    (f : α → β) (b value : β) :
    (s.filter (fun x => update f a b x = value)).card +
        (if f a = value then 1 else 0) =
      (s.filter (fun x => f x = value)).card +
        (if b = value then 1 else 0) := by
  simp only [Finset.card_filter]
  exact sum_comp_update_add ha f b fun other => if other = value then 1 else 0

/-- The lists of the values of an updated function, joined along a list. -/
theorem flatMap_update {γ : Type*} {l : List α} (hnodup : l.Nodup) {a : α}
    (ha : a ∈ l) (f : α → β) (g : β → List γ) :
    ∃ before after, l.flatMap (fun x => g (f x)) = before ++ g (f a) ++ after ∧
      ∀ b, l.flatMap (fun x => g (update f a b x)) =
        before ++ g b ++ after := by
  obtain ⟨front, back, rfl⟩ := List.append_of_mem ha
  rw [List.nodup_middle, List.nodup_cons, List.mem_append, not_or] at hnodup
  obtain ⟨⟨hfront, hback⟩, -⟩ := hnodup
  have hsame : ∀ {other : List α} (b : β), a ∉ other →
      other.flatMap (fun x => g (update f a b x)) =
        other.flatMap fun x => g (f x) := by
    intro other b hother
    refine List.flatMap_congr fun x hx => ?_
    rw [update_of_ne (ne_of_mem_of_not_mem hx hother)]
  refine ⟨front.flatMap fun x => g (f x), back.flatMap fun x => g (f x), ?_,
    fun b => ?_⟩
  · rw [List.flatMap_append, List.flatMap_cons, List.append_assoc]
  · rw [List.flatMap_append, List.flatMap_cons, hsame b hfront, hsame b hback,
      update_self, List.append_assoc]

end NvmeVirt.Counting
