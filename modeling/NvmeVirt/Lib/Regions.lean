import Mathlib

/-!
# Regions of a store that grows at its end

A store maps addresses to values.  Lists are laid down one after the other at a
frontier that only moves up, so that a list laid down once stays where it is.
The second part cuts a list at increasing positions.
-/

namespace NvmeVirt.Regions

variable {α : Type*}

/-! ## Placed lists -/

/-- The values of `length` addresses from `start` on. -/
def readRange (store : ℕ → α) (start length : ℕ) : List α :=
  (List.range length).map fun k => store (start + k)

/-- The list `region.2` stands at address `region.1`. -/
def Holds (store : ℕ → α) (region : ℕ × List α) : Prop :=
  readRange store region.1 region.2.length = region.2

def Before (left right : ℕ × List α) : Prop :=
  left.1 + left.2.length ≤ right.1

/-- No address belongs to both regions. -/
def Apart (left right : ℕ × List α) : Prop :=
  Before left right ∨ Before right left

/-- The regions stand in the store, below the frontier and one after the
other. -/
structure Placed (store : ℕ → α) (frontier : ℕ) (regions : List (ℕ × List α)) :
    Prop where
  held : ∀ region ∈ regions, Holds store region
  below : ∀ region ∈ regions, region.1 + region.2.length ≤ frontier
  ordered : regions.Pairwise Before

theorem readRange_congr {store store' : ℕ → α} {start length : ℕ}
    (heq : ∀ address, start ≤ address → address < start + length →
      store' address = store address) :
    readRange store' start length = readRange store start length := by
  apply List.map_congr_left
  intro k hk
  rw [List.mem_range] at hk
  exact heq (start + k) (by omega) (by omega)

theorem readRange_add (store : ℕ → α) (start left right : ℕ) :
    readRange store start (left + right) =
      readRange store start left ++ readRange store (start + left) right := by
  simp only [readRange, List.range_add, List.map_append, List.map_map]
  congr 1
  apply List.map_congr_left
  intro k _
  simp only [Function.comp, Nat.add_assoc]

theorem Holds.congr {store store' : ℕ → α} {region : ℕ × List α}
    (hholds : Holds store region)
    (heq : ∀ address < region.1 + region.2.length,
      store' address = store address) : Holds store' region := by
  rw [Holds, readRange_congr fun address _ hlt => heq address hlt]
  exact hholds

theorem Placed.nil (store : ℕ → α) (frontier : ℕ) :
    Placed store frontier [] where
  held := by simp
  below := by simp
  ordered := List.Pairwise.nil

/-- Laying down one more list at the frontier. -/
theorem Placed.append {store store' : ℕ → α} {frontier frontier' : ℕ}
    {regions : List (ℕ × List α)} (hplaced : Placed store frontier regions)
    {values : List α}
    (hframe : ∀ address < frontier, store' address = store address)
    (hvalues : Holds store' (frontier, values))
    (hfrontier : frontier + values.length ≤ frontier') :
    Placed store' frontier' (regions ++ [(frontier, values)]) where
  held := by
    intro region hregion
    rcases List.mem_append.mp hregion with hregion | hregion
    · apply (hplaced.held region hregion).congr
      intro address haddress
      exact hframe address
        (haddress.trans_le (hplaced.below region hregion))
    · rw [List.mem_singleton.mp hregion]
      exact hvalues
  below := by
    intro region hregion
    rcases List.mem_append.mp hregion with hregion | hregion
    · have hbelow := hplaced.below region hregion
      omega
    · rw [List.mem_singleton.mp hregion]
      exact hfrontier
  ordered := by
    rw [List.pairwise_append]
    refine ⟨hplaced.ordered, List.pairwise_singleton _ _, ?_⟩
    intro region hregion last hlast
    rw [List.mem_singleton.mp hlast]
    exact hplaced.below region hregion

theorem Apart.symm {left right : ℕ × List α} (hapart : Apart left right) :
    Apart right left :=
  Or.symm hapart

/-- Two placed regions share no address. -/
theorem Placed.apart {store : ℕ → α} {frontier : ℕ}
    {regions : List (ℕ × List α)} (hplaced : Placed store frontier regions) :
    regions.Pairwise Apart :=
  hplaced.ordered.imp Or.inl

/-- Regions named by different items share no address either. -/
theorem apart_of_ne {β : Type*} {region : β → ℕ × List α} {items : List β}
    (hapart : (items.map region).Pairwise Apart) {left right : β}
    (hleft : left ∈ items) (hright : right ∈ items) (hne : left ≠ right) :
    Apart (region left) (region right) := by
  rw [List.pairwise_map] at hapart
  have : Std.Symm fun left right => Apart (region left) (region right) :=
    ⟨fun _ _ happly => happly.symm⟩
  exact hapart.forall hleft hright hne

/-! ## Cuts of a list -/

/-- The part of a list between two positions. -/
def slice (values : List α) (start stop : ℕ) : List α :=
  (values.drop start).take (stop - start)

theorem take_append_slice (values : List α) {start stop : ℕ}
    (hle : start ≤ stop) :
    values.take start ++ slice values start stop = values.take stop := by
  obtain ⟨length, rfl⟩ := Nat.exists_eq_add_of_le hle
  rw [slice, Nat.add_sub_cancel_left, List.take_add]

/-- The parts between increasing positions, put together again. -/
theorem flatMap_slice (values : List α) {cut : ℕ → ℕ} (hmono : Monotone cut)
    (hzero : cut 0 = 0) (count : ℕ) :
    (List.range count).flatMap
        (fun k => slice values (cut k) (cut (k + 1))) =
      values.take (cut count) := by
  induction count with
  | zero => simp [hzero]
  | succ count ih =>
      rw [List.range_succ, List.flatMap_append, ih, List.flatMap_singleton]
      exact take_append_slice values (hmono (Nat.le_succ count))

end NvmeVirt.Regions
