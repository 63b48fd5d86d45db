import Mathlib

/-!
# Copying the cells of a memory

A copy that goes cell by cell, and never reads a cell that it writes, gives the
targets the values that the sources had at its start.
-/

namespace NvmeVirt.Copying

open Function

variable {α β : Type*} [DecidableEq α]

/-- Copies from the first to the second cell of each pair, one pair after the
other. -/
def copyAll (mem : α → β) (moves : List (α × α)) : α → β :=
  moves.foldl (fun mem move => update mem move.2 (mem move.1)) mem

/-- The targets get values, one after the other. -/
def overwrite (mem : α → β) (n : ℕ) (target : ℕ → α) (value : ℕ → β) : α → β :=
  (List.range n).foldl (fun mem i => update mem (target i) (value i)) mem

variable {mem : α → β} {n : ℕ} {source target : ℕ → α} {value : ℕ → β}

theorem overwrite_succ :
    overwrite mem (n + 1) target value =
      update (overwrite mem n target value) (target n) (value n) := by
  rw [overwrite, List.range_succ, List.foldl_append]
  rfl

theorem overwrite_of_ne {cell : α} (hcell : ∀ i < n, target i ≠ cell) :
    overwrite mem n target value cell = mem cell := by
  induction n with
  | zero => rfl
  | succ n ih =>
      rw [overwrite_succ, update_of_ne (hcell n n.lt_succ_self).symm]
      exact ih fun i hi => hcell i (hi.trans n.lt_succ_self)

/-- Memories that agree on a set of cells agree there after the same targets
get the same values. -/
theorem overwrite_congr {mem' : α → β} {value' : ℕ → β} {cells : Set α}
    (hmem : ∀ cell ∈ cells, mem cell = mem' cell)
    (hvalue : ∀ i < n, value i = value' i) :
    ∀ cell ∈ cells, overwrite mem n target value cell =
      overwrite mem' n target value' cell := by
  induction n with
  | zero => exact hmem
  | succ n ih =>
      intro cell hcell
      rw [overwrite_succ, overwrite_succ, update_apply, update_apply,
        ih (fun i hi => hvalue i (hi.trans n.lt_succ_self)) cell hcell,
        hvalue n n.lt_succ_self]

/-- Seen through a numbering of some of the cells. -/
theorem overwrite_comp {γ : Type*} [DecidableEq γ] {f : γ → α}
    (hf : Injective f) (target : ℕ → γ) (cell : γ) :
    overwrite mem n (fun i => f (target i)) value (f cell) =
      overwrite (fun cell => mem (f cell)) n target value cell := by
  induction n with
  | zero => rfl
  | succ n ih =>
      rw [overwrite_succ, overwrite_succ, update_apply, update_apply, ih]
      simp only [hf.eq_iff]

theorem copyAll_append (moves moves' : List (α × α)) :
    copyAll mem (moves ++ moves') = copyAll (copyAll mem moves) moves' :=
  List.foldl_append

/-- A copy that reads no cell that it writes. -/
theorem copyAll_eq_overwrite
    (hdisjoint : ∀ i < n, ∀ j < n, target j ≠ source i) :
    copyAll mem ((List.range n).map fun i => (source i, target i)) =
      overwrite mem n target fun i => mem (source i) := by
  induction n with
  | zero => rfl
  | succ n ih =>
      have hbefore := ih fun i hi j hj =>
        hdisjoint i (hi.trans n.lt_succ_self) j (hj.trans n.lt_succ_self)
      have hsource : overwrite mem n target (fun i => mem (source i))
          (source n) = mem (source n) :=
        overwrite_of_ne fun i hi =>
          hdisjoint n n.lt_succ_self i (hi.trans n.lt_succ_self)
      calc copyAll mem ((List.range (n + 1)).map fun i => (source i, target i))
          = update (copyAll mem ((List.range n).map fun i =>
              (source i, target i))) (target n) (copyAll mem
                ((List.range n).map fun i => (source i, target i))
                (source n)) := by
            rw [List.range_succ, List.map_append, copyAll_append]
            rfl
        _ = overwrite mem (n + 1) target fun i => mem (source i) := by
            rw [hbefore, hsource, overwrite_succ]

end NvmeVirt.Copying
