import Mathlib

/-!
# Ring indices

Two parties that follow each other round an array of fixed size.  An index
moves on by one and starts again at the end of the array, and the distance
between two indices is counted the way round that does not pass the end more
than once.
-/

namespace NvmeVirt.Ring

variable {size i j : ℕ}

/-- The index after `i`. -/
def next (size i : ℕ) : ℕ := if i + 1 = size then 0 else i + 1

/-- The number of steps from index `i` to index `j`. -/
def distance (size i j : ℕ) : ℕ := if j < i then j + size - i else j - i

theorem next_eq_mod (hi : i < size) : next size i = (i + 1) % size := by
  unfold next
  split
  · rename_i heq
    rw [heq, Nat.mod_self]
  · rw [Nat.mod_eq_of_lt]
    omega

theorem next_mod (hsize : 0 < size) (n : ℕ) :
    next size (n % size) = (n + 1) % size := by
  rw [next_eq_mod (Nat.mod_lt n hsize), Nat.mod_add_mod]

theorem distance_lt (hi : i < size) (hj : j < size) :
    distance size i j < size := by
  unfold distance
  split <;> omega

theorem add_distance_mod (hi : i < size) (hj : j < size) :
    (i + distance size i j) % size = j := by
  unfold distance
  split
  · have hround : i + (j + size - i) = j + size := by omega
    rw [hround, Nat.add_mod_right, Nat.mod_eq_of_lt hj]
  · have hahead : i + (j - i) = j := by omega
    rw [hahead, Nat.mod_eq_of_lt hj]

theorem next_lt (hi : i < size) : next size i < size := by
  unfold next
  split <;> omega

/-- A step towards another index. -/
theorem distance_next (hi : i < size) (hj : j < size) (hne : i ≠ j) :
    distance size (next size i) j + 1 = distance size i j := by
  unfold distance next
  split <;> split <;> split <;> omega

/-- The distance is the only number of steps below the size that leads from one
index to the other. -/
theorem distance_mod_add {n steps : ℕ} (hsteps : steps < size) :
    distance size (n % size) ((n + steps) % size) = steps := by
  have hsize : 0 < size := by omega
  have hn := Nat.mod_lt n hsize
  have hsum : (n + steps) % size = (n % size + steps) % size :=
    (Nat.mod_add_mod n size steps).symm
  rw [hsum]
  generalize n % size = i at hn
  rcases Nat.lt_or_ge (i + steps) size with hlt | hge
  · rw [Nat.mod_eq_of_lt hlt, distance, if_neg (by omega)]
    omega
  · rw [Nat.mod_eq_sub_mod hge, Nat.mod_eq_of_lt (by omega), distance,
      if_pos (by omega)]
    omega

/-- The indices visited by `count` steps from the `start`-th on. -/
def visited (size start count : ℕ) : List ℕ :=
  (List.range' start count).map (· % size)

theorem visited_succ (start count : ℕ) :
    visited size start (count + 1) =
      start % size :: visited size (start + 1) count := by
  rw [visited, List.range'_succ, List.map_cons, visited]

theorem visited_append (start m n : ℕ) :
    visited size start m ++ visited size (start + m) n =
      visited size start (m + n) := by
  simp only [visited]
  rw [← List.map_append, List.range'_append_1]

theorem visited_mod (start count : ℕ) :
    visited size (start % size) count = visited size start count := by
  induction count generalizing start with
  | zero => rfl
  | succ count ih =>
      rw [visited_succ, visited_succ, Nat.mod_mod, ← ih (start % size + 1),
        ← ih (start + 1), Nat.mod_add_mod]

end NvmeVirt.Ring
