import Mathlib

/-!
# Two-digit numbers

A number `high * n + low` with `low < n` determines its two digits, and has a
bound if both of them have one.
-/

namespace NvmeVirt.Digits

variable {n m low low' high high' : ℕ}

/-- Two-digit numbers are below the product of the bases. -/
theorem digits_lt (hlow : low < n) (hhigh : high < m) :
    high * n + low < m * n := by
  calc high * n + low < high * n + n := Nat.add_lt_add_left hlow _
    _ = (high + 1) * n := by ring
    _ ≤ m * n := Nat.mul_le_mul_right n hhigh

theorem digits_inj (hlow : low < n) (hlow' : low' < n) :
    high * n + low = high' * n + low' ↔ high = high' ∧ low = low' := by
  constructor
  · intro heq
    have hpos : 0 < n := Nat.zero_lt_of_lt hlow
    have hdiv := congrArg (· / n) heq
    have hmod := congrArg (· % n) heq
    simp only [Nat.mul_comm _ n, Nat.mul_add_div hpos, Nat.div_eq_of_lt hlow,
      Nat.div_eq_of_lt hlow', add_zero] at hdiv
    simp only [Nat.mul_comm _ n, Nat.mul_add_mod, Nat.mod_eq_of_lt hlow,
      Nat.mod_eq_of_lt hlow'] at hmod
    exact ⟨hdiv, hmod⟩
  · rintro ⟨rfl, rfl⟩
    rfl

end NvmeVirt.Digits
