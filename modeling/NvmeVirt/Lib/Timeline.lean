import NvmeVirt.Lib.Counting

/-!
# Credits on a timeline

Every interval of an unbounded timeline has the same number of credits.  A
request takes credits from its own interval on, from each interval what is left
of them, until it has enough of them or has come to the end of its intervals.
-/

namespace NvmeVirt.Timeline

open Function

/-- What a request leaves behind: the used credits of every interval, the
credits it did not get, and the interval in which it stopped. -/
structure Spent where
  used : ℕ → ℕ
  missing : ℕ
  last : ℕ

/-- What a request for `amount` credits gets in interval `t`. -/
def share (limit t amount : ℕ) (used : ℕ → ℕ) : ℕ :=
  min amount (limit - used t)

def charge (limit t amount : ℕ) (used : ℕ → ℕ) : ℕ → ℕ :=
  update used t (used t + share limit t amount used)

/-- A request for `amount` credits that may use the intervals from `t` to
`t + count`. -/
def spend (limit : ℕ) : ℕ → ℕ → ℕ → (ℕ → ℕ) → Spent
  | 0, t, amount, used =>
      ⟨charge limit t amount used, amount - share limit t amount used, t⟩
  | count + 1, t, amount, used =>
      if amount - share limit t amount used = 0 then
        ⟨charge limit t amount used, 0, t⟩
      else
        spend limit count (t + 1) (amount - share limit t amount used)
          (charge limit t amount used)

section Charge

variable {limit t amount : ℕ} {used : ℕ → ℕ}

theorem charge_of_ne {s : ℕ} (hne : s ≠ t) :
    charge limit t amount used s = used s := update_of_ne hne _ _

theorem charge_le (hused : ∀ s, used s ≤ limit) (s : ℕ) :
    charge limit t amount used s ≤ limit := by
  rw [charge, update_apply]
  split
  · have := hused t
    unfold share
    omega
  · exact hused s

theorem sum_charge {a b : ℕ} (ha : a ≤ t) (hb : t < b) :
    ∑ s ∈ Finset.Ico a b, charge limit t amount used s =
      ∑ s ∈ Finset.Ico a b, used s + share limit t amount used := by
  have hsum := Counting.sum_update_add (Finset.mem_Ico.mpr ⟨ha, hb⟩) used
    (used t + share limit t amount used)
  rw [charge]
  omega

theorem share_le : share limit t amount used ≤ amount := min_le_left _ _

end Charge

section Spend

variable (limit count t amount : ℕ) (used : ℕ → ℕ)

theorem le_spend_last : t ≤ (spend limit count t amount used).last := by
  induction count generalizing t amount used with
  | zero => exact le_rfl
  | succ count ih =>
      rw [spend]
      split
      · exact le_rfl
      · exact (Nat.le_succ t).trans (ih _ _ _)

theorem spend_last_le :
    (spend limit count t amount used).last ≤ t + count := by
  induction count generalizing t amount used with
  | zero => exact le_rfl
  | succ count ih =>
      rw [spend]
      split
      · exact Nat.le_add_right t _
      · exact (ih _ _ _).trans (by omega)

/-- The intervals before the request and those after the last one it came to
are as they were. -/
theorem spend_outside {s : ℕ}
    (hs : s < t ∨ (spend limit count t amount used).last < s) :
    (spend limit count t amount used).used s = used s := by
  induction count generalizing t amount used with
  | zero =>
      apply charge_of_ne
      simp only [spend] at hs
      omega
  | succ count ih =>
      rw [spend] at hs ⊢
      split at hs
      · rename_i henough
        rw [if_pos henough]
        apply charge_of_ne
        simp only at hs
        omega
      · rename_i hmore
        have hlast := le_spend_last limit count (t + 1)
          (amount - share limit t amount used) (charge limit t amount used)
        rw [if_neg hmore, ih (t + 1) _ _ (by omega)]
        apply charge_of_ne
        omega

/-- No interval is overdrawn. -/
theorem spend_le (hused : ∀ s, used s ≤ limit) (s : ℕ) :
    (spend limit count t amount used).used s ≤ limit := by
  induction count generalizing t amount used with
  | zero => exact charge_le hused s
  | succ count ih =>
      rw [spend]
      split
      · exact charge_le hused s
      · exact ih _ _ _ (charge_le hused)

/-- What a request takes and what it does not get are what it asked for. -/
theorem sum_spend {a b : ℕ} (ha : a ≤ t) (hb : t + count < b) :
    ∑ s ∈ Finset.Ico a b, (spend limit count t amount used).used s +
        (spend limit count t amount used).missing =
      ∑ s ∈ Finset.Ico a b, used s + amount := by
  have hshare : share limit t amount used ≤ amount := share_le
  induction count generalizing t amount used with
  | zero =>
      simp only [spend, sum_charge ha hb]
      omega
  | succ count ih =>
      have htaken : ∑ s ∈ Finset.Ico a b, charge limit t amount used s =
          ∑ s ∈ Finset.Ico a b, used s + share limit t amount used :=
        sum_charge ha (by omega)
      rw [spend]
      split
      · rename_i henough
        simp only [htaken]
        omega
      · rw [ih (t + 1) _ _ (by omega) (by omega) share_le, htaken]
        omega

end Spend

end NvmeVirt.Timeline
