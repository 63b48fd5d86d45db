import Mathlib

/-!
# Rounding to a binary significand

Floating-point formats whose significand has a given number of binary digits:
round to nearest, ties to even.  The first part converts integers, which are
exact if they fit into the significand.  The second one rounds rational numbers,
as the results of the four operations are, with no bounds on the exponent.  What
a proof needs of such a rounding are the laws of `FloatRounding`.
-/

namespace NvmeVirt.Rounding

/-- The quotient by `2 ^ shift`, rounded to nearest with ties to even. -/
def nearestQuotient (shift n : ℕ) : ℕ :=
  let quotient := n / 2 ^ shift
  let rest := 2 * (n % 2 ^ shift)
  if rest < 2 ^ shift then quotient
  else if 2 ^ shift < rest then quotient + 1
  else quotient + quotient % 2

/-- Number of low binary digits of `n` that do not fit. -/
def excess (precision n : ℕ) : ℕ :=
  n.log2 + 1 - precision

def roundNat (precision n : ℕ) : ℕ :=
  nearestQuotient (excess precision n) n * 2 ^ excess precision n

/-- The magnitude is rounded and the sign is kept. -/
def roundInt (precision : ℕ) (n : ℤ) : ℤ :=
  n.sign * roundNat precision n.natAbs

@[simp]
theorem nearestQuotient_zero (n : ℕ) : nearestQuotient 0 n = n := by
  simp [nearestQuotient, Nat.mod_one]

theorem excess_eq_zero {precision n : ℕ} (hpos : 0 < precision)
    (hn : n < 2 ^ precision) : excess precision n = 0 := by
  rcases Nat.eq_zero_or_pos n with rfl | hnpos
  · simp only [excess, Nat.log2_zero]
    omega
  · have hlog := (Nat.log2_lt hnpos.ne').mpr hn
    simp only [excess]
    omega

theorem roundNat_of_lt {precision n : ℕ} (hpos : 0 < precision)
    (hn : n < 2 ^ precision) : roundNat precision n = n := by
  rw [roundNat, excess_eq_zero hpos hn, nearestQuotient_zero, pow_zero, mul_one]

/-- Integers of at most `precision` binary digits are exact. -/
theorem roundInt_natCast {precision n : ℕ} (hpos : 0 < precision)
    (hn : n < 2 ^ precision) : roundInt precision (n : ℤ) = n := by
  rw [roundInt, Int.natAbs_natCast, roundNat_of_lt hpos hn]
  rcases Nat.eq_zero_or_pos n with rfl | hnpos
  · rfl
  · rw [Int.sign_eq_one_of_pos (by exact_mod_cast hnpos), one_mul]

example : roundInt 24 (2 ^ 24 + 1) = 2 ^ 24 := by decide

/-! ## Rational numbers -/

/-- The nearest integer, ties to even. -/
def nearestEven (x : ℚ) : ℤ :=
  if 2 * (x - ⌊x⌋) < 1 then ⌊x⌋
  else if 1 < 2 * (x - ⌊x⌋) then ⌊x⌋ + 1
  else ⌊x⌋ + ⌊x⌋ % 2

/-- The exponent of the last digit in the significand of a positive number. -/
def lastPlace (precision : ℕ) (x : ℚ) : ℤ :=
  Int.log 2 x + 1 - precision

def roundMagnitude (precision : ℕ) (x : ℚ) : ℚ :=
  nearestEven (x / 2 ^ lastPlace precision x) * 2 ^ lastPlace precision x

def roundRat (precision : ℕ) (x : ℚ) : ℚ :=
  if 0 ≤ x then roundMagnitude precision x
  else -roundMagnitude precision (-x)

/-- A rounding of rational numbers that is monotone, leaves the numbers of the
format alone, and is off by at most half a digit. -/
structure FloatRounding (precision : ℕ) where
  round : ℚ → ℚ
  monotone : Monotone round
  round_round : ∀ x, round (round x) = round x
  round_exact : ∀ n exponent : ℤ, |n| ≤ 2 ^ precision →
    round (n * 2 ^ exponent) = n * 2 ^ exponent
  error_le : ∀ x, |round x - x| * 2 ^ precision ≤ |x|

section Nearest

theorem nearestEven_floor_le (x : ℚ) : ⌊x⌋ ≤ nearestEven x := by
  unfold nearestEven
  split_ifs <;> omega

theorem nearestEven_le_floor (x : ℚ) : nearestEven x ≤ ⌊x⌋ + 1 := by
  unfold nearestEven
  split_ifs <;> omega

@[simp]
theorem nearestEven_intCast (n : ℤ) : nearestEven n = n := by
  simp [nearestEven]

theorem nearestEven_monotone : Monotone nearestEven := by
  intro x y hxy
  rcases (Int.floor_mono hxy).eq_or_lt with hfloor | hfloor
  · have hrest : 2 * (x - ⌊x⌋) ≤ 2 * (y - ⌊y⌋) := by
      rw [hfloor]
      linarith
    unfold nearestEven
    rw [hfloor] at hrest ⊢
    split_ifs <;> first | omega | linarith
  · exact (nearestEven_le_floor x).trans
      ((Int.add_one_le_iff.mpr hfloor).trans (nearestEven_floor_le y))

theorem nearestEven_nonneg {x : ℚ} (hx : 0 ≤ x) : 0 ≤ nearestEven x :=
  (Int.floor_nonneg.mpr hx).trans (nearestEven_floor_le x)

theorem nearestEven_error (x : ℚ) : |nearestEven x - x| * 2 ≤ 1 := by
  have hfloor := Int.floor_le x
  have hlt := Int.lt_floor_add_one x
  suffices hbounds : 2 * (x - nearestEven x) ≤ 1 ∧
      2 * (nearestEven x - x) ≤ 1 by
    rw [abs_sub_comm, ← le_div_iff₀ two_pos, abs_le]
    constructor <;> linarith [hbounds.1, hbounds.2]
  unfold nearestEven
  split_ifs with hdown hup
  · exact ⟨hdown.le, by linarith⟩
  · push_cast
    exact ⟨by linarith, by linarith⟩
  · -- Halfway between two integers, either one is near enough.
    have hhalf : 2 * (x - ⌊x⌋) = 1 :=
      le_antisymm (not_lt.mp hup) (not_lt.mp hdown)
    rcases Int.emod_two_eq_zero_or_one ⌊x⌋ with heven | hodd
    · rw [heven, add_zero]
      exact ⟨hhalf.le, by linarith⟩
    · rw [hodd]
      push_cast
      exact ⟨by linarith, by linarith⟩

end Nearest

section Magnitude

variable {precision : ℕ} {x y : ℚ}

@[simp]
theorem roundMagnitude_zero : roundMagnitude precision 0 = 0 := by
  simp [roundMagnitude, nearestEven]

theorem roundMagnitude_nonneg (hx : 0 ≤ x) : 0 ≤ roundMagnitude precision x := by
  have hnearest := nearestEven_nonneg
    (show 0 ≤ x / 2 ^ lastPlace precision x by positivity)
  rw [roundMagnitude]
  positivity

/-- The digits before the last place make up the significand. -/
theorem lastPlace_digits (digits : ℤ) :
    (2 : ℚ) ^ (Int.log 2 x + 1 - precision + digits) =
      2 ^ digits * 2 ^ lastPlace precision x := by
  rw [lastPlace, ← zpow_add₀ two_ne_zero, add_comm]

/-- No number rounds up beyond a power of two. -/
theorem roundMagnitude_le {exponent : ℤ} (hpos : 0 < x)
    (hx : x < 2 ^ exponent) : roundMagnitude precision x ≤ 2 ^ exponent := by
  have hlog : Int.log 2 x + 1 ≤ exponent :=
    (Int.lt_zpow_iff_log_lt one_lt_two hpos).mp hx
  have hlt : x < 2 ^ (precision : ℤ) * 2 ^ lastPlace precision x := by
    rw [← lastPlace_digits, sub_add_cancel]
    exact Int.lt_zpow_succ_log_self one_lt_two x
  have hquotient : x / 2 ^ lastPlace precision x ≤
      ((2 ^ precision : ℤ) : ℚ) := by
    rw [div_le_iff₀ (by positivity)]
    exact_mod_cast hlt.le
  have hnearest := nearestEven_monotone hquotient
  rw [nearestEven_intCast] at hnearest
  calc roundMagnitude precision x
      ≤ ((2 ^ precision : ℤ) : ℚ) * 2 ^ lastPlace precision x := by
        refine mul_le_mul_of_nonneg_right ?_ (by positivity)
        exact_mod_cast hnearest
    _ = 2 ^ (Int.log 2 x + 1) := by
        rw [show Int.log 2 x + 1 = Int.log 2 x + 1 - precision + precision by
          ring, lastPlace_digits]
        norm_num
    _ ≤ 2 ^ exponent := zpow_le_zpow_right₀ one_le_two hlog

theorem le_roundMagnitude {exponent : ℤ} (hprecision : 0 < precision)
    (hpos : 0 < x) (hx : 2 ^ exponent ≤ x) :
    2 ^ exponent ≤ roundMagnitude precision x := by
  have hlog : exponent ≤ Int.log 2 x :=
    (Int.zpow_le_iff_le_log one_lt_two hpos).mp hx
  have hdigits : (2 : ℚ) ^ Int.log 2 x =
      2 ^ (precision - 1) * 2 ^ lastPlace precision x := by
    rw [← zpow_natCast, ← lastPlace_digits]
    congr 1
    omega
  have hquotient : ((2 ^ (precision - 1) : ℤ) : ℚ) ≤
      x / 2 ^ lastPlace precision x := by
    rw [le_div_iff₀ (by positivity)]
    push_cast
    rw [← hdigits]
    exact Int.zpow_log_le_self one_lt_two hpos
  have hnearest := nearestEven_monotone hquotient
  rw [nearestEven_intCast] at hnearest
  calc (2 : ℚ) ^ exponent
      ≤ 2 ^ Int.log 2 x := zpow_le_zpow_right₀ one_le_two hlog
    _ = ((2 ^ (precision - 1) : ℤ) : ℚ) * 2 ^ lastPlace precision x := by
        rw [hdigits]
        norm_num
    _ ≤ roundMagnitude precision x := by
        refine mul_le_mul_of_nonneg_right ?_ (by positivity)
        exact_mod_cast hnearest

theorem roundMagnitude_mono (hprecision : 0 < precision) (hx : 0 ≤ x)
    (hxy : x ≤ y) : roundMagnitude precision x ≤ roundMagnitude precision y := by
  rcases hx.eq_or_lt with rfl | hpos
  · rw [roundMagnitude_zero]
    exact roundMagnitude_nonneg hxy
  have hposY := hpos.trans_le hxy
  rcases (Int.log_mono_right hpos hxy : Int.log 2 x ≤ Int.log 2 y).eq_or_lt with
    hlog | hlog
  · have hplace : lastPlace precision x = lastPlace precision y := by
      rw [lastPlace, lastPlace, hlog]
    rw [roundMagnitude, roundMagnitude, hplace]
    refine mul_le_mul_of_nonneg_right ?_ (by positivity)
    exact_mod_cast nearestEven_monotone (by gcongr)
  · calc roundMagnitude precision x
        ≤ 2 ^ (Int.log 2 x + 1) :=
          roundMagnitude_le hpos (Int.lt_zpow_succ_log_self one_lt_two x)
      _ ≤ 2 ^ Int.log 2 y := zpow_le_zpow_right₀ one_le_two hlog
      _ ≤ roundMagnitude precision y := le_roundMagnitude hprecision hposY
          (Int.zpow_log_le_self one_lt_two hposY)

theorem roundMagnitude_error (hpos : 0 < x) :
    |roundMagnitude precision x - x| * 2 ^ precision ≤ x := by
  have hunit : (0 : ℚ) < 2 ^ lastPlace precision x := by positivity
  have hnear := nearestEven_error (x / 2 ^ lastPlace precision x)
  have hoff : roundMagnitude precision x - x =
      (nearestEven (x / 2 ^ lastPlace precision x) -
        x / 2 ^ lastPlace precision x) * 2 ^ lastPlace precision x := by
    rw [roundMagnitude, sub_mul, div_mul_cancel₀ _ hunit.ne']
  have hdigits : (2 : ℚ) ^ precision * 2 ^ lastPlace precision x =
      2 * 2 ^ Int.log 2 x := by
    rw [← zpow_natCast, ← lastPlace_digits, sub_add_cancel,
      zpow_add_one₀ two_ne_zero, mul_comm]
  calc |roundMagnitude precision x - x| * 2 ^ precision
      = |nearestEven (x / 2 ^ lastPlace precision x) -
          x / 2 ^ lastPlace precision x| * 2 * 2 ^ Int.log 2 x := by
        rw [hoff, abs_mul, abs_of_pos hunit, mul_assoc, mul_comm _ (2 ^ _),
          hdigits, mul_assoc]
    _ ≤ 1 * 2 ^ Int.log 2 x := by gcongr
    _ ≤ x := by
        rw [one_mul]
        exact Int.zpow_log_le_self one_lt_two hpos

/-- The last place of a number with a short significand is not beyond its own
digits. -/
theorem roundMagnitude_of_lt {n : ℕ} {exponent : ℤ} (hpos : 0 < n)
    (hn : n < 2 ^ precision) :
    roundMagnitude precision (n * 2 ^ exponent) = n * 2 ^ exponent := by
  have hx : (0 : ℚ) < n * 2 ^ exponent := by positivity
  have hlog : Int.log 2 ((n : ℚ) * 2 ^ exponent) < precision + exponent := by
    rw [← Int.lt_zpow_iff_log_lt one_lt_two hx, Nat.cast_two,
      zpow_add₀ two_ne_zero, zpow_natCast]
    gcongr
    exact_mod_cast hn
  have hplace : lastPlace precision ((n : ℚ) * 2 ^ exponent) ≤ exponent := by
    rw [lastPlace]
    omega
  obtain ⟨shift, hshift⟩ := Int.eq_ofNat_of_zero_le (sub_nonneg.mpr hplace)
  have hquotient : (n : ℚ) * 2 ^ exponent /
      2 ^ lastPlace precision ((n : ℚ) * 2 ^ exponent) =
        ((n * 2 ^ shift : ℤ) : ℚ) := by
    rw [mul_div_assoc, ← zpow_sub₀ two_ne_zero, hshift]
    push_cast
    rw [zpow_natCast]
  rw [roundMagnitude, hquotient, nearestEven_intCast, ← hquotient,
    div_mul_cancel₀ _ (by positivity)]

theorem roundMagnitude_exact {n : ℕ} {exponent : ℤ} (hprecision : 0 < precision)
    (hn : n ≤ 2 ^ precision) :
    roundMagnitude precision (n * 2 ^ exponent) = n * 2 ^ exponent := by
  rcases hn.eq_or_lt with rfl | hlt
  · -- The smallest number with one digit more.
    obtain ⟨digits, rfl⟩ := Nat.exists_eq_succ_of_ne_zero hprecision.ne'
    have hsplit : ((2 ^ (digits + 1) : ℕ) : ℚ) * 2 ^ exponent =
        ((2 ^ digits : ℕ) : ℚ) * 2 ^ (exponent + 1) := by
      rw [zpow_add_one₀ two_ne_zero, pow_succ]
      push_cast
      ring
    rw [hsplit]
    exact roundMagnitude_of_lt (by positivity)
      (Nat.pow_lt_pow_right one_lt_two (Nat.lt_succ_self _))
  · rcases Nat.eq_zero_or_pos n with rfl | hpos
    · simp
    · exact roundMagnitude_of_lt hpos hlt

/-- A rounded number has a short significand. -/
theorem roundMagnitude_eq (hx : 0 ≤ x) : ∃ n : ℕ, n ≤ 2 ^ precision ∧
    roundMagnitude precision x = n * 2 ^ lastPlace precision x := by
  rcases hx.eq_or_lt with rfl | hpos
  · exact ⟨0, Nat.zero_le _, by simp⟩
  have hunit : (0 : ℚ) < 2 ^ lastPlace precision x := by positivity
  obtain ⟨n, hn⟩ := Int.eq_ofNat_of_zero_le (nearestEven_nonneg
    (show 0 ≤ x / 2 ^ lastPlace precision x by positivity))
  have hround : roundMagnitude precision x = n * 2 ^ lastPlace precision x := by
    rw [roundMagnitude, hn, Int.cast_natCast]
  have hle := @roundMagnitude_le precision x _ hpos
    (Int.lt_zpow_succ_log_self one_lt_two x)
  rw [hround, show Int.log 2 x + 1 = Int.log 2 x + 1 - precision + precision
    by ring, lastPlace_digits, mul_le_mul_iff_left₀ hunit] at hle
  exact ⟨n, by exact_mod_cast hle, hround⟩

end Magnitude

namespace FloatRounding

variable {precision : ℕ}

/-- Exact arithmetic. -/
def exact (precision : ℕ) : FloatRounding precision where
  round := id
  monotone := monotone_id
  round_round := fun _ => rfl
  round_exact := fun _ _ _ => rfl
  error_le := fun x => by simp

theorem roundRat_neg (x : ℚ) :
    roundRat precision (-x) = -roundRat precision x := by
  rcases lt_trichotomy x 0 with hneg | rfl | hpos
  · rw [roundRat, if_pos (by linarith), roundRat, if_neg (by linarith), neg_neg]
  · simp [roundRat]
  · rw [roundRat, if_neg (by linarith), roundRat, if_pos hpos.le, neg_neg]

theorem roundRat_monotone (hprecision : 0 < precision) :
    Monotone (roundRat precision) := by
  intro x y hxy
  by_cases hx : 0 ≤ x
  · rw [roundRat, if_pos hx, roundRat, if_pos (hx.trans hxy)]
    exact roundMagnitude_mono hprecision hx hxy
  rw [roundRat, if_neg hx]
  by_cases hy : 0 ≤ y
  · rw [roundRat, if_pos hy]
    have hleft := @roundMagnitude_nonneg precision (-x) (by linarith)
    have hright := @roundMagnitude_nonneg precision y hy
    linarith
  · rw [roundRat, if_neg hy]
    exact neg_le_neg (roundMagnitude_mono hprecision (by linarith)
      (neg_le_neg hxy))

/-- What holds of the numbers that are not negative and is kept by negation
holds of all. -/
theorem of_nonneg {property : ℚ → Prop} (hnonneg : ∀ x, 0 ≤ x → property x)
    (hneg : ∀ x, property x → property (-x)) (x : ℚ) : property x := by
  by_cases hx : 0 ≤ x
  · exact hnonneg x hx
  · exact neg_neg x ▸ hneg _ (hnonneg (-x) (by linarith))

theorem roundRat_exact (hprecision : 0 < precision) {n exponent : ℤ}
    (hn : |n| ≤ 2 ^ precision) :
    roundRat precision (n * 2 ^ exponent) = n * 2 ^ exponent := by
  obtain ⟨m, hm⟩ := n.eq_nat_or_neg
  have hmagnitude : m ≤ 2 ^ precision →
      roundRat precision (m * 2 ^ exponent) = m * 2 ^ exponent := by
    intro hle
    rw [roundRat, if_pos (by positivity)]
    exact roundMagnitude_exact hprecision hle
  rcases hm with rfl | rfl
  · rw [Nat.abs_cast] at hn
    rw [Int.cast_natCast]
    exact hmagnitude (by exact_mod_cast hn)
  · rw [abs_neg, Nat.abs_cast] at hn
    rw [Int.cast_neg, Int.cast_natCast, neg_mul, roundRat_neg,
      hmagnitude (by exact_mod_cast hn)]

/-- Round to nearest, ties to even. -/
def nearest (precision : ℕ) (hprecision : 0 < precision) :
    FloatRounding precision where
  round := roundRat precision
  monotone := roundRat_monotone hprecision
  round_round := by
    refine of_nonneg (fun x hx => ?_) fun x hx => ?_
    · obtain ⟨n, hn, hround⟩ := @roundMagnitude_eq precision x hx
      rw [show roundRat precision x = _ from if_pos hx, hround,
        ← Int.cast_natCast]
      exact roundRat_exact hprecision (by simpa using mod_cast hn)
    · rw [roundRat_neg, roundRat_neg, hx]
  round_exact := fun n exponent hn => roundRat_exact hprecision hn
  error_le := by
    refine of_nonneg (fun x hx => ?_) fun x hx => ?_
    · rw [roundRat, if_pos hx, abs_of_nonneg hx]
      rcases hx.eq_or_lt with rfl | hpos
      · simp
      · exact roundMagnitude_error hpos
    · rw [roundRat_neg, abs_neg, ← neg_sub', abs_neg]
      exact hx

section Laws

variable (fl : FloatRounding precision) {x : ℚ}

theorem round_intCast {n : ℤ} (hn : |n| ≤ 2 ^ precision) :
    fl.round n = n := by
  simpa using fl.round_exact n 0 hn

@[simp]
theorem round_zero : fl.round 0 = 0 := by
  simpa using fl.round_exact 0 0 (by positivity)

@[simp]
theorem round_one : fl.round 1 = 1 := by
  simpa using fl.round_exact 1 0 (by simpa using one_le_pow₀ one_le_two)

theorem round_nonneg (hx : 0 ≤ x) : 0 ≤ fl.round x :=
  fl.round_zero ▸ fl.monotone hx

/-- The error of a number that is not negative, in both directions. -/
theorem round_bounds (hx : 0 ≤ x) :
    fl.round x * 2 ^ precision ≤ x * (2 ^ precision + 1) ∧
      x * (2 ^ precision - 1) ≤ fl.round x * 2 ^ precision := by
  have herror := fl.error_le x
  rw [abs_of_nonneg hx, ← le_div_iff₀ (by positivity), abs_le] at herror
  have hdiv : x / 2 ^ precision * 2 ^ precision = x :=
    div_mul_cancel₀ x (by positivity)
  have hpow : (0 : ℚ) < 2 ^ precision := by positivity
  constructor <;> nlinarith [herror.1, herror.2]

theorem round_pos (hprecision : 0 < precision) (hx : 0 < x) :
    0 < fl.round x := by
  have hlow := (fl.round_bounds hx.le).2
  have hpow : (1 : ℚ) < 2 ^ precision := one_lt_pow₀ one_lt_two hprecision.ne'
  have hleft : 0 < x * (2 ^ precision - 1) := mul_pos hx (by linarith)
  exact pos_of_mul_pos_left (hleft.trans_le hlow) (by positivity)

end Laws

end FloatRounding

end NvmeVirt.Rounding
