import NvmeVirt.Csd.PrefetchSection

/-!
# Times of a prefetch section

What the doubles of a section still guarantee, however they are rounded.  A
section gets no more time than the processing of its edges took, and none if the
transfer of its own block takes as long.  A transfer that takes a nanosecond
longer than the processing uses up the time of the section.  Times and lengths
are below 2 ^ 52, where the doubles have a digit for halves.
-/

namespace NvmeVirt.Csd

open Rounding

/-- A time or a length that a double holds with a digit to spare. -/
def InRange (value : ℤ) : Prop := 0 ≤ value ∧ value < 2 ^ 52

instance (value : ℤ) : Decidable (InRange value) :=
  inferInstanceAs (Decidable (_ ∧ _))

section Doubles

variable (fl : FloatRounding 53) {x : ℚ} {value part whole : ℤ}

theorem round_inRange (hvalue : InRange value) : fl.round value = value := by
  refine fl.round_intCast ?_
  rw [abs_of_nonneg hvalue.1]
  exact hvalue.2.le.trans (by norm_num)

theorem quotient_inRange (hpart : InRange part) (hwhole : InRange whole) :
    quotient fl part whole = fl.round (part / whole) := by
  rw [quotient, round_inRange fl hpart, round_inRange fl hwhole]

/-- Halves are exact, so that rounding does not reach the next integer. -/
theorem floor_round_le (hvalue : InRange value) (hx : x ≤ value + 1 / 2) :
    ⌊fl.round x⌋ ≤ value := by
  have hhalf : fl.round ((2 * value + 1 : ℤ) * 2 ^ (-1 : ℤ)) =
      (2 * value + 1 : ℤ) * 2 ^ (-1 : ℤ) := by
    refine fl.round_exact _ _ ?_
    rw [abs_of_nonneg (by linarith [hvalue.1])]
    linarith [hvalue.2]
  have hrewrite : ((2 * value + 1 : ℤ) : ℚ) * 2 ^ (-1 : ℤ) = value + 1 / 2 := by
    push_cast
    ring
  have hle : fl.round x ≤ value + 1 / 2 := by
    rw [← hrewrite, ← hhalf, hrewrite]
    exact fl.monotone hx
  rw [← Int.lt_add_one_iff, Int.floor_lt]
  push_cast
  linarith

theorem le_floor_round (hvalue : InRange value) (hx : value ≤ x) :
    value ≤ ⌊fl.round x⌋ := by
  rw [Int.le_floor, ← round_inRange fl hvalue]
  exact fl.monotone hx

/-- Multiplying a quotient by its divisor again adds less than a half. -/
theorem quotient_mul_le (hpart : InRange part) (hwhole : InRange whole)
    (hpos : 0 < whole) : quotient fl part whole * whole ≤ part + 1 / 2 := by
  have hpos' : (0 : ℚ) < whole := by exact_mod_cast hpos
  have hpart' : (0 : ℚ) ≤ part := by exact_mod_cast hpart.1
  have hlt : (part : ℚ) < 2 ^ 52 := by exact_mod_cast hpart.2
  have hbound := (fl.round_bounds (div_nonneg hpart' hpos'.le)).1
  rw [quotient_inRange fl hpart hwhole]
  have hscaled : fl.round (part / whole) * whole * (2 : ℚ) ^ 53 ≤
      part * (2 ^ 53 + 1) := by
    calc fl.round (part / whole) * whole * (2 : ℚ) ^ 53
        = fl.round (part / whole) * 2 ^ 53 * whole := by ring
      _ ≤ (part : ℚ) / whole * (2 ^ 53 + 1) * whole := by gcongr
      _ = part * (2 ^ 53 + 1) := by field_simp
  linarith

/-- A part of a range is no more than the range. -/
theorem scaled_le {ratio : ℚ} (hwhole : InRange whole) (hratio : 0 ≤ ratio)
    (hone : ratio ≤ 1) : scaled fl whole ratio ≤ whole := by
  have hwhole' : (0 : ℚ) ≤ whole := by exact_mod_cast hwhole.1
  rw [scaled, round_inRange fl hwhole,
    truncate_eq_floor (fl.round_nonneg (mul_nonneg hwhole' hratio))]
  refine floor_round_le fl hwhole ?_
  have := mul_le_of_le_one_right hwhole' hone
  linarith

theorem quotient_le_one (hpart : InRange part) (hwhole : InRange whole)
    (hle : part ≤ whole) : quotient fl part whole ≤ 1 := by
  have hwhole' : (0 : ℚ) ≤ whole := by exact_mod_cast hwhole.1
  rw [quotient_inRange fl hpart hwhole, ← fl.round_one]
  exact fl.monotone (div_le_one_of_le₀ (by exact_mod_cast hle) hwhole')

/-- A transfer of which the missing part takes longer by a nanosecond. -/
theorem le_scaled {time missing io : ℤ} (htime : InRange time)
    (hmissing : InRange missing) (hwhole : InRange whole) (hpos : 0 < whole)
    (hio : InRange io) (hlasts : (time + 1) * whole ≤ io * missing) :
    time ≤ scaled fl io (quotient fl missing whole) := by
  have hpos' : (0 : ℚ) < whole := by exact_mod_cast hpos
  have hio' : (0 : ℚ) ≤ io := by exact_mod_cast hio.1
  have hmissing' : (0 : ℚ) ≤ missing := by exact_mod_cast hmissing.1
  have htime' : (time : ℚ) + 1 ≤ 2 ^ 52 := by exact_mod_cast htime.2
  have hlasts' : ((time : ℚ) + 1) ≤ io * (missing / whole) := by
    rw [← mul_div_assoc, le_div_iff₀ hpos']
    exact_mod_cast hlasts
  have hbound := (fl.round_bounds (div_nonneg hmissing' hpos'.le)).2
  have hratio := quotient_nonneg fl hmissing.1 hwhole.1
  rw [scaled, round_inRange fl hio,
    truncate_eq_floor (fl.round_nonneg (mul_nonneg hio' hratio))]
  refine le_floor_round fl htime ?_
  rw [quotient_inRange fl hmissing hwhole]
  have hscaled : ((time : ℚ) + 1) * (2 ^ 53 - 1) ≤
      io * fl.round (missing / whole) * (2 : ℚ) ^ 53 := by
    calc ((time : ℚ) + 1) * (2 ^ 53 - 1)
        ≤ (io : ℚ) * (missing / whole) * (2 ^ 53 - 1) := by gcongr
      _ = io * ((missing : ℚ) / whole * (2 ^ 53 - 1)) := by ring
      _ ≤ io * (fl.round (missing / whole) * 2 ^ 53) := by gcongr
      _ = io * fl.round (missing / whole) * (2 : ℚ) ^ 53 := by ring
  linarith

/-- The whole of a transfer is exact. -/
theorem scaled_quotient_self {io : ℤ} (hio : InRange io)
    (hwhole : InRange whole) (hpos : 0 < whole) :
    scaled fl io (quotient fl whole whole) = io := by
  have hne : (whole : ℚ) ≠ 0 := by exact_mod_cast hpos.ne'
  have hio' : (0 : ℚ) ≤ io := by exact_mod_cast hio.1
  rw [quotient_inRange fl hwhole hwhole, div_self hne, fl.round_one, scaled,
    mul_one, fl.round_round, round_inRange fl hio, truncate_eq_floor hio',
    Int.floor_intCast]

theorem scaled_one (hwhole : InRange whole) : scaled fl whole 1 = whole := by
  have hwhole' : (0 : ℚ) ≤ whole := by exact_mod_cast hwhole.1
  rw [scaled, mul_one, fl.round_round, round_inRange fl hwhole,
    truncate_eq_floor hwhole', Int.floor_intCast]

end Doubles

/-! ## Budgets -/

section Budgets

variable (fl : FloatRounding 53) {edgeProcTime nsecsTarget : ℤ} {ratio : ℚ}

theorem pipelineRatio_nonneg (htime : InRange edgeProcTime)
    (htarget : InRange nsecsTarget) :
    0 ≤ pipelineRatio fl edgeProcTime nsecsTarget := by
  rw [pipelineRatio]
  split
  · exact le_rfl
  · exact quotient_nonneg fl htime.1 htarget.1

theorem prefetchRatio_le (htime : InRange edgeProcTime)
    (htarget : InRange nsecsTarget) (hratio : 0 ≤ ratio) :
    prefetchRatio fl edgeProcTime nsecsTarget ratio ≤
      pipelineRatio fl edgeProcTime nsecsTarget := by
  have hnonneg := pipelineRatio_nonneg fl htime htarget
  have hrounded : fl.round (pipelineRatio fl edgeProcTime nsecsTarget) =
      pipelineRatio fl edgeProcTime nsecsTarget := by
    rw [pipelineRatio]
    split
    · exact fl.round_zero
    · exact fl.round_round _
  refine max_le hnonneg ?_
  calc fl.round (pipelineRatio fl edgeProcTime nsecsTarget - ratio)
      ≤ fl.round (pipelineRatio fl edgeProcTime nsecsTarget) :=
        fl.monotone (sub_le_self _ hratio)
    _ = pipelineRatio fl edgeProcTime nsecsTarget := hrounded

theorem prefetchRatio_mul_le (htime : InRange edgeProcTime)
    (htarget : InRange nsecsTarget) (hratio : 0 ≤ ratio) :
    prefetchRatio fl edgeProcTime nsecsTarget ratio * nsecsTarget ≤
      edgeProcTime + 1 / 2 := by
  have htime' : (0 : ℚ) ≤ edgeProcTime := by exact_mod_cast htime.1
  have htarget' : (0 : ℚ) ≤ nsecsTarget := by exact_mod_cast htarget.1
  have hle := mul_le_mul_of_nonneg_right
    (prefetchRatio_le fl htime htarget hratio) htarget'
  refine hle.trans ?_
  rcases htarget.1.eq_or_lt with hzero | hpos
  · rw [← hzero, Int.cast_zero, mul_zero]
    linarith
  · rw [pipelineRatio, if_neg hpos.ne']
    exact quotient_mul_le fl htime htarget hpos

/-- No section gets more time than the edges took. -/
theorem futureBudget_le (htime : InRange edgeProcTime)
    (htarget : InRange nsecsTarget) (hratio : 0 ≤ ratio) :
    futureBudget fl (prefetchRatio fl edgeProcTime nsecsTarget ratio)
      nsecsTarget ≤ edgeProcTime := by
  have htarget' : (0 : ℚ) ≤ nsecsTarget := by exact_mod_cast htarget.1
  have hnonneg : 0 ≤ prefetchRatio fl edgeProcTime nsecsTarget ratio :=
    le_max_left _ _
  rw [futureBudget, scaled, round_inRange fl htarget,
    truncate_eq_floor (fl.round_nonneg (mul_nonneg htarget' hnonneg)), mul_comm]
  exact floor_round_le fl htime (prefetchRatio_mul_le fl htime htarget hratio)

theorem normalBudget_le (htime : InRange edgeProcTime)
    (htarget : InRange nsecsTarget) (hratio : 0 ≤ ratio) :
    normalBudget (prefetchRatio fl edgeProcTime nsecsTarget ratio)
      nsecsTarget ≤ edgeProcTime := by
  have htarget' : (0 : ℚ) ≤ nsecsTarget := by exact_mod_cast htarget.1
  have hnonneg : 0 ≤ prefetchRatio fl edgeProcTime nsecsTarget ratio :=
    le_max_left _ _
  have hmul := prefetchRatio_mul_le fl htime htarget hratio
  rw [normalBudget, truncate_eq_floor hnonneg]
  generalize prefetchRatio fl edgeProcTime nsecsTarget ratio = ratio'
    at hnonneg hmul ⊢
  have hfloor : ((⌊ratio'⌋ * nsecsTarget : ℤ) : ℚ) ≤ edgeProcTime + 1 / 2 := by
    push_cast
    exact (mul_le_mul_of_nonneg_right (Int.floor_le ratio') htarget').trans hmul
  have hle : ⌊ratio'⌋ * nsecsTarget ≤ edgeProcTime := by
    rw [← Int.lt_add_one_iff]
    have hlt : ((⌊ratio'⌋ * nsecsTarget : ℤ) : ℚ) < (edgeProcTime + 1 : ℤ) := by
      push_cast at hfloor ⊢
      linarith
    exact_mod_cast hlt
  have hpos : 0 ≤ ⌊ratio'⌋ * nsecsTarget :=
    mul_nonneg (Int.floor_nonneg.mpr hnonneg) htarget.1
  have hlt := htime.2
  rwa [longLong_eq (by unfold longMax; omega) (by unfold longMax; omega)]

/-- The edges take no longer than the transfer of the missing part. -/
theorem pipelineRatio_le_quotient {missing len : ℤ}
    (htime : InRange edgeProcTime) (htarget : InRange nsecsTarget)
    (hmissing : InRange missing) (hlen : InRange len) (hpos : 0 < len)
    (hnone : edgeProcTime * len ≤ nsecsTarget * missing) :
    pipelineRatio fl edgeProcTime nsecsTarget ≤ quotient fl missing len := by
  rw [pipelineRatio]
  split
  · exact quotient_nonneg fl hmissing.1 hlen.1
  next htargetNe =>
    have htargetPos : (0 : ℚ) < nsecsTarget := by
      exact_mod_cast lt_of_le_of_ne htarget.1 (Ne.symm htargetNe)
    have hlenPos : (0 : ℚ) < len := by exact_mod_cast hpos
    rw [quotient_inRange fl htime htarget, quotient_inRange fl hmissing hlen]
    refine fl.monotone ((div_le_div_iff₀ htargetPos hlenPos).mpr ?_)
    rw [mul_comm (missing : ℚ)]
    exact_mod_cast hnone

theorem pipelineRatio_le_one (htime : InRange edgeProcTime)
    (htarget : InRange nsecsTarget) (hle : edgeProcTime ≤ nsecsTarget) :
    pipelineRatio fl edgeProcTime nsecsTarget ≤ 1 := by
  rw [pipelineRatio]
  split
  · exact zero_le_one
  · exact quotient_le_one fl htime htarget hle

theorem prefetchRatio_eq_zero
    (hle : pipelineRatio fl edgeProcTime nsecsTarget ≤ ratio) :
    prefetchRatio fl edgeProcTime nsecsTarget ratio = 0 := by
  refine max_eq_left ?_
  rw [← fl.round_zero]
  exact fl.monotone (sub_nonpos.mpr hle)

@[simp]
theorem futureBudget_zero : futureBudget fl 0 nsecsTarget = 0 := by
  rw [futureBudget, scaled, mul_zero, fl.round_zero]
  rfl

@[simp]
theorem normalBudget_zero : normalBudget 0 nsecsTarget = 0 := by
  have htruncate : truncate 0 = 0 := rfl
  rw [normalBudget, htruncate, zero_mul]
  rfl

end Budgets

end NvmeVirt.Csd
