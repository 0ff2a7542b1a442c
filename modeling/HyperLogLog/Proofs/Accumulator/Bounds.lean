import HyperLogLog.Proofs.Accumulator.Baseline
import HyperLogLog.Proofs.Accumulator.Exact
import Mathlib.Analysis.SpecialFunctions.Log.Basic
import Mathlib.Analysis.SpecialFunctions.Sqrt

/-!
# Bounds over the reals

The margin of a bound is positive and below one at every precision, in either order and at every
number of standard deviations (`margin_pos`, `margin_lt_one`), so no bound divides by zero.  How the
bounds lie follows from the estimate alone:

* `lowerBound_le_estimate_iff`: the lower bound is below the estimate unless the estimate is below
  its floor, the number of registers that are not zero.
* `estimate_le_upperBound_iff`: the upper bound is above an estimate that is not negative.
* `lowerBound_le_upperBound_iff`: then the two are in order unless the upper one is below the floor.
* `lowerBound_anti`, `upperBound_mono`: more standard deviations, wider bounds.
-/

namespace HyperLogLog

/-- Real numbers, with the functions of analysis. -/
noncomputable instance : Elementary ℝ where
  toArith := exactArith
  sqrt := Real.sqrt
  exp := Real.exp
  log := Real.log

theorem StandardDeviations.count_mem (n : StandardDeviations) : 1 ≤ n.count ∧ n.count ≤ 3 := by
  cases n <;> decide

namespace Accumulator

variable (a : Accumulator ℝ) {m n : StandardDeviations}

/-! ### Margins -/

theorem k_eq : a.k = 2 ^ a.precision.lg := by
  rw [k, a.precision.slots_eq, Nat.cast_pow, Nat.cast_two]

theorem four_le_sqrt : 4 ≤ √a.k := by
  have hslots : (2 : ℝ) ^ 4 ≤ 2 ^ a.precision.lg :=
    pow_le_pow_right₀ one_le_two a.precision.minLgK_le
  refine Real.le_sqrt_of_sq_le ?_
  rw [k_eq]
  exact hslots.trans' (by norm_num)

theorem hipErrorFactor_mem (lgK : Nat) :
    0 < (hipErrorFactor lgK : ℝ) ∧ (hipErrorFactor lgK : ℝ) ≤ 1.2 := by
  unfold hipErrorFactor
  split <;> norm_num

theorem compositeErrorFactor_mem (lgK : Nat) :
    0 < (compositeErrorFactor lgK : ℝ) ∧ (compositeErrorFactor lgK : ℝ) ≤ 1.2 := by
  unfold compositeErrorFactor
  split <;> norm_num

theorem errorFactor_mem : 0 < a.errorFactor ∧ a.errorFactor ≤ 1.2 := by
  rw [errorFactor]
  split
  · exact compositeErrorFactor_mem _
  · exact hipErrorFactor_mem _

theorem margin_eq (n : StandardDeviations) : a.margin n = n.count * a.errorFactor / √a.k := rfl

theorem margin_pos (n : StandardDeviations) : 0 < a.margin n := by
  have hcount : (0 : ℝ) < n.count := Nat.cast_pos.mpr n.count_mem.1
  have hroot : 0 < √a.k := zero_lt_four.trans_le a.four_le_sqrt
  rw [margin_eq]
  exact div_pos (mul_pos hcount a.errorFactor_mem.1) hroot

/-- **No divisor is zero**: three times the largest factor is less than the root of sixteen. -/
theorem margin_lt_one (n : StandardDeviations) : a.margin n < 1 := by
  obtain ⟨hpos, hle⟩ := a.errorFactor_mem
  have hcount : (n.count : ℝ) ≤ 3 := by exact_mod_cast n.count_mem.2
  have hroot := a.four_le_sqrt
  rw [margin_eq, div_lt_one (by linarith)]
  calc (n.count : ℝ) * a.errorFactor ≤ 3 * 1.2 := by gcongr
    _ < 4 := by norm_num
    _ ≤ √a.k := hroot

theorem margin_mono (h : n.count ≤ m.count) : a.margin n ≤ a.margin m := by
  have hpos := a.errorFactor_mem.1.le
  rw [margin_eq, margin_eq]
  gcongr

/-! ### Bounds -/

theorem lowerBound_eq (n : StandardDeviations) :
    a.lowerBound n = max (a.estimate / (1 + a.margin n)) a.nonZeros := by
  have hone : ((1 : Nat) : ℝ) = 1 := Nat.cast_one
  rw [lowerBound, hone]
  exact (max_def' _ _).symm

theorem upperBound_eq (n : StandardDeviations) :
    a.upperBound n = a.estimate / (1 - a.margin n) := by
  have hone : ((1 : Nat) : ℝ) = 1 := Nat.cast_one
  rw [upperBound, hone]

/-- The floor. -/
theorem nonZeros_le_lowerBound (n : StandardDeviations) : (a.nonZeros : ℝ) ≤ a.lowerBound n := by
  rw [lowerBound_eq]
  exact le_max_right _ _

/-- **The lower bound and the estimate.** -/
theorem lowerBound_le_estimate_iff (n : StandardDeviations) :
    a.lowerBound n ≤ a.estimate ↔ (a.nonZeros : ℝ) ≤ a.estimate := by
  rw [lowerBound_eq, max_le_iff]
  refine and_iff_right_of_imp fun hfloor => ?_
  -- an estimate on the floor or above it is not negative
  have hestimate : 0 ≤ a.estimate := (Nat.cast_nonneg _).trans hfloor
  exact div_le_self hestimate (le_add_of_nonneg_right (a.margin_pos n).le)

/-- **The estimate and the upper bound.** -/
theorem estimate_le_upperBound_iff (n : StandardDeviations) :
    a.estimate ≤ a.upperBound n ↔ 0 ≤ a.estimate := by
  have hmargin := a.margin_pos n
  have hdivisor : 0 < 1 - a.margin n := sub_pos.mpr (a.margin_lt_one n)
  rw [upperBound_eq, le_div_iff₀ hdivisor, mul_one_sub, sub_le_self_iff,
    mul_nonneg_iff_of_pos_right hmargin]

/-- The bounds of an estimate that is not negative are in order unless the upper one is below the
floor. -/
theorem lowerBound_le_upperBound_iff (hestimate : 0 ≤ a.estimate) (n : StandardDeviations) :
    a.lowerBound n ≤ a.upperBound n ↔ (a.nonZeros : ℝ) ≤ a.upperBound n := by
  rw [lowerBound_eq, max_le_iff]
  refine and_iff_right ?_
  calc a.estimate / (1 + a.margin n) ≤ a.estimate :=
        div_le_self hestimate (le_add_of_nonneg_right (a.margin_pos n).le)
    _ ≤ a.upperBound n := (a.estimate_le_upperBound_iff n).mpr hestimate

/-- More standard deviations, a lower lower bound. -/
theorem lowerBound_anti (h : n.count ≤ m.count) (hestimate : 0 ≤ a.estimate) :
    a.lowerBound m ≤ a.lowerBound n := by
  have hmargin := a.margin_mono h
  have hpos := a.margin_pos n
  rw [lowerBound_eq, lowerBound_eq]
  gcongr

/-- More standard deviations, a higher upper bound. -/
theorem upperBound_mono (h : n.count ≤ m.count) (hestimate : 0 ≤ a.estimate) :
    a.upperBound n ≤ a.upperBound m := by
  have hmargin := a.margin_mono h
  have hdivisor : 0 < 1 - a.margin m := sub_pos.mpr (a.margin_lt_one m)
  rw [upperBound_eq, upperBound_eq]
  gcongr

end Accumulator

end HyperLogLog
