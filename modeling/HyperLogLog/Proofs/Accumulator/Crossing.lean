import HyperLogLog.Proofs.Accumulator.Composite

/-!
# An estimate below the number of registers hit

If nine registers in sixteen have been hit, each by a value of one (`HitOnce`), the mean weight of
the registers lies between those of two neighbouring nodes, the same two at any number of registers
from `2 ^ 7` on (`HitOnce.weight_mem`).  What the table says there is less than the number of
registers hit, by more than a twentieth of it (`HitOnce.compositeEstimate_le`).
-/

namespace HyperLogLog

/-! ### Two mean weights -/

theorem meanWeight_left :
    23 / 32 ≤ meanWeight (65 / 128 : ℝ) ∧ meanWeight (65 / 128 : ℝ) ≤ 0.7249 := by
  have h := abs_meanWeight_sub_quintic_le (by norm_num : (0 : ℝ) ≤ 65 / 128) (by norm_num)
  rw [abs_le] at h
  constructor <;> linarith [h.1, h.2]

theorem meanWeight_right : meanWeight (70 / 128 : ℝ) ≤ 0.7082 := by
  have h := abs_meanWeight_sub_quintic_le (by norm_num : (0 : ℝ) ≤ 70 / 128) (by norm_num)
  rw [abs_le] at h
  linarith [h.2]

namespace Accumulator

variable {a : Accumulator ℝ}

/-! ### From `2 ^ 7` registers on -/

theorem nodeWeight_eq (h : 7 ≤ a.precision.lg) (i : Nat) :
    a.nodeWeight i = meanWeight ((i : ℝ) * (5 / 128)) := by
  rw [nodeWeight, tableStep_eq_of_seven_le h]

theorem crossover_eq {lgK : Nat} (h : 7 ≤ lgK) : (crossover lgK : ℝ) = 0.64 := by
  obtain ⟨n, rfl⟩ := Nat.exists_eq_add_of_le' h
  rfl

/-- The margin of one standard deviation out of order, from `2 ^ 8` registers on. -/
theorem margin_one_le (ho : a.outOfOrder = true) (hlg : 8 ≤ a.precision.lg) :
    a.margin .one ≤ 0.0654 := by
  have hfactor : a.errorFactor = 1.0464 := by
    obtain ⟨n, hn⟩ := Nat.exists_eq_add_of_le' hlg
    rw [errorFactor, if_pos ho, hn]
    rfl
  have hroot : 16 ≤ √a.k := by
    refine Real.le_sqrt_of_sq_le ?_
    rw [k_eq]
    exact (pow_le_pow_right₀ one_le_two hlg).trans' (by norm_num)
  rw [margin_eq, hfactor, div_le_iff₀ (by linarith)]
  norm_num [StandardDeviations.count]
  linarith

/-! ### Nine registers in sixteen -/

/-- Nine registers in sixteen have been hit, each by a value of one. -/
structure HitOnce (a : Accumulator ℝ) : Prop where
  seven_le : 7 ≤ a.precision.lg
  weight_eq : a.registerWeight = 23 / 32
  unhit_eq : 16 * a.unhit = 7 * a.precision.slots

namespace HitOnce

variable (h : a.HitOnce)

include h

/-- The mean weight of the registers is between those of two neighbouring nodes. -/
theorem weight_mem :
    a.registerWeight ≤ a.nodeWeight 13 ∧ a.nodeWeight 13 ≤ 0.7249 ∧ a.nodeWeight 14 ≤ 0.7082 ∧
      a.nodeWeight 14 < a.registerWeight := by
  have hleft := meanWeight_left
  have hright := meanWeight_right
  have h13 : ((13 : Nat) : ℝ) * (5 / 128) = 65 / 128 := by norm_num
  have h14 : ((14 : Nat) : ℝ) * (5 / 128) = 70 / 128 := by norm_num
  rw [nodeWeight_eq h.seven_le, nodeWeight_eq h.seven_le, h.weight_eq, h13, h14]
  exact ⟨hleft.1, hleft.2, hright, by linarith⟩

/-- Their raw estimate is less than two fifths of the way from the left node to the right one. -/
theorem nodeFraction_mem : 0 ≤ a.nodeFraction 13 ∧ a.nodeFraction 13 ≤ 0.38 := by
  obtain ⟨hle, hleft, hright, hlt⟩ := h.weight_mem
  have h13 := a.nodeWeight_pos 13
  have h14 := a.nodeWeight_pos 14
  have hx13 : 1 / 0.7249 ≤ 1 / a.nodeWeight 13 := one_div_le_one_div_of_le h13 hleft
  have hx14 : 1 / 0.7082 ≤ 1 / a.nodeWeight 14 := one_div_le_one_div_of_le h14 hright
  have hlow : 1 / a.nodeWeight 13 ≤ 1 / a.registerWeight :=
    one_div_le_one_div_of_le (h14.trans hlt) hle
  have hhigh : 1 / a.registerWeight < 1 / a.nodeWeight 14 := one_div_lt_one_div_of_lt h14 hlt
  have hgap : 0 < 1 / a.nodeWeight 14 - 1 / a.nodeWeight 13 := by linarith
  refine ⟨div_nonneg (by linarith) hgap.le, (div_le_iff₀ hgap).mpr ?_⟩
  rw [h.weight_eq] at hlow hhigh ⊢
  norm_num at hx13 hx14 ⊢
  linarith

/-- What the table says. -/
theorem interpolate_mem :
    0.505 * a.k ≤ (compositeTable a.precision).interpolate a.rawEstimate ∧
      (compositeTable a.precision).interpolate a.rawEstimate ≤ 0.5253 * a.k := by
  obtain ⟨hle, -, -, hlt⟩ := h.weight_mem
  obtain ⟨hfraction, hfraction'⟩ := h.nodeFraction_mem
  have hnear := abs_interpolate_sub_le (i := 13) (by decide)
    (by rw [tableSize_eq h.seven_le]; decide) hle hlt
  have hk := a.one_le_k
  have hslots : (a.precision.slots : ℝ) = a.k := rfl
  rw [tableStride_eq_of_seven_le h.seven_le, hslots, abs_le, Nat.cast_ofNat] at hnear
  constructor <;> nlinarith [hnear.1, hnear.2]

/-- What linear counting says, at least. -/
theorem le_linearEstimate : 0.8 * a.k ≤ a.linearEstimate := by
  have hslots : 128 ≤ a.precision.slots := by
    rw [a.precision.slots_eq]
    exact Nat.pow_le_pow_right two_pos h.seven_le
  have hunhit := h.unhit_eq
  have hhit : a.precision.slots - (a.precision.slots - a.unhit) = a.unhit := by omega
  have hratio : (a.precision.slots : ℝ) / a.unhit = 2 * (8 / 7) := by
    have hcast : (16 * a.unhit : ℝ) = 7 * a.precision.slots := by exact_mod_cast hunhit
    rw [div_eq_iff (Nat.cast_ne_zero.mpr (by omega))]
    linarith
  have hlog : 0.125 ≤ Real.log (8 / 7) :=
    (Real.one_sub_inv_le_log_of_pos (by norm_num)).trans' (by norm_num)
  have hinv : (1 : ℝ) / a.unhit ≤ 1 / 56 :=
    one_div_le_one_div_of_le (by norm_num) (by exact_mod_cast (by omega : 56 ≤ a.unhit))
  have hharmonic := log_div_sub_le (by rw [harmonicSplit]; omega)
    (by omega : a.unhit ≤ a.precision.slots)
  rw [hratio, Real.log_mul two_ne_zero (by norm_num)] at hharmonic
  rw [linearEstimate, if_neg (by omega), linearCount, hhit, mul_comm]
  refine mul_le_mul_of_nonneg_left ?_ (Nat.cast_nonneg _)
  linarith [Real.log_two_gt_d9]

/-- The composite estimate, at most. -/
theorem compositeEstimate_le : a.compositeEstimate ≤ 0.5253 * a.k := by
  obtain ⟨hle, -, -, hlt⟩ := h.weight_mem
  obtain ⟨hlow, hhigh⟩ := h.interpolate_mem
  have hlinear := h.le_linearEstimate
  have hk := a.one_le_k
  rwa [compositeEstimate_eq_interpolate (i := 13) (by rw [tableSize_eq h.seven_le]; decide) hle hlt]
  rw [crossover_eq h.seven_le]
  linarith

/-! ### The bounds -/

theorem nonZeros_eq : (a.nonZeros : ℝ) = 0.5625 * a.k := by
  have hunhit := h.unhit_eq
  have hnat : 16 * a.nonZeros = 9 * a.precision.slots := by
    rw [Accumulator.nonZeros_eq]
    omega
  have hcast : (16 * a.nonZeros : ℝ) = 9 * a.precision.slots := by exact_mod_cast hnat
  rw [k]
  linarith

/-- **The estimate is below every lower bound.** -/
theorem estimate_lt_lowerBound (ho : a.outOfOrder = true) (n : StandardDeviations) :
    a.estimate < a.lowerBound n := by
  have hestimate : a.estimate = a.compositeEstimate := if_pos ho
  have hle := h.compositeEstimate_le
  have hfloor := a.nonZeros_le_lowerBound n
  have hk := a.one_le_k
  rw [h.nonZeros_eq] at hfloor
  linarith

/-- **The bounds cross**, from `2 ^ 8` registers on. -/
theorem upperBound_lt_lowerBound (ho : a.outOfOrder = true) (hlg : 8 ≤ a.precision.lg) :
    a.upperBound .one < a.lowerBound .one := by
  have hestimate : a.estimate = a.compositeEstimate := if_pos ho
  have hle := h.compositeEstimate_le
  have hmargin := margin_one_le ho hlg
  have hk := a.one_le_k
  refine lt_of_lt_of_le ?_ (a.nonZeros_le_lowerBound .one)
  rw [upperBound_eq, div_lt_iff₀ (by linarith), h.nonZeros_eq, hestimate]
  nlinarith

end HitOnce

end Accumulator

end HyperLogLog
