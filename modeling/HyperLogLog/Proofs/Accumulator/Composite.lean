import HyperLogLog.Proofs.Estimate.CompositeTable
import HyperLogLog.Proofs.Estimate.Harmonic
import HyperLogLog.Proofs.Estimate.Lagrange

/-!
# The composite estimate over the reals

Neither of its parts is negative, so the composite estimate is not (`compositeEstimate_nonneg`).

The raw estimate is the inverse of the mean weight of the registers, in the units of the table.  So
a mean weight between those of two nodes is enough to read the table (`abs_interpolate_sub_le`), and
where linear counting is out of the question that is the composite estimate.

No mean weight is above one, which is that of registers that are all zero and of the first node.  So
the table begins with the least raw estimate there is (`firstX_le_rawEstimate`), nothing is left of
it, and at its first node the estimate is zero (`compositeEstimate_eq_zero`).
-/

namespace HyperLogLog.Accumulator

variable (a : Accumulator ℝ)

theorem one_le_k : 1 ≤ a.k := by
  rw [k_eq]
  exact one_le_pow₀ one_le_two

/-! ### The sign -/

theorem linearEstimate_nonneg : 0 ≤ a.linearEstimate := by
  have hk := a.one_le_k
  rw [linearEstimate]
  split
  · have hratio : 1 ≤ a.k / 0.5 := by
      rw [le_div_iff₀ (by norm_num)]
      linarith
    exact mul_nonneg (zero_le_one.trans hk) (Real.log_nonneg hratio)
  · exact linearCount_nonneg _ _

/-- The choice between the adjusted estimate and linear counting. -/
theorem blend_eq (adjusted : ℝ) :
    a.blend adjusted =
      if 3 * a.k < adjusted then adjusted
      else if crossover a.precision.lg * a.k < (adjusted + a.linearEstimate) / 2 then adjusted
      else a.linearEstimate := by
  rw [blend, Nat.cast_mul, Nat.cast_ofNat]
  rfl

theorem blend_nonneg {adjusted : ℝ} (h : 0 ≤ adjusted) : 0 ≤ a.blend adjusted := by
  rw [blend_eq]
  split_ifs
  · exact h
  · exact h
  · exact a.linearEstimate_nonneg

/-- **The composite estimate** is not negative. -/
theorem compositeEstimate_nonneg : 0 ≤ a.compositeEstimate := by
  have hlast : 0 < (compositeTable a.precision : Table ℝ).lastX := compositeTable_x_pos _ _
  have hstride := compositeTable_stride_nonneg a.precision
  rw [compositeEstimate, compositeFrom]
  split_ifs with h h'
  · exact Nat.cast_nonneg 0
  · exact mul_nonneg (hlast.trans h').le
      (div_nonneg (mul_nonneg hstride (Nat.cast_nonneg _)) hlast.le)
  · exact a.blend_nonneg
      ((compositeTable_evenlySpaced _).interpolate_nonneg hstride (not_lt.mp h))

/-! ### Reading the table -/

/-- The mean weight of the registers. -/
noncomputable def registerWeight : ℝ := (a.lowSum + a.highSum) / a.k

/-- The mean weight at a node of the table. -/
noncomputable def nodeWeight (i : Nat) : ℝ := meanWeight (i * tableStep a.precision)

theorem rawEstimate_eq :
    a.rawEstimate =
      correctionFactor a.precision.lg * 2 ^ a.precision.lg * (1 / a.registerWeight) := by
  rw [registerWeight, one_div_div, ← k_eq, mul_div_assoc', rawEstimate]

/-- The abscissa of a node is the raw estimate of registers with its mean weight. -/
theorem table_x_eq {i : Nat} (lt : i < (compositeTable a.precision : Table ℝ).size) :
    (compositeTable a.precision : Table ℝ).x ⟨i, lt⟩ =
      correctionFactor a.precision.lg * 2 ^ a.precision.lg * (1 / a.nodeWeight i) :=
  tableNode_eq _ _

theorem nodeWeight_pos (i : Nat) : 0 < a.nodeWeight i :=
  decays_real.meanWeight_pos (mul_nonneg (Nat.cast_nonneg _) (tableStep_pos _).le)

/-- How far from a node to the next the registers are, on the line through the two. -/
noncomputable def nodeFraction (i : Nat) : ℝ :=
  (1 / a.registerWeight - 1 / a.nodeWeight i) / (1 / a.nodeWeight (i + 1) - 1 / a.nodeWeight i)

theorem unit_pos : (0 : ℝ) < correctionFactor a.precision.lg * 2 ^ a.precision.lg :=
  mul_pos (correctionFactor_pos rfl _) (by positivity)

variable {a} {i : Nat}

theorem table_x_le_rawEstimate (lt : i < (compositeTable a.precision : Table ℝ).size)
    (hpos : 0 < a.registerWeight) (h : a.registerWeight ≤ a.nodeWeight i) :
    (compositeTable a.precision).x ⟨i, lt⟩ ≤ a.rawEstimate := by
  rw [table_x_eq, rawEstimate_eq]
  exact mul_le_mul_of_nonneg_left (one_div_le_one_div_of_le hpos h) a.unit_pos.le

theorem rawEstimate_lt_table_x (lt : i < (compositeTable a.precision : Table ℝ).size)
    (h : a.nodeWeight i < a.registerWeight) :
    a.rawEstimate < (compositeTable a.precision).x ⟨i, lt⟩ := by
  rw [table_x_eq, rawEstimate_eq]
  exact mul_lt_mul_of_pos_left (one_div_lt_one_div_of_lt (a.nodeWeight_pos i) h) a.unit_pos

/-- **Between two nodes** the table is read near the line through them. -/
theorem abs_interpolate_sub_le (pos : 0 < i) (lt : i + 1 + 1 < tableSize a.precision)
    (hle : a.registerWeight ≤ a.nodeWeight i) (hlt : a.nodeWeight (i + 1) < a.registerWeight) :
    |(compositeTable a.precision).interpolate a.rawEstimate -
        tableStride a.precision * (i + a.nodeFraction i)| ≤ tableStride a.precision / 15 := by
  have hpos := (a.nodeWeight_pos _).trans hlt
  have hstride : (compositeTable a.precision : Table ℝ).stride = tableStride a.precision := rfl
  have hnear := (compositeTable_evenlySpaced a.precision).abs_interpolate_sub_le
    (compositeTable_stride_nonneg _) pos lt (table_x_le_rawEstimate _ hpos hle)
    (rawEstimate_lt_table_x _ hlt)
  rwa [hstride, Table.gap, table_x_eq, table_x_eq, rawEstimate_eq, ← mul_sub, ← mul_sub,
    mul_div_mul_left _ _ a.unit_pos.ne', ← rawEstimate_eq] at hnear

/-- **Where linear counting has no say**, the composite estimate is what the table says. -/
theorem compositeEstimate_eq_interpolate (lt : i + 1 < tableSize a.precision)
    (hle : a.registerWeight ≤ a.nodeWeight i) (hlt : a.nodeWeight (i + 1) < a.registerWeight)
    (hlinear : crossover a.precision.lg * a.k <
      ((compositeTable a.precision).interpolate a.rawEstimate + a.linearEstimate) / 2) :
    a.compositeEstimate = (compositeTable a.precision).interpolate a.rawEstimate := by
  have heven := compositeTable_evenlySpaced a.precision
  have hpos := (a.nodeWeight_pos _).trans hlt
  have hfirst : (compositeTable a.precision).firstX ≤ a.rawEstimate :=
    (heven.x_le_x (Nat.zero_le i) (Nat.lt_of_succ_lt lt)).trans
      (table_x_le_rawEstimate (Nat.lt_of_succ_lt lt) hpos hle)
  have hlast : a.rawEstimate < (compositeTable a.precision).lastX :=
    (rawEstimate_lt_table_x lt hlt).trans_le
      (heven.x_le_x (Nat.le_sub_one_of_lt lt) (compositeTable a.precision : Table ℝ).last.isLt)
  rw [compositeEstimate, compositeFrom, if_neg hfirst.not_gt, if_neg hlast.not_gt, blend_eq,
    if_pos hlinear, ite_self]

/-! ### The first node -/

section

variable (a)

theorem nodeWeight_zero : a.nodeWeight 0 = 1 := by
  rw [nodeWeight, Nat.cast_zero, zero_mul, decays_real.meanWeight_zero]

theorem firstX_eq :
    (compositeTable a.precision : Table ℝ).firstX =
      correctionFactor a.precision.lg * 2 ^ a.precision.lg := by
  have hsize : 0 < tableSize a.precision :=
    Nat.lt_of_lt_of_le (by decide) (four_le_tableSize a.precision)
  refine (a.table_x_eq hsize).trans ?_
  rw [nodeWeight_zero, one_div_one, mul_one]

end

/-- **The first node** is the least raw estimate there is. -/
theorem firstX_le_rawEstimate (hpos : 0 < a.registerWeight) (h : a.registerWeight ≤ 1) :
    (compositeTable a.precision).firstX ≤ a.rawEstimate :=
  table_x_le_rawEstimate _ hpos (a.nodeWeight_zero.symm ▸ h)

theorem rawEstimate_eq_firstX_iff :
    a.rawEstimate = (compositeTable a.precision).firstX ↔ a.registerWeight = 1 := by
  rw [firstX_eq, rawEstimate_eq, mul_eq_left₀ a.unit_pos.ne', one_div, inv_eq_one]

/-- Lighter registers have a larger raw estimate. -/
theorem rawEstimate_lt_rawEstimate {b : Accumulator ℝ} (hprec : a.precision = b.precision)
    (hpos : 0 < b.registerWeight) (h : b.registerWeight < a.registerWeight) :
    a.rawEstimate < b.rawEstimate := by
  rw [rawEstimate_eq, rawEstimate_eq, hprec]
  exact mul_lt_mul_of_pos_left (one_div_lt_one_div_of_lt hpos h) b.unit_pos

/-- Nothing is left of the table then, and what is read is in it: any function that agrees with the
interpolation there would do. -/
theorem compositeEstimate_eq_of_firstX_le
    (h : (compositeTable a.precision).firstX ≤ a.rawEstimate) {g : ℝ → ℝ}
    (hg : ∀ x, (compositeTable a.precision).firstX ≤ x → x ≤ (compositeTable a.precision).lastX →
      g x = (compositeTable a.precision).interpolate x) :
    a.compositeEstimate =
      if (compositeTable a.precision).lastX < a.rawEstimate then
        a.rawEstimate *
          ((compositeTable a.precision).y (compositeTable a.precision : Table ℝ).last /
            (compositeTable a.precision).lastX)
      else a.blend (g a.rawEstimate) := by
  rw [compositeEstimate, compositeFrom, if_neg h.not_gt]
  split_ifs with hlast
  · rfl
  · rw [hg _ h (not_lt.mp hlast)]

theorem linearEstimate_eq_zero (h : a.unhit = a.precision.slots) : a.linearEstimate = 0 := by
  rw [linearEstimate, if_neg (h ▸ a.precision.slots_pos.ne'), h, Nat.sub_self, linearCount_zero]

/-- **At the first node** the estimate is zero, if no register has been hit. -/
theorem compositeEstimate_eq_zero (hraw : a.rawEstimate = (compositeTable a.precision).firstX)
    (hunhit : a.unhit = a.precision.slots) : a.compositeEstimate = 0 := by
  have hstrict := (compositeTable_evenlySpaced a.precision).strictMono
  have hlast : (compositeTable a.precision : Table ℝ).firstX <
      (compositeTable a.precision).lastX := hstrict Table.last_pos
  have hnode : (compositeTable a.precision : Table ℝ).interpolate a.rawEstimate = 0 := by
    rw [hraw, Table.firstX, Table.interpolate_x hstrict, Nat.cast_zero, zero_mul]
  rw [compositeEstimate_eq_of_firstX_le hraw.ge fun _ _ _ => rfl, hraw, if_neg hlast.not_gt, ← hraw,
    hnode, blend_eq, linearEstimate_eq_zero hunhit, ite_self, ite_self]

end HyperLogLog.Accumulator
