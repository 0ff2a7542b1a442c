import HyperLogLog.Proofs.Estimate.Interpolation
import HyperLogLog.Proofs.Estimate.TableOrder

/-!
# The table of the composite estimator, over the reals

The nodes are the inverses of mean weights, at steps of at most a sixteenth of an item a register
(`sixteen_mul_tableStride_le`).  In such a step a mean weight changes by little, and so does what it
falls by, so the gaps of the table are even (`compositeTable_evenlySpaced`): at every precision the
abscissae increase, and no ordinate that is read off is negative.
-/

namespace HyperLogLog

variable {p : Precision} {i : Nat} {lam d : ℝ}

/-- Neighbouring cardinalities of the table are at most a sixteenth of an item a register apart. -/
theorem sixteen_mul_tableStride_le (p : Precision) : 16 * tableStride p ≤ p.slots := by
  have hslots : p.slots = 2 ^ 4 * 2 ^ (p.lg - 4) := p.slots_eq_mul p.minLgK_le
  have hpos := Nat.two_pow_pos (p.lg - 4)
  rw [tableStride_eq]
  omega

/-- The distance of neighbouring nodes, in items a register. -/
noncomputable def tableStep (p : Precision) : ℝ := tableStride p / p.slots

theorem tableStep_eq (p : Precision) : tableStep p = tableStride p / 2 ^ p.lg :=
  congrArg (_ / ·) (Nat.cast_pow 2 p.lg)

theorem tableStep_pos (p : Precision) : 0 < tableStep p :=
  div_pos (Nat.cast_pos.mpr (tableStride_pos p)) (Nat.cast_pos.mpr p.slots_pos)

theorem tableStep_le (p : Precision) : tableStep p ≤ 1 / 16 := by
  have hle : (16 * tableStride p : ℝ) ≤ p.slots := by
    exact_mod_cast sixteen_mul_tableStride_le p
  rw [tableStep, div_le_div_iff₀ (Nat.cast_pos.mpr p.slots_pos) (by norm_num)]
  linarith

/-- **A node** is the inverse of a mean weight, in units that do not depend on the node. -/
theorem tableNode_eq (p : Precision) (i : Nat) :
    (tableNode p i : ℝ) =
      correctionFactor p.lg * 2 ^ p.lg * (1 / meanWeight (i * tableStep p)) := by
  rw [tableNode_eq_div rfl, ← tableStep_eq, mul_one_div]

/-! ### From `2 ^ 7` registers on -/

/-- Nothing is rounded up then. -/
theorem tableStride_mul (h : 7 ≤ p.lg) : 128 * tableStride p = 5 * p.slots := by
  have hslots : p.slots = 2 ^ 7 * 2 ^ (p.lg - 7) := p.slots_eq_mul h
  rw [tableStride_eq]
  omega

theorem tableStride_eq_of_seven_le (h : 7 ≤ p.lg) : (tableStride p : ℝ) = 5 / 128 * p.slots := by
  have hmul : (128 * tableStride p : ℝ) = 5 * p.slots := by exact_mod_cast tableStride_mul h
  linarith

/-- The steps are the same then. -/
theorem tableStep_eq_of_seven_le (h : 7 ≤ p.lg) : tableStep p = 5 / 128 := by
  have hslots : (p.slots : ℝ) ≠ 0 := Nat.cast_ne_zero.mpr p.slots_pos.ne'
  rw [tableStep, tableStride_eq_of_seven_le h, mul_div_cancel_right₀ _ hslots]

theorem tableSize_eq (h : 7 ≤ p.lg) : tableSize p = 129 := by
  rw [tableSize, ← tableStride_mul h, Nat.mul_div_cancel _ (tableStride_pos p)]

/-! ### Gaps -/

theorem EvenGaps.const_mul {a b c : ℝ} (h : EvenGaps a b) (hc : 0 < c) :
    EvenGaps (c * a) (c * b) where
  pos := mul_pos hc h.pos
  le := by
    rw [mul_left_comm]
    exact mul_le_mul_of_nonneg_left h.le hc.le
  ge := by
    rw [mul_left_comm]
    exact mul_le_mul_of_nonneg_left h.ge hc.le

/-- Where numbers fall by ever less, but not much less, and by an eighth in two steps at most, the
gaps of their inverses are even. -/
theorem evenGaps_inv {e₀ e₁ e₂ : ℝ} (h₂ : 0 < e₂) (h₂₁ : e₂ < e₁) (h₁₀ : e₁ < e₀)
    (hle : e₁ - e₂ ≤ e₀ - e₁) (hge : 15 / 16 * (e₀ - e₁) ≤ e₁ - e₂) (hnear : 7 / 8 * e₀ ≤ e₂) :
    EvenGaps (1 / e₁ - 1 / e₀) (1 / e₂ - 1 / e₁) := by
  have h₁ : 0 < e₁ := h₂.trans h₂₁
  have h₀ : 0 < e₀ := h₁.trans h₁₀
  have hgap : ∀ {x y : ℝ}, 0 < x → 0 < y → 1 / y - 1 / x = (x - y) / (y * x) := fun hx hy => by
    rw [div_sub_div _ _ hy.ne' hx.ne', one_mul, mul_one]
  rw [hgap h₀ h₁, hgap h₁ h₂]
  refine ⟨div_pos (sub_pos.mpr h₁₀) (mul_pos h₁ h₀), ?_, ?_⟩
  · rw [mul_div_assoc']
    refine div_le_div₀ (sub_nonneg.mpr h₂₁.le) hge (mul_pos h₂ h₁) ?_
    rw [mul_comm e₂]
    exact mul_le_mul_of_nonneg_left (h₂₁.trans h₁₀).le h₁.le
  · calc (e₁ - e₂) / (e₂ * e₁) ≤ (e₀ - e₁) / (7 / 8 * e₀ * e₁) := by gcongr
      _ = 8 / 7 * ((e₀ - e₁) / (e₁ * e₀)) := by field_simp

/-- **The inverse of the mean weight** grows evenly in small steps. -/
theorem evenGaps_inv_meanWeight (hlam : 0 ≤ lam) (hd : 0 < d) (hd' : d ≤ 1 / 16) :
    EvenGaps (1 / meanWeight (lam + d) - 1 / meanWeight lam)
      (1 / meanWeight (lam + d + d) - 1 / meanWeight (lam + d)) := by
  have hnext : 0 ≤ lam + d := add_nonneg hlam hd.le
  have hexp : 15 / 16 ≤ Real.exp (-d) := by linarith [Real.add_one_le_exp (-d)]
  have hexp2 : 7 / 8 ≤ Real.exp (-(d + d)) := by linarith [Real.add_one_le_exp (-(d + d))]
  refine evenGaps_inv (decays_real.meanWeight_pos (add_nonneg hnext hd.le))
    (decays_real.meanWeight_lt_meanWeight hnext (lt_add_of_pos_right _ hd))
    (decays_real.meanWeight_lt_meanWeight hlam (lt_add_of_pos_right _ hd))
    (drop_le hlam hd.le) ?_ ?_
  · exact (mul_le_mul_of_nonneg_right hexp (drop_pos hlam hd).le).trans (exp_mul_drop_le hlam hd.le)
  · rw [add_assoc]
    exact (mul_le_mul_of_nonneg_right hexp2 (decays_real.meanWeight_pos hlam).le).trans
      (exp_mul_meanWeight_le hlam (add_nonneg hd.le hd.le))

/-- **The gaps of the table** are even. -/
theorem compositeTable_evenlySpaced (p : Precision) :
    (compositeTable p : Table ℝ).EvenlySpaced := by
  intro i lt
  have hunit : (0 : ℝ) < correctionFactor p.lg * 2 ^ p.lg :=
    mul_pos (correctionFactor_pos rfl _) (by positivity)
  have hnext : ∀ n : Nat,
      ((n + 1 : Nat) : ℝ) * tableStep p = n * tableStep p + tableStep p := fun n => by
    rw [Nat.cast_add, Nat.cast_one, add_one_mul]
  have heven := (evenGaps_inv_meanWeight (mul_nonneg (Nat.cast_nonneg i) (tableStep_pos p).le)
    (tableStep_pos p) (tableStep_le p)).const_mul hunit
  rw [mul_sub, mul_sub, ← hnext, ← hnext, ← tableNode_eq, ← tableNode_eq, ← tableNode_eq] at heven
  exact heven

theorem compositeTable_stride_nonneg (p : Precision) : 0 ≤ (compositeTable p : Table ℝ).stride :=
  Nat.cast_nonneg _

theorem compositeTable_x_pos (p : Precision) (i : Fin (compositeTable p : Table ℝ).size) :
    0 < (compositeTable p : Table ℝ).x i := by
  have hmean := decays_real.meanWeight_pos
    (mul_nonneg (Nat.cast_nonneg i) (tableStep_pos p).le)
  have hfactor := correctionFactor_pos (K := ℝ) rfl p.lg
  have hnode : (compositeTable p : Table ℝ).x i = tableNode p i := rfl
  rw [hnode, tableNode_eq]
  positivity

end HyperLogLog
