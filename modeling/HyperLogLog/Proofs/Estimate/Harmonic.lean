import HyperLogLog.Estimate.Harmonic
import HyperLogLog.Proofs.Accumulator.Bounds
import Mathlib.Analysis.SpecialFunctions.Log.Deriv
import Mathlib.Analysis.Complex.ExponentialBounds

/-!
# Harmonic numbers over the reals

Each harmonic number is larger than the one before (`harmonic_lt_succ`): below the split by a
quotient, where they are the sums of the inverses (`harmonicExact_eq_sum`), from there on because
the logarithm grows by more than the corrections of the expansion take away (`corrections_sub_lt`),
and at the split by the value of the logarithm there.  So linear counting is not negative
(`linearCount_nonneg`) and increases with the registers hit (`linearCount_increases`).
-/

namespace HyperLogLog

/-! ### The exact part -/

theorem harmonicTable_pos : ∀ n, 0 < (harmonicTable.get n).2 := by
  decide

/-- Each entry of the table is the one before it and the next inverse, multiplied out. -/
theorem harmonicTable_succ : ∀ n, (h : n < 24) →
    (harmonicTable.get ⟨n + 1, Nat.succ_lt_succ h⟩).1 *
        ((harmonicTable.get ⟨n, Nat.lt_succ_of_lt h⟩).2 * (n + 1)) =
      ((harmonicTable.get ⟨n, Nat.lt_succ_of_lt h⟩).1 * (n + 1) +
          (harmonicTable.get ⟨n, Nat.lt_succ_of_lt h⟩).2) *
        (harmonicTable.get ⟨n + 1, Nat.succ_lt_succ h⟩).2 := by
  decide

theorem harmonicExact_succ {n : Nat} (h : n + 1 < harmonicSplit) :
    (harmonicExact ⟨n + 1, h⟩ : ℝ) =
      harmonicExact ⟨n, Nat.lt_of_succ_lt h⟩ + 1 / ((n : ℝ) + 1) := by
  have hpos : ∀ i, ((harmonicTable.get i).2 : ℝ) ≠ 0 := fun i =>
    Nat.cast_ne_zero.mpr (harmonicTable_pos i).ne'
  have hsucc : (n : ℝ) + 1 ≠ 0 := Nat.cast_add_one_ne_zero n
  rw [harmonicExact, harmonicExact, div_add_div _ _ (hpos _) hsucc, mul_one,
    div_eq_div_iff (hpos _) (mul_ne_zero (hpos _) hsucc)]
  exact_mod_cast harmonicTable_succ n (Nat.lt_of_succ_lt_succ h)

theorem harmonicExact_lt_succ {n : Nat} (h : n + 1 < harmonicSplit) :
    (harmonicExact ⟨n, Nat.lt_of_succ_lt h⟩ : ℝ) < harmonicExact ⟨n + 1, h⟩ := by
  rw [harmonicExact_succ]
  exact lt_add_of_pos_right _ Nat.one_div_pos_of_nat

/-- **The table** holds the sums of the inverses. -/
theorem harmonicExact_eq_sum {n : Nat} (h : n < harmonicSplit) :
    (harmonicExact ⟨n, h⟩ : ℝ) = ∑ i ∈ Finset.range n, 1 / ((i : ℝ) + 1) := by
  induction n with
  | zero =>
      have hfirst : harmonicTable.get ⟨0, h⟩ = (0, 1) := rfl
      rw [harmonicExact, hfirst, Nat.cast_zero, zero_div, Finset.sum_range_zero]
  | succ n ih => rw [harmonicExact_succ, ih, Finset.sum_range_succ]

/-! ### The expansion -/

/-- What the expansion adds to the logarithm and Euler's constant, in powers of the inverse. -/
noncomputable def corrections (y : ℝ) : ℝ :=
  0.5 * y - y ^ 2 / 12 + y ^ 4 / 120 - y ^ 6 / 252 + y ^ 8 / 240

theorem harmonicExpansion_eq (n : Nat) :
    (harmonicExpansion n : ℝ) = Real.log n + 0.5772156649015329 + corrections (1 / n) := by
  have hlog : (Elementary.log (n : ℝ) : ℝ) = Real.log n := rfl
  rw [harmonicExpansion, hlog, corrections]
  push_cast
  ring

/-- Up to a half, a power is at most as large as it is at a half, in proportion. -/
theorem pow_succ_le {y : ℝ} (hy : 0 ≤ y) (hhalf : y ≤ 1 / 2) (n : Nat) :
    y ^ (n + 1) ≤ y * (1 / 2) ^ n := by
  rw [pow_succ']
  gcongr

/-- Small inverses are above their corrections. -/
theorem corrections_mem {y : ℝ} (hy : 0 ≤ y) (hhalf : y ≤ 1 / 2) :
    0 ≤ corrections y ∧ corrections y ≤ y := by
  have hpow := pow_succ_le hy hhalf
  have hpos : ∀ n, 0 ≤ y ^ n := fun n => pow_nonneg hy n
  rw [corrections]
  constructor <;> linarith [hpow 1, hpow 3, hpow 5, hpow 7, hpos 2, hpos 4, hpos 6, hpos 8]

/-- From one inverse to the next smaller one the corrections lose less than that one. -/
theorem corrections_sub_lt {y z : ℝ} (hy : 0 < y) (hz : 0 < z) (hhalf : y ≤ 1 / 2)
    (h : y - z = y * z) : corrections y - corrections z < z := by
  have hpow := pow_succ_le hy.le hhalf
  have hpos : ∀ n, 0 < z ^ n := fun n => pow_pos hz n
  have hlin : y - z ≤ z / 2 := by nlinarith
  have hle : z ≤ y := by nlinarith
  have h2 : z ^ 2 ≤ y ^ 2 := pow_le_pow_left₀ hz.le hle 2
  have h6 : z ^ 6 ≤ y ^ 6 := pow_le_pow_left₀ hz.le hle 6
  rw [corrections, corrections]
  linarith [hpow 3, hpow 7, hpos 4, hpos 8]

theorem harmonicExpansion_lt_succ {n : Nat} (h : 2 ≤ n) :
    (harmonicExpansion n : ℝ) < harmonicExpansion (n + 1) := by
  have hn : (2 : ℝ) ≤ n := by exact_mod_cast h
  have hpos : (0 : ℝ) < n := by linarith
  have hlog : 1 / ((n : ℝ) + 1) ≤ Real.log (n + 1) - Real.log n := by
    rw [← Real.log_div (by positivity) hpos.ne']
    have hle := Real.one_sub_inv_le_log_of_pos (x := ((n : ℝ) + 1) / n) (by positivity)
    rwa [inv_div, one_sub_div (by positivity), add_sub_cancel_left] at hle
  have hcorrections := corrections_sub_lt (y := 1 / (n : ℝ)) (z := 1 / (n + 1)) (by positivity)
    (by positivity) (one_div_le_one_div_of_le two_pos hn) (by field_simp; ring)
  rw [harmonicExpansion_eq, harmonicExpansion_eq, Nat.cast_add, Nat.cast_one]
  linarith

/-! ### All harmonic numbers -/

/-- The logarithm at the split, from the one of the power of two above it. -/
theorem log_harmonicSplit : 3.185 ≤ Real.log 25 := by
  have hpow : Real.log 32 = 5 * Real.log 2 := by
    rw [show (32 : ℝ) = 2 ^ 5 by norm_num, Real.log_pow, Nat.cast_ofNat]
  have hquotient : Real.log 32 - Real.log 25 ≤ 7 / 25 := by
    rw [← Real.log_div (by norm_num) (by norm_num)]
    exact (Real.log_le_sub_one_of_pos (by norm_num)).trans (by norm_num)
  linarith [Real.log_two_gt_d9]

/-- The expansion takes over above the last quotient. -/
theorem harmonicExact_lt_harmonicExpansion :
    (harmonicExact ⟨24, by decide⟩ : ℝ) < harmonicExpansion 25 := by
  have hexact : (harmonicExact ⟨24, by decide⟩ : ℝ) ≤ 3.776 := by
    have hlast : harmonicTable.get ⟨24, by decide⟩ = (1347822955, 356948592) := rfl
    rw [harmonicExact, hlast, div_le_iff₀ (by norm_num)]
    norm_num
  have hcorrections : 0.0198 ≤ corrections (1 / 25) := by
    norm_num [corrections]
  have hlog := log_harmonicSplit
  rw [harmonicExpansion_eq]
  push_cast
  linarith

/-- **Harmonic numbers increase.** -/
theorem harmonic_lt_succ (n : Nat) : (harmonic n : ℝ) < harmonic (n + 1) := by
  rcases Nat.lt_trichotomy (n + 1) harmonicSplit with h | h | h
  · rw [harmonic_of_lt (Nat.lt_of_succ_lt h), harmonic_of_lt h]
    exact harmonicExact_lt_succ h
  · obtain rfl : n = 24 := Nat.succ.inj h
    exact harmonicExact_lt_harmonicExpansion
  · rw [harmonic_of_le (Nat.le_of_lt_succ h), harmonic_of_le h.le]
    exact harmonicExpansion_lt_succ ((by decide : 2 ≤ harmonicSplit).trans (Nat.le_of_lt_succ h))

theorem harmonic_strictMono : StrictMono (harmonic : Nat → ℝ) :=
  strictMono_nat_of_lt_succ harmonic_lt_succ

/-- From the split on, harmonic numbers are as far apart as logarithms, but for an inverse. -/
theorem log_div_sub_le {m n : Nat} (hm : harmonicSplit ≤ m) (hmn : m ≤ n) :
    Real.log (n / m) - 1 / m ≤ (harmonic n : ℝ) - harmonic m := by
  have hpos : 0 < m := lt_of_lt_of_le (by decide) hm
  have hm' : (2 : ℝ) ≤ m := by exact_mod_cast (by decide : 2 ≤ harmonicSplit).trans hm
  have hn' : (2 : ℝ) ≤ n := hm'.trans (by exact_mod_cast hmn)
  have hcm := corrections_mem (y := 1 / m) (by positivity) (one_div_le_one_div_of_le two_pos hm')
  have hcn := corrections_mem (y := 1 / n) (by positivity) (one_div_le_one_div_of_le two_pos hn')
  rw [harmonic_of_le (hm.trans hmn), harmonic_of_le hm, harmonicExpansion_eq, harmonicExpansion_eq,
    Real.log_div (by linarith) (by linarith)]
  linarith [hcm.2, hcn.1]

theorem linearCount_zero (k : Nat) : (linearCount k 0 : ℝ) = 0 := by
  rw [linearCount, Nat.sub_zero, sub_self, mul_zero]

/-- **Linear counting** is not negative. -/
theorem linearCount_nonneg (k hit : Nat) : 0 ≤ (linearCount k hit : ℝ) :=
  mul_nonneg (Nat.cast_nonneg k)
    (sub_nonneg.mpr (harmonic_strictMono.monotone (Nat.sub_le k hit)))

/-- One more register hit takes more items, since the harmonic number of those left is smaller. -/
theorem linearCount_lt_succ {k hit : Nat} (h : hit < k) :
    (linearCount k hit : ℝ) < linearCount k (hit + 1) := by
  have hk : (0 : ℝ) < k := Nat.cast_pos.mpr (Nat.zero_lt_of_lt h)
  have hleft : (harmonic (k - (hit + 1)) : ℝ) < harmonic (k - hit) :=
    harmonic_strictMono (Nat.sub_succ_lt_self k hit h)
  rw [linearCount, linearCount]
  exact mul_lt_mul_of_pos_left (sub_lt_sub_left hleft _) hk

/-- **Linear counting increases** from zero with the registers hit, as harmonic numbers do, also
where the expansion takes over from the quotients, which are exact. -/
theorem linearCount_increases :
    (∀ n < harmonicSplit, (harmonic n : ℝ) = ∑ i ∈ Finset.range n, 1 / ((i : ℝ) + 1)) ∧
      (∀ n, (harmonic n : ℝ) < harmonic (n + 1)) ∧
      ∀ k, (linearCount k 0 : ℝ) = 0 ∧
        ∀ hit < k, (linearCount k hit : ℝ) < linearCount k (hit + 1) := by
  refine ⟨fun n hn => ?_, harmonic_lt_succ, fun k => ⟨linearCount_zero k, fun hit hhit => ?_⟩⟩
  · rw [harmonic_of_lt hn]
    exact harmonicExact_eq_sum hn
  · exact linearCount_lt_succ hhit

/-- With five of thirty registers hit the next one takes the argument across the split. -/
theorem linearCount_increases_split :
    (harmonic 24 : ℝ) < harmonic 25 ∧ (linearCount 30 5 : ℝ) < linearCount 30 6 :=
  ⟨linearCount_increases.2.1 24, (linearCount_increases.2.2 30).2 5 (by decide)⟩

end HyperLogLog
