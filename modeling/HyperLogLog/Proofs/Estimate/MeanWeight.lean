import HyperLogLog.Proofs.Accumulator.Bounds
import Mathlib.Algebra.BigOperators.Field
import Mathlib.Algebra.Order.BigOperators.Ring.Finset
import Mathlib.Analysis.Complex.Exponential

/-!
# The mean weight of a register

The mean weight is a sum over the values of differences of probabilities, none of which is monotone
in the mean number of items.  Summed by parts it is a sum of probabilities with positive factors
(`meanWeight_eq`), so it falls from one with the mean number of items, wherever the exponential does
(`Decays`): `meanWeight_zero`, `meanWeight_lt_meanWeight`.

Over the reals a step of `d` items a register leaves the mean weight a part `exp (-d)` of what it
was, at least, and what it falls by as well: `exp_mul_meanWeight_le`, `exp_mul_drop_le`, `drop_le`.
Up to one item a register the mean weight is its Taylor polynomial, but for the size of the first
term left out (`abs_meanWeight_sub_le`, `abs_meanWeight_sub_quintic_le`).
-/

namespace HyperLogLog

open Finset

section Field

variable {K : Type} [Field K] [LinearOrder K] [e : Elementary K] {lam mu : K}

/-! ### Summation by parts -/

/-- The probability that a register is at a value or below it. -/
def atMost {α : Type} [Elementary α] (lam : α) (v : Nat) : α := Elementary.exp (-lam * invPow2 v)

theorem atMost_eq (hexact : e.toArith = exactArith) (lam : K) (v : Nat) :
    atMost lam v = Elementary.exp (-(lam / 2 ^ v)) := by
  rw [atMost, ← neg_div, ← mul_one_div]
  obtain ⟨sqrt, exp, log⟩ := e
  subst hexact
  rw [invPow2_eq]

theorem weightFrom_zero (hexact : e.toArith = exactArith) (lam : K) (v : Nat) (below sum : K) :
    weightFrom lam 0 v below sum = sum + (1 - below) * (1 / 2 ^ v) := by
  rw [weightFrom]
  obtain ⟨sqrt, exp, log⟩ := e
  subst hexact
  rw [invPow2_eq, Nat.cast_one]

theorem weightFrom_succ (hexact : e.toArith = exactArith) (lam : K) (n v : Nat) (below sum : K) :
    weightFrom lam (n + 1) v below sum =
      weightFrom lam n (v + 1) (atMost lam v) (sum + (atMost lam v - below) * (1 / 2 ^ v)) := by
  rw [weightFrom, atMost]
  obtain ⟨sqrt, exp, log⟩ := e
  subst hexact
  rw [invPow2_eq]

theorem meanWeight_eq_weightFrom (hexact : e.toArith = exactArith) (lam : K) :
    meanWeight lam = weightFrom lam 62 1 (atMost lam 0) (atMost lam 0) := by
  have hzero : atMost lam 0 = Elementary.exp (-lam) := by
    rw [atMost_eq hexact, pow_zero, div_one]
  rw [hzero]
  obtain ⟨sqrt, exp, log⟩ := e
  subst hexact
  rfl

variable [IsStrictOrderedRing K]

/-- The terms of the mean weight, summed by parts from a value on. -/
theorem weightFrom_eq (hexact : e.toArith = exactArith) (lam : K) (n v : Nat) (below sum : K) :
    weightFrom lam n v below sum = sum - below / 2 ^ v +
      (∑ i ∈ range n, atMost lam (v + i) / 2 ^ (v + i + 1) + 1 / 2 ^ (v + n)) := by
  induction n generalizing v below sum with
  | zero =>
      rw [weightFrom_zero hexact, sum_range_zero, Nat.add_zero]
      ring
  | succ n ih =>
      have hshift : ∀ i, v + 1 + i = v + (i + 1) := fun i => by omega
      rw [weightFrom_succ hexact, ih, sum_range_succ']
      simp only [hshift, Nat.add_zero]
      ring

/-- **The mean weight** as a sum of probabilities. -/
theorem meanWeight_eq (hexact : e.toArith = exactArith) (lam : K) :
    meanWeight lam = ∑ v ∈ range 63, atMost lam v / 2 ^ (v + 1) + 1 / 2 ^ 63 := by
  rw [meanWeight_eq_weightFrom hexact, weightFrom_eq hexact, sum_range_succ' _ 62]
  simp only [Nat.add_comm 1]
  ring

/-! ### Monotonicity -/

/-- The exponential decays from one, and stays positive. -/
structure Decays (K : Type) [Field K] [LinearOrder K] [e : Elementary K] : Prop where
  exact : e.toArith = exactArith
  exp_zero : (Elementary.exp 0 : K) = 1
  exp_pos : ∀ x : K, 0 ≤ x → 0 < (Elementary.exp (-x) : K)
  exp_lt_exp : ∀ x y : K, 0 ≤ x → x < y → (Elementary.exp (-y) : K) < Elementary.exp (-x)

namespace Decays

theorem atMost_pos (h : Decays K) (hlam : 0 ≤ lam) (v : Nat) : 0 < atMost lam v := by
  rw [atMost_eq h.exact]
  exact h.exp_pos _ (by positivity)

theorem atMost_lt_atMost (h : Decays K) (hlam : 0 ≤ lam) (hlt : lam < mu) (v : Nat) :
    atMost mu v < atMost lam v := by
  rw [atMost_eq h.exact, atMost_eq h.exact]
  exact h.exp_lt_exp _ _ (by positivity) (by gcongr)

/-- With no items the mean weight is one. -/
theorem meanWeight_zero (h : Decays K) : meanWeight (0 : K) = 1 := by
  have hone : ∀ v, atMost (0 : K) v = 1 := fun v => by
    rw [atMost_eq h.exact, zero_div, neg_zero, h.exp_zero]
  have hgeom : ∀ n, ∑ v ∈ range n, (1 : K) / 2 ^ (v + 1) = 1 - 1 / 2 ^ n := fun n => by
    induction n with
    | zero => rw [sum_range_zero, pow_zero, div_one, sub_self]
    | succ n ih =>
        rw [sum_range_succ, ih, pow_succ]
        ring
  simp only [meanWeight_eq h.exact, hone, hgeom, sub_add_cancel]

/-- No register is lighter than one at the largest value. -/
theorem lt_meanWeight (h : Decays K) (hlam : 0 ≤ lam) : 1 / 2 ^ 63 < meanWeight lam := by
  rw [meanWeight_eq h.exact]
  refine lt_add_of_pos_left _ (sum_pos (fun v _ => ?_) ⟨0, mem_range.mpr (by decide)⟩)
  have hpos := h.atMost_pos hlam v
  positivity

theorem meanWeight_pos (h : Decays K) (hlam : 0 ≤ lam) : 0 < meanWeight lam :=
  (by positivity : (0 : K) < 1 / 2 ^ 63).trans (h.lt_meanWeight hlam)

/-- **The mean weight falls** with the mean number of items. -/
theorem meanWeight_lt_meanWeight (h : Decays K) (hlam : 0 ≤ lam) (hlt : lam < mu) :
    meanWeight mu < meanWeight lam := by
  rw [meanWeight_eq h.exact, meanWeight_eq h.exact]
  gcongr with v
  · exact ⟨0, mem_range.mpr (by decide)⟩
  · exact h.atMost_lt_atMost hlam hlt v

end Decays

end Field

/-! ### Steps of the mean number of items -/

theorem decays_real : Decays ℝ where
  exact := rfl
  exp_zero := Real.exp_zero
  exp_pos _ _ := Real.exp_pos _
  exp_lt_exp _ _ _ h := Real.exp_lt_exp.mpr (neg_lt_neg h)

variable {lam d : ℝ}

theorem atMost_real (lam : ℝ) (v : Nat) : atMost lam v = Real.exp (-(lam / 2 ^ v)) :=
  atMost_eq decays_real.exact lam v

theorem atMost_add (lam d : ℝ) (v : Nat) : atMost (lam + d) v = atMost lam v * atMost d v := by
  rw [atMost_real, atMost_real, atMost_real, ← Real.exp_add]
  congr 1
  ring

theorem exp_le_atMost (hd : 0 ≤ d) (v : Nat) : Real.exp (-d) ≤ atMost d v := by
  rw [atMost_real]
  exact Real.exp_le_exp.mpr (neg_le_neg (div_le_self hd (one_le_pow₀ one_le_two)))

theorem atMost_le_one (hd : 0 ≤ d) (v : Nat) : atMost d v ≤ 1 := by
  rw [atMost_real]
  exact Real.exp_le_one_iff.mpr (neg_nonpos.mpr (by positivity))

/-- After a step of `d` items a register the mean weight is no less than the part `exp (-d)` of what
it was. -/
theorem exp_mul_meanWeight_le (hlam : 0 ≤ lam) (hd : 0 ≤ d) :
    Real.exp (-d) * meanWeight lam ≤ meanWeight (lam + d) := by
  rw [meanWeight_eq decays_real.exact, meanWeight_eq decays_real.exact, mul_add, mul_sum]
  have hone : Real.exp (-d) ≤ 1 := Real.exp_le_one_iff.mpr (neg_nonpos.mpr hd)
  refine add_le_add (sum_le_sum fun v _ => ?_) (mul_le_of_le_one_left (by positivity) hone)
  have hpos := decays_real.atMost_pos hlam v
  have hle := exp_le_atMost hd v
  rw [atMost_add, mul_div_assoc', mul_comm (Real.exp _)]
  gcongr

/-- What the mean weight falls by in a step. -/
noncomputable def drop (lam d : ℝ) : ℝ := meanWeight lam - meanWeight (lam + d)

theorem drop_eq (lam d : ℝ) :
    drop lam d = ∑ v ∈ range 63, atMost lam v * (1 - atMost d v) / 2 ^ (v + 1) := by
  rw [drop, meanWeight_eq decays_real.exact, meanWeight_eq decays_real.exact,
    add_sub_add_right_eq_sub, ← sum_sub_distrib]
  refine sum_congr rfl fun v _ => ?_
  rw [atMost_add]
  ring

theorem drop_pos (hlam : 0 ≤ lam) (hd : 0 < d) : 0 < drop lam d :=
  sub_pos.mpr (decays_real.meanWeight_lt_meanWeight hlam (lt_add_of_pos_right lam hd))

/-- In the next step it falls by less. -/
theorem drop_le (hlam : 0 ≤ lam) (hd : 0 ≤ d) : drop (lam + d) d ≤ drop lam d := by
  rw [drop_eq, drop_eq]
  refine sum_le_sum fun v _ => ?_
  have hpos := decays_real.atMost_pos hlam v
  have hone := atMost_le_one hd v
  rw [atMost_add]
  gcongr
  exact mul_le_of_le_one_right hpos.le hone

/-- In the next step it falls by no less than the part `exp (-d)`. -/
theorem exp_mul_drop_le (hlam : 0 ≤ lam) (hd : 0 ≤ d) :
    Real.exp (-d) * drop lam d ≤ drop (lam + d) d := by
  rw [drop_eq, drop_eq, mul_sum]
  refine sum_le_sum fun v _ => ?_
  have hpos := decays_real.atMost_pos hlam v
  have hone := atMost_le_one hd v
  have hle := exp_le_atMost hd v
  rw [atMost_add, mul_div_assoc', ← mul_assoc, mul_comm (Real.exp _)]
  gcongr

/-! ### The Taylor polynomial -/

/-- The mean of the `m`-th power of the weight of a value, each value half as likely as the one
before. -/
noncomputable def moment (m : Nat) : ℝ := ∑ v ∈ range 63, invPow2 v ^ m * invPow2 (v + 1)

theorem moment_eq (m : Nat) :
    moment m = (1 - (1 / 2 ^ (m + 1)) ^ 63) / (2 * (1 - 1 / 2 ^ (m + 1))) := by
  have hlt : (1 / 2 ^ (m + 1) : ℝ) < 1 :=
    (div_lt_one (by positivity)).mpr (one_lt_pow₀ one_lt_two m.succ_ne_zero)
  have hterm : ∀ v, (invPow2 v : ℝ) ^ m * invPow2 (v + 1) = (1 / 2 ^ (m + 1)) ^ v / 2 := fun v => by
    rw [invPow2_eq, invPow2_eq, one_div_pow, one_div_pow, mul_one_div, div_div, div_div]
    congr 1
    ring
  simp only [moment, hterm]
  rw [← sum_div, geom_sum_eq hlt.ne, div_div, mul_comm (_ - 1), ← neg_div_neg_eq, neg_sub,
    ← mul_neg, neg_sub]

theorem moment_zero_le : moment 0 ≤ 1 := by
  rw [moment_eq]
  norm_num

/-- The Taylor polynomial of a probability. -/
noncomputable def atMostTaylor (lam : ℝ) (n v : Nat) : ℝ :=
  ∑ m ∈ range n, (-(lam * invPow2 v)) ^ m / m.factorial

theorem abs_atMost_sub_le (h0 : 0 ≤ lam) (h1 : lam ≤ 1) {n : Nat} (hn : 0 < n) (v : Nat) :
    |atMost lam v - atMostTaylor lam n v| ≤ lam ^ n * (n.succ / (n.factorial * n)) := by
  have hle : lam / 2 ^ v ≤ lam := div_le_self h0 (one_le_pow₀ one_le_two)
  have habs : |-(lam / 2 ^ v)| = lam / 2 ^ v := by rw [abs_neg, abs_of_nonneg (by positivity)]
  have hbound := Real.exp_bound (habs.trans_le (hle.trans h1)) hn
  rw [habs] at hbound
  simp only [atMost_real, atMostTaylor, invPow2_eq, mul_one_div]
  exact hbound.trans (by gcongr)

/-- The Taylor polynomials of the probabilities sum up to that of the mean weight. -/
theorem sum_atMostTaylor (lam : ℝ) (n : Nat) :
    ∑ v ∈ range 63, atMostTaylor lam n v * invPow2 (v + 1) =
      ∑ m ∈ range n, (-lam) ^ m / m.factorial * moment m := by
  simp only [atMostTaylor, moment, mul_sum, sum_mul]
  rw [sum_comm]
  refine sum_congr rfl fun m _ => sum_congr rfl fun v _ => ?_
  rw [← neg_mul, mul_pow]
  ring

/-- **Up to one item a register**, the mean weight is its Taylor polynomial. -/
theorem abs_meanWeight_sub_le (h0 : 0 ≤ lam) (h1 : lam ≤ 1) {n : Nat} (hn : 0 < n) :
    |meanWeight lam - (∑ m ∈ range n, (-lam) ^ m / m.factorial * moment m + 1 / 2 ^ 63)| ≤
      lam ^ n * (n.succ / (n.factorial * n)) := by
  have hpos : ∀ v, 0 < (invPow2 v : ℝ) := fun v => by
    rw [invPow2_eq]
    positivity
  have hsum : meanWeight lam = ∑ v ∈ range 63, atMost lam v * invPow2 (v + 1) + 1 / 2 ^ 63 := by
    simp only [meanWeight_eq decays_real.exact, invPow2_eq, mul_one_div]
  rw [hsum, ← sum_atMostTaylor, add_sub_add_right_eq_sub, ← sum_sub_distrib]
  simp only [← sub_mul]
  calc |_| ≤ ∑ v ∈ range 63, |(atMost lam v - atMostTaylor lam n v) * invPow2 (v + 1)| :=
        abs_sum_le_sum_abs _ _
    _ ≤ ∑ v ∈ range 63, lam ^ n * (n.succ / (n.factorial * n)) * invPow2 (v + 1) :=
        sum_le_sum fun v _ => by
          rw [abs_mul, abs_of_pos (hpos _)]
          exact mul_le_mul_of_nonneg_right (abs_atMost_sub_le h0 h1 hn v) (hpos _).le
    _ = lam ^ n * (n.succ / (n.factorial * n)) * moment 0 := by
        simp only [moment, pow_zero, one_mul, mul_sum]
    _ ≤ lam ^ n * (n.succ / (n.factorial * n)) :=
        mul_le_of_le_one_right (by positivity) moment_zero_le

/-- The Taylor polynomial of the fifth degree, but for the values no register reaches. -/
theorem abs_meanWeight_sub_quintic_le (h0 : 0 ≤ lam) (h1 : lam ≤ 1) :
    |meanWeight lam - (1 - 2 / 3 * lam + 2 / 7 * lam ^ 2 - 4 / 45 * lam ^ 3 + 2 / 93 * lam ^ 4 -
      4 / 945 * lam ^ 5)| ≤ lam ^ 6 / 600 + 1 / 2 ^ 100 := by
  have hpow : ∀ m, 0 ≤ lam ^ m ∧ lam ^ m ≤ 1 := fun m => ⟨pow_nonneg h0 m, pow_le_one₀ h0 h1⟩
  have h := abs_meanWeight_sub_le h0 h1 (n := 6) (by decide)
  simp only [sum_range_succ, sum_range_zero, moment_eq] at h
  norm_num [Nat.factorial] at h
  rw [abs_le] at h ⊢
  constructor <;> linarith [h.1, h.2, hpow 2, hpow 3, hpow 4, hpow 5, hpow 6]

end HyperLogLog
