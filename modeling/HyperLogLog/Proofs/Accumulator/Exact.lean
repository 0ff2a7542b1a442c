import HyperLogLog.Proofs.Accumulator.Sums
import Mathlib.Algebra.Order.Field.Basic
import Mathlib.Data.Rat.Cast.OfScientific
import Mathlib.Tactic.NormNum

/-!
# Accumulators over an ordered field

Over an ordered field the operations of `Arith` are the exact ones, `invPow2 v` is the weight
`2 ^ -v`, and all multiples of a unit are a grid (`exactGrid`).  So the totals of a bank in units of
`2 ^ -31` and `2 ^ -63` are the sums of the weights themselves (`weightSum`): of the values below
32, and of those from 32 on.
-/

namespace HyperLogLog

/-- Exact arithmetic. -/
instance (priority := low) exactArith {K : Type} [Field K] [LinearOrder K] : Arith K where

/-- The weights `2 ^ -v` of the values with a property together. -/
def weightSum (K : Type) [Field K] (P : Nat → Prop) [DecidablePred P] (values : Array Nat) : K :=
  ((values.toList.filter fun v => P v).map fun v => 1 / 2 ^ v).sum

/-- The weights `2 ^ -v` of all values together. -/
def totalWeight (K : Type) [Field K] (values : Array Nat) : K :=
  (values.toList.map fun v => 1 / 2 ^ v).sum

section Field

variable {K : Type} [Field K]

/-- Numbers that are, in units of `2 ^ -k`, the weights of the values with a property and zero at
the others add up to the sum of these weights. -/
theorem weightSum_eq {P : Nat → Prop} [DecidablePred P] {w : Nat → Nat} {k : Nat}
    {values : Array Nat} (h : ∀ v ∈ values, (w v : K) / 2 ^ k = if P v then 1 / 2 ^ v else 0) :
    ((values.toList.map w).sum : K) / 2 ^ k = weightSum K P values := by
  have h' : ∀ v ∈ values.toList, (w v : K) / 2 ^ k = if P v then 1 / 2 ^ v else 0 :=
    fun v hv => h v (Array.mem_toList_iff.mp hv)
  rw [weightSum]
  generalize values.toList = l at h'
  induction l with
  | nil => rw [List.map_nil, List.sum_nil, Nat.cast_zero, zero_div]; rfl
  | cons v l ih =>
      obtain ⟨hv, hrest⟩ := List.forall_mem_cons.mp h'
      rw [List.map_cons, List.sum_cons, Nat.cast_add, add_div, ih hrest, hv, List.filter_cons]
      by_cases hP : P v
      · rw [if_pos hP, if_pos (decide_eq_true hP), List.map_cons, List.sum_cons]
      · rw [if_neg hP, if_neg (by rwa [decide_eq_true_eq]), zero_add]

end Field

variable {K : Type} [Field K] [LinearOrder K]

/-- Eight halvings at a time are halvings. -/
theorem invPow2_eq (v : Nat) : (invPow2 v : K) = 1 / 2 ^ v := by
  induction v using invPow2.induct with
  | case1 v ih =>
      rw [invPow2, ih, div_div, show ((256 : Nat) : K) = 2 ^ 8 by norm_num, ← pow_add]
  | case2 v hv ih =>
      rw [invPow2, ih, div_div, Nat.cast_two, ← pow_succ]
      exact hv
  | case3 =>
      rw [invPow2, pow_zero, div_one, Nat.cast_one]

variable [IsStrictOrderedRing K]

/-- A weight on a finer scale. -/
theorem two_pow_sub_div {v k : Nat} (h : v ≤ k) :
    ((2 ^ (k - v) : Nat) : K) / 2 ^ k = 1 / 2 ^ v := by
  rw [Nat.cast_pow, Nat.cast_two,
    div_eq_div_iff (pow_ne_zero k two_ne_zero) (pow_ne_zero v two_ne_zero), one_mul, ← pow_add,
    Nat.sub_add_cancel h]

/-- **An ordered field is a grid.** -/
def exactGrid (K : Type) [Field K] [LinearOrder K] [IsStrictOrderedRing K] : Grid K where
  low n := n / 2 ^ 31
  high n := n / 2 ^ 63
  low_add n m _ := by rw [Nat.cast_add, add_div]
  low_sub n m h _ := by rw [Nat.cast_sub h, sub_div]
  high_add n m _ := by rw [Nat.cast_add, add_div]
  high_sub n m h _ := by rw [Nat.cast_sub h, sub_div]
  slots_eq p := by
    rw [Nat.cast_mul, Nat.cast_pow, Nat.cast_two,
      mul_div_cancel_right₀ _ (pow_ne_zero 31 two_ne_zero)]
  zero_eq := by rw [Nat.cast_zero, zero_div]
  weight_low v h := (invPow2_eq v).trans (two_pow_sub_div (Nat.le_of_lt_succ h)).symm
  weight_high v _ h := (invPow2_eq v).trans (two_pow_sub_div h).symm

namespace Bank

variable {p : Precision} (b : Bank p)

theorem low_total :
    (exactGrid K).low (b.total lowUnit) = weightSum K (· < weightSplit) b.values := by
  refine weightSum_eq fun v _ => ?_
  rw [lowUnit]
  split
  · rename_i h
    exact two_pow_sub_div (Nat.le_of_lt_succ h)
  · rw [Nat.cast_zero, zero_div]

theorem high_total :
    (exactGrid K).high (b.total highUnit) = weightSum K (weightSplit ≤ ·) b.values := by
  refine weightSum_eq fun v hv => ?_
  rw [highUnit]
  split
  · rename_i h
    rw [if_neg h.not_ge, Nat.cast_zero, zero_div]
  · rename_i h
    rw [if_pos (not_lt.mp h)]
    exact two_pow_sub_div (b.values_le v hv)

end Bank

/-- **The sums of an accumulator that follows a bank** are the sums of the weights. -/
theorem Plain.Summed.weightSum_eq {p : Precision} {t : Plain K p} (h : t.Summed (exactGrid K)) :
    t.accumulator.lowSum = weightSum K (· < weightSplit) t.bank.values ∧
      t.accumulator.highSum = weightSum K (weightSplit ≤ ·) t.bank.values :=
  ⟨h.low.trans t.bank.low_total, h.high.trans t.bank.high_total⟩

end HyperLogLog
