import HyperLogLog.Proofs.Accumulator.Sums
import HyperLogLog.Proofs.Double.Sign

/-!
# Sketches that compute in doubles

Doubles are a grid, so the sums of the weights carry no rounding error (`doubleGrid`).  They are
nonnegative, and with them is every credit: the historic estimate stays a number, whatever the
rounding of the credits (`Plain.numeric_run`), and two sketches have equal statistics only if they
have the same (`Accumulator.Numeric.beq_iff`).
-/

namespace HyperLogLog

open Double

theorem nearestDouble_slots :
    ∀ lg < 22, minLgK ≤ lg → nearestDouble (2 ^ lg) = dyadic (2 ^ lg * 2 ^ 31) (-31) := by
  decide +kernel

theorem invPow2_low : ∀ v < 32, (invPow2 v : Float) = dyadic (2 ^ (31 - v)) (-31) := by
  decide +kernel

theorem invPow2_high : ∀ v < 64, 32 ≤ v → (invPow2 v : Float) = dyadic (2 ^ (63 - v)) (-63) := by
  decide +kernel

/-- **Doubles are a grid.** -/
def doubleGrid : Grid Float where
  low n := dyadic n (-31)
  high n := dyadic n (-63)
  low_add n m h := dyadic_add (h.trans_lt (by decide)) (by decide) (by decide)
  low_sub n m h h' := dyadic_sub h (h'.trans_lt (by decide)) (by decide) (by decide)
  high_add n m h := dyadic_add (h.trans_lt (by decide)) (by decide) (by decide)
  high_sub n m h h' := dyadic_sub h (h'.trans_lt (by decide)) (by decide) (by decide)
  slots_eq p := nearestDouble_slots p.lg (Nat.lt_succ_of_le p.le_maxLgK) p.minLgK_le
  zero_eq := by decide +kernel
  weight_low v h := invPow2_low v h
  weight_high v h h' := invPow2_high v (Nat.lt_succ_of_le h') h

theorem nonnegative_low {n : Nat} (h : n ≤ 2 ^ 52) : Nonnegative (doubleGrid.low n) :=
  nonnegative_dyadic (h.trans_lt (by decide)) (by decide) (by decide)

theorem nonnegative_high {n : Nat} (h : n ≤ 2 ^ 52) : Nonnegative (doubleGrid.high n) :=
  nonnegative_dyadic (h.trans_lt (by decide)) (by decide) (by decide)

namespace Accumulator

variable {a : Accumulator Float}

/-- Statistics that are nonnegative numbers. -/
structure Numeric (a : Accumulator Float) : Prop where
  hip : Nonnegative a.hip
  lowSum : Nonnegative a.lowSum
  highSum : Nonnegative a.highSum

/-- A credit is the quotient of the number of registers by a nonnegative sum. -/
theorem Numeric.credit (h : a.Numeric) : Nonnegative a.credit.hip := by
  have hk : a.k = dyadic (a.precision.slots * 2 ^ 31) (-31) := doubleGrid.slots_eq a.precision
  have hslots := a.precision.slots_le
  have hpos := a.precision.slots_pos
  have hquot : Nonnegative (a.k / (a.lowSum + a.highSum)) := by
    rw [hk]
    exact (h.lowSum.add h.highSum).dyadic_div (by omega) (by omega) (by decide) (by decide)
  exact h.hip.add hquot

/-- **Statistics that are nonnegative numbers are equal** only if they are the same. -/
theorem Numeric.beq_iff {b : Accumulator Float} (h : a.Numeric) (h' : b.Numeric) :
    (a == b) = true ↔ a = b := by
  show (a.precision == b.precision && a.baseline == b.baseline && a.hip == b.hip
    && a.lowSum == b.lowSum && a.highSum == b.highSum && a.outOfOrder == b.outOfOrder) = true ↔ _
  simp only [Bool.and_eq_true, beq_iff_eq, h.hip.beq_iff h'.hip, h.lowSum.beq_iff h'.lowSum,
    h.highSum.beq_iff h'.highSum]
  cases a
  cases b
  simp only [mk.injEq, and_assoc]

end Accumulator

namespace Plain

open Sketch (Step)

variable {p : Precision} {t : Plain Float p}

theorem Summed.numeric (h : t.Summed doubleGrid) (hip : Nonnegative t.accumulator.hip) :
    t.accumulator.Numeric where
  hip := hip
  lowSum := by
    rw [h.low]
    exact nonnegative_low (t.bank.total_le_pow lowUnit_le)
  highSum := by
    rw [h.high]
    exact nonnegative_high (t.bank.total_le_pow highUnit_le)

/-- **The statistics of a plain sketch are nonnegative numbers**, after any run. -/
theorem numeric_run (p : Precision) (steps : List Step) :
    ((empty p : Plain Float p).run steps).accumulator.Numeric := by
  have h : ((empty p : Plain Float p).run steps).Summed doubleGrid ∧
      Nonnegative ((empty p : Plain Float p).run steps).accumulator.hip := by
    refine run_induction (P := fun t => t.Summed doubleGrid ∧ Nonnegative t.accumulator.hip)
      ⟨summed_empty doubleGrid p, ?_⟩ (fun t st ⟨hsum, hip⟩ => ⟨hsum.apply st, ?_⟩) steps
    · exact nonnegative_high (n := 0) (Nat.zero_le _)
    · cases st with
      | update slot value =>
          by_cases hraise : slot < p.slots ∧ value ≤ maxRegister ∧ t.bank.get slot < value
          · rw [Plain.apply, update_of_raise hraise.1 hraise.2.1 hraise.2.2, raise,
              Accumulator.hip_raised]
            exact (hsum.numeric hip).credit
          · rw [Plain.apply, update_of_not_raise hraise]
            exact hip
      | mark | convert e => exact hip
  exact h.1.numeric h.2

end Plain

end HyperLogLog
