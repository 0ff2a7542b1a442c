import HyperLogLog.Accumulator.Estimate
import HyperLogLog.Proofs.Registers.Bank

/-!
# Accumulators — what depends on the baseline

The statistics themselves do not: a raise and a mark commute with `withBaseline`.  The estimates
look at the baseline only to count the registers that are zero (`unhit`), and every encoding's
baseline answers that alike (`unhit_baseline`).  So two accumulators with the same sums and as many
zero registers have one composite estimate (`SameWeights.compositeEstimate`), and in either order
the estimates and bounds that go with it.
-/

namespace HyperLogLog.Accumulator

variable {α : Type} {a : Accumulator α} {c d : Baseline} {old new : Nat}

@[simp] theorem baseline_withBaseline (a : Accumulator α) (c : Baseline) :
    (a.withBaseline c).baseline = c := rfl

/-! ### Zero registers -/

/-- The zeros of the values, read off the baseline an encoding keeps. -/
theorem unhit_baseline (a : Accumulator α) (e : Encoding) (values : Array Nat) :
    (a.withBaseline (e.baseline values)).unhit = values.count 0 := (e.count_zero_eq values).symm

theorem nonZeros_eq (a : Accumulator α) : a.nonZeros = a.precision.slots - a.unhit := by
  rw [nonZeros, unhit]
  split <;> rfl

theorem isEmpty_eq (a : Accumulator α) : a.isEmpty = (a.unhit == a.precision.slots) := by
  rw [isEmpty, unhit]
  split
  · rename_i h
    rw [h, beq_self_eq_true, Bool.true_and]
  · rename_i h
    have hpos : 0 ≠ a.precision.slots := a.precision.slots_pos.ne
    rw [beq_false_of_ne h, beq_false_of_ne hpos, Bool.false_and]

theorem isEmpty_congr (h : (a.withBaseline c).unhit = (a.withBaseline d).unhit) :
    (a.withBaseline c).isEmpty = (a.withBaseline d).isEmpty := by
  rw [isEmpty_eq, isEmpty_eq, h]
  rfl

/-! ### Raises -/

section Arith

variable [Arith α]

theorem credit_withBaseline (a : Accumulator α) (c : Baseline) :
    (a.withBaseline c).credit = a.credit.withBaseline c := rfl

theorem removeWeight_withBaseline (a : Accumulator α) (c : Baseline) (v : Nat) :
    (a.withBaseline c).removeWeight v = (a.removeWeight v).withBaseline c := by
  rw [removeWeight, removeWeight]
  split <;> rfl

theorem addWeight_withBaseline (a : Accumulator α) (c : Baseline) (v : Nat) :
    (a.withBaseline c).addWeight v = (a.addWeight v).withBaseline c := by
  rw [addWeight, addWeight]
  split <;> rfl

theorem precision_removeWeight (a : Accumulator α) (v : Nat) :
    (a.removeWeight v).precision = a.precision := by
  rw [removeWeight]
  split <;> rfl

theorem precision_addWeight (a : Accumulator α) (v : Nat) :
    (a.addWeight v).precision = a.precision := by
  rw [addWeight]
  split <;> rfl

/-- The statistics after a register has risen from `old` to `new`, with the baseline as it was. -/
def raised (a : Accumulator α) (old new : Nat) : Accumulator α :=
  (a.credit.removeWeight old).addWeight new

theorem hip_raised (a : Accumulator α) (old new : Nat) :
    (a.raised old new).hip = a.credit.hip := by
  rw [raised, addWeight, removeWeight]
  split_ifs <;> rfl

theorem raise_done (h : old < new) : a.raise old new = .done (a.raised old new) :=
  if_neg h.not_ge

theorem raised_withBaseline (a : Accumulator α) (c : Baseline) (old new : Nat) :
    (a.withBaseline c).raised old new = (a.raised old new).withBaseline c := by
  rw [raised, raised, ← addWeight_withBaseline, ← removeWeight_withBaseline]
  rfl

theorem precision_raised (a : Accumulator α) (old new : Nat) :
    (a.raised old new).precision = a.precision := by
  rw [raised, precision_addWeight, precision_removeWeight]
  rfl

end Arith

/-! ### Estimates and bounds -/

/-- The same sums and as many zero registers, which is all that the composite estimate reads. -/
structure SameWeights (a b : Accumulator α) : Prop where
  precision : a.precision = b.precision
  lowSum : a.lowSum = b.lowSum
  highSum : a.highSum = b.highSum
  unhit : a.unhit = b.unhit

theorem sameWeights_withBaseline (h : (a.withBaseline c).unhit = (a.withBaseline d).unhit) :
    SameWeights (a.withBaseline c) (a.withBaseline d) := ⟨rfl, rfl, rfl, h⟩

namespace SameWeights

variable {b : Accumulator α}

theorem nonZeros (h : SameWeights a b) : a.nonZeros = b.nonZeros := by
  rw [nonZeros_eq, nonZeros_eq, h.precision, h.unhit]

variable [Elementary α]

theorem k (h : SameWeights a b) : a.k = b.k := by
  rw [Accumulator.k, Accumulator.k, h.precision]

theorem rawEstimate (h : SameWeights a b) : a.rawEstimate = b.rawEstimate := by
  rw [Accumulator.rawEstimate, Accumulator.rawEstimate, h.precision, h.k, h.lowSum, h.highSum]

theorem linearEstimate (h : SameWeights a b) : a.linearEstimate = b.linearEstimate := by
  rw [Accumulator.linearEstimate, Accumulator.linearEstimate, h.precision, h.k, h.unhit]

theorem blend (h : SameWeights a b) (adjusted : α) : a.blend adjusted = b.blend adjusted := by
  rw [Accumulator.blend, Accumulator.blend, h.precision, h.k, h.linearEstimate]

theorem compositeFrom (h : SameWeights a b) (t : Table α) :
    a.compositeFrom t = b.compositeFrom t := by
  rw [Accumulator.compositeFrom, Accumulator.compositeFrom, h.rawEstimate, h.blend]

/-- **The composite estimate** reads nothing else. -/
theorem compositeEstimate (h : SameWeights a b) :
    a.compositeEstimate = b.compositeEstimate := by
  rw [Accumulator.compositeEstimate, Accumulator.compositeEstimate, h.compositeFrom, h.precision]

/-- The historic estimates may differ if neither is consulted. -/
theorem estimate (h : SameWeights a b) (ho : a.outOfOrder = b.outOfOrder)
    (hip : a.outOfOrder = false → a.hip = b.hip) : a.estimate = b.estimate := by
  rw [Accumulator.estimate, Accumulator.estimate, ← ho, h.compositeEstimate]
  cases hmode : a.outOfOrder with
  | false => exact hip hmode
  | true => rfl

theorem errorFactor (h : SameWeights a b) (ho : a.outOfOrder = b.outOfOrder) :
    a.errorFactor = b.errorFactor := by
  rw [Accumulator.errorFactor, Accumulator.errorFactor, h.precision, ho]

theorem relativeError (h : SameWeights a b) (ho : a.outOfOrder = b.outOfOrder) :
    a.relativeError = b.relativeError := by
  rw [Accumulator.relativeError, Accumulator.relativeError, h.errorFactor ho, h.k]

theorem margin (h : SameWeights a b) (ho : a.outOfOrder = b.outOfOrder)
    (n : StandardDeviations) : a.margin n = b.margin n := by
  rw [Accumulator.margin, Accumulator.margin, h.errorFactor ho, h.k]

theorem lowerBound (h : SameWeights a b) (ho : a.outOfOrder = b.outOfOrder)
    (hip : a.outOfOrder = false → a.hip = b.hip) (n : StandardDeviations) :
    a.lowerBound n = b.lowerBound n := by
  rw [Accumulator.lowerBound, Accumulator.lowerBound, h.estimate ho hip, h.margin ho, h.nonZeros]

theorem upperBound (h : SameWeights a b) (ho : a.outOfOrder = b.outOfOrder)
    (hip : a.outOfOrder = false → a.hip = b.hip) (n : StandardDeviations) :
    a.upperBound n = b.upperBound n := by
  rw [Accumulator.upperBound, Accumulator.upperBound, h.estimate ho hip, h.margin ho]

end SameWeights

end HyperLogLog.Accumulator
