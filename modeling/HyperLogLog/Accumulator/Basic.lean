import HyperLogLog.Arith
import HyperLogLog.Fault
import HyperLogLog.Precision

/-!
# The accumulator

The statistics of a sketch.  An accumulator never sees the registers: it is told of every raise,
and it keeps

* the historic estimate, which grows by the inverse of the probability that an item raises a
  register, taken just before the raise;
* the sum of the weights `2 ^ -v` of the registers, split at 32 so that the small weights are not
  lost beside the large ones;
* the baseline of the registers.

Once raises may have been missed or reordered the accumulator is marked out of order, for good,
and the historic estimate is no longer consulted.
-/

namespace HyperLogLog

/-- The first register value whose weight is in the high sum. -/
def weightSplit : Nat := 32

/-- The statistics of a sketch. -/
structure Accumulator (α : Type) where
  precision : Precision
  baseline : Baseline
  /-- The historic estimate. -/
  hip : α
  /-- The weights of the registers below 32. -/
  lowSum : α
  /-- The weights of the registers from 32 on. -/
  highSum : α
  outOfOrder : Bool

namespace Accumulator

variable {α : Type} [Arith α]

/-- The statistics of registers that are all zero. -/
@[specialize]
def empty (p : Precision) : Accumulator α where
  precision := p
  baseline := ⟨0, p.slots⟩
  hip := ((0 : Nat) : α)
  lowSum := (p.slots : α)
  highSum := ((0 : Nat) : α)
  outOfOrder := false

/-- The number of registers, as a number to compute with. -/
@[specialize]
def k (a : Accumulator α) : α := (a.precision.slots : α)

/-- Adds the inverse probability of a raise to the historic estimate. -/
@[specialize]
def credit (a : Accumulator α) : Accumulator α :=
  { a with hip := a.hip + a.k / (a.lowSum + a.highSum) }

/-- Takes the weight of a value out of its sum. -/
@[specialize]
def removeWeight (a : Accumulator α) (v : Nat) : Accumulator α :=
  if v < weightSplit then { a with lowSum := a.lowSum - invPow2 v }
  else { a with highSum := a.highSum - invPow2 v }

/-- Puts the weight of a value into its sum. -/
@[specialize]
def addWeight (a : Accumulator α) (v : Nat) : Accumulator α :=
  if v < weightSplit then { a with lowSum := a.lowSum + invPow2 v }
  else { a with highSum := a.highSum + invPow2 v }

/-- Accounts for one register that rises from `old` to `new`.  The credit comes first: it is for
the registers as they were. -/
@[specialize]
def raise (a : Accumulator α) (old new : Nat) : Outcome (Accumulator α) :=
  if new ≤ old then .faulted (.notIncreasing old new) a
  else .done ((a.credit.removeWeight old).addWeight new)

/-- Accounts for one register that has left the baseline. -/
def leaveBaseline (a : Accumulator α) : Outcome (Accumulator α) :=
  if a.baseline.count = 0 then .faulted .underflow a
  else .done { a with baseline := ⟨a.baseline.value, a.baseline.count - 1⟩ }

/-- Follows the registers to a higher baseline. -/
def rebase (a : Accumulator α) (b : Baseline) : Outcome (Accumulator α) :=
  if b.value < a.baseline.value then .faulted .baselineFalls a
  else .done { a with baseline := b }

/-- The same statistics for registers in an encoding with another baseline. -/
def withBaseline (a : Accumulator α) (b : Baseline) : Accumulator α :=
  { a with baseline := b }

/-- Stops consulting the historic estimate. -/
def markOutOfOrder (a : Accumulator α) : Accumulator α :=
  { a with outOfOrder := true }

/-- Whether every register is zero. -/
def isEmpty (a : Accumulator α) : Bool :=
  a.baseline.value == 0 && a.baseline.count == a.precision.slots

/-- The number of registers that are not zero. -/
def nonZeros (a : Accumulator α) : Nat :=
  if a.baseline.value = 0 then a.precision.slots - a.baseline.count else a.precision.slots

/-- The number of registers that are zero. -/
def unhit (a : Accumulator α) : Nat :=
  if a.baseline.value = 0 then a.baseline.count else 0

omit [Arith α] in
instance [BEq α] : BEq (Accumulator α) where
  beq a b :=
    a.precision == b.precision && a.baseline == b.baseline && a.hip == b.hip
      && a.lowSum == b.lowSum && a.highSum == b.highSum && a.outOfOrder == b.outOfOrder

end Accumulator

end HyperLogLog
