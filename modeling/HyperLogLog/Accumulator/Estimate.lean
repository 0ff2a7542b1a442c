import HyperLogLog.Accumulator.Basic
import HyperLogLog.Estimate.CompositeTable
import HyperLogLog.Estimate.Harmonic
import HyperLogLog.StandardDeviations

/-!
# Estimates and bounds

The estimate of a sketch in order is its historic estimate.  Out of order it is the composite
estimate, put together from the raw estimate, whose bias the table removes, and at small
cardinalities linear counting.
-/

namespace HyperLogLog.Accumulator

variable {α : Type} [Elementary α]

/-- The raw estimate, from the sums of the weights alone. -/
@[specialize]
def rawEstimate (a : Accumulator α) : α :=
  correctionFactor a.precision.lg * a.k * a.k / (a.lowSum + a.highSum)

/-- The estimate from the number of registers never hit. -/
@[specialize]
def linearEstimate (a : Accumulator α) : α :=
  if a.unhit = 0 then a.k * Elementary.log (a.k / 0.5)
  else linearCount a.precision.slots (a.precision.slots - a.unhit)

/-- The mean of both estimates, in registers, from which on linear counting is dropped. -/
def crossover (lgK : Nat) : α :=
  match lgK with
  | 4 => 0.718
  | 5 => 0.672
  | _ => 0.64

/-- Chooses between the adjusted raw estimate and linear counting.  Linear counting is not even
looked at beyond three items a register; below, the mean of the two decides, since it leans less
to either side than one of them alone. -/
@[specialize]
def blend (a : Accumulator α) (adjusted : α) : α :=
  if ((3 * a.precision.slots : Nat) : α) < adjusted then adjusted
  else
    let linear := a.linearEstimate
    if crossover a.precision.lg * a.k < (adjusted + linear) / ((2 : Nat) : α) then adjusted
    else linear

/-- The composite estimate read off a table.  Left of the table it is zero, and right of it the
line through the origin and the last node goes on. -/
@[specialize]
def compositeFrom (a : Accumulator α) (t : Table α) : α :=
  let raw := a.rawEstimate
  if raw < t.firstX then ((0 : Nat) : α)
  else if t.lastX < raw then raw * (t.y t.last / t.lastX)
  else a.blend (t.interpolate raw)

/-- The composite estimate. -/
@[specialize]
def compositeEstimate (a : Accumulator α) : α :=
  a.compositeFrom (compositeTable a.precision)

/-- The estimate: historic in order, composite out of order. -/
@[specialize]
def estimate (a : Accumulator α) : α :=
  if a.outOfOrder then a.compositeEstimate else a.hip

/-- The relative standard error of the historic estimate, times the root of the register count. -/
def hipErrorFactor (lgK : Nat) : α :=
  match lgK with
  | 4 => 0.862
  | 5 => 0.8467
  | 6 => 0.8397
  | _ => 0.8360

/-- The relative standard error of the composite estimate, times the root of the register
count. -/
def compositeErrorFactor (lgK : Nat) : α :=
  match lgK with
  | 4 => 1.1059
  | 5 => 1.0706
  | 6 => 1.0545
  | _ => 1.0464

/-- The factor of the estimate in use. -/
def errorFactor (a : Accumulator α) : α :=
  if a.outOfOrder then compositeErrorFactor a.precision.lg else hipErrorFactor a.precision.lg

/-- The relative standard error of the estimate in use. -/
def relativeError (a : Accumulator α) : α :=
  a.errorFactor / Elementary.sqrt a.k

/-- The relative width of the interval of `n` standard deviations. -/
def margin (a : Accumulator α) (n : StandardDeviations) : α :=
  (n.count : α) * a.errorFactor / Elementary.sqrt a.k

/-- The lower bound.  It is not below the number of registers hit, since each took an item. -/
@[specialize]
def lowerBound (a : Accumulator α) (n : StandardDeviations) : α :=
  let bound := a.estimate / (((1 : Nat) : α) + a.margin n)
  let floor : α := (a.nonZeros : α)
  if floor ≤ bound then bound else floor

/-- The upper bound. -/
@[specialize]
def upperBound (a : Accumulator α) (n : StandardDeviations) : α :=
  a.estimate / (((1 : Nat) : α) - a.margin n)

end HyperLogLog.Accumulator
