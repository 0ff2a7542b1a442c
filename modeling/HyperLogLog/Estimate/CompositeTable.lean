import HyperLogLog.Estimate.Correction
import HyperLogLog.Estimate.Interpolation
import HyperLogLog.Precision

/-!
# The table of the composite estimator

The raw estimate is biased at small cardinalities.  The table tells by how much: its nodes are
cardinalities at a constant stride up to five times the number of registers, and the abscissa of
a node is the raw estimate to be expected there.

Under the Poisson model a register receives a Poisson number of items with mean
`lam = n / k`, so it stays at or below `v` with probability `exp (-lam / 2 ^ v)`, and the raw
estimate after `n` items is `correctionFactor * k` over the mean weight of a register.
-/

namespace HyperLogLog

/-- The distances between neighbouring cardinalities of the tables, by precision. -/
def tableStrides : Vector Nat (maxLgK - minLgK + 1) :=
  #v[1, 2, 3, 5, 10, 20, 40, 80, 160, 320, 640, 1280, 2560, 5120, 10240, 20480, 40960, 81920]

/-- The distance between neighbouring cardinalities of the table. -/
def tableStride (p : Precision) : Nat := tableStrides.get p.index

/-- The number of nodes of the table. -/
def tableSize (p : Precision) : Nat := 5 * p.slots / tableStride p + 1

/-- A stride is 5/128 of the number of registers, rounded up. -/
theorem tableStride_eq : ∀ p : Precision, tableStride p = (5 * p.slots + 127) / 128 := by
  decide

theorem four_le_tableSize : ∀ p : Precision, 4 ≤ tableSize p := by
  decide

variable {α : Type} [Elementary α]

/-- Adds the share of the values from `v` on to a partial mean weight.  `below` is the
probability of a value under `v`; the next `n` values are below the largest one, which takes what
probability is left. -/
@[specialize]
def weightFrom (lam : α) : (n v : Nat) → (below sum : α) → α
  | 0, v, below, sum => sum + (((1 : Nat) : α) - below) * invPow2 v
  | n + 1, v, below, sum =>
      let upTo := Elementary.exp (-lam * invPow2 v)
      weightFrom lam n (v + 1) upTo (sum + (upTo - below) * invPow2 v)

/-- The mean weight of a register that receives a Poisson number of items of mean `lam`. -/
@[specialize]
def meanWeight (lam : α) : α :=
  let zero := Elementary.exp (-lam)
  weightFrom lam (maxRegister - 1) 1 zero zero

/-- The raw estimate to be expected at node `i`. -/
@[specialize]
def tableNode (p : Precision) (i : Nat) : α :=
  let k : α := ((p.slots : Nat) : α)
  correctionFactor p.lg * k / meanWeight (((i * tableStride p : Nat) : α) / k)

/-- The table for `2 ^ p.lg` registers. -/
@[specialize]
def compositeTable (p : Precision) : Table α where
  size := tableSize p
  x i := tableNode p i
  stride := ((tableStride p : Nat) : α)
  four_le_size := four_le_tableSize p

end HyperLogLog
