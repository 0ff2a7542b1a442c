import HyperLogLog.Error

/-!
# Confidence levels

Bounds on a cardinality are stated at one, two or three standard deviations.
-/

namespace HyperLogLog

/-- The width of a confidence interval, in standard deviations on each side. -/
inductive StandardDeviations where
  | one
  | two
  | three
deriving DecidableEq, Repr

namespace StandardDeviations

/-- The number of standard deviations. -/
def count : StandardDeviations → Nat
  | one => 1
  | two => 2
  | three => 3

/-- The confidence level of a number of standard deviations. -/
def ofCount (n : Nat) : Except Error StandardDeviations :=
  match n with
  | 1 => .ok one
  | 2 => .ok two
  | 3 => .ok three
  | n => .error { cause := .standardDeviations n }

end StandardDeviations

end HyperLogLog
