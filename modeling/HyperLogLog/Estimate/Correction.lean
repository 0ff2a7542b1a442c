import HyperLogLog.Arith

/-!
# The correction factor

The raw estimate of a sketch overshoots by a factor that depends on the number of registers only.
-/

namespace HyperLogLog

variable {α : Type} [Arith α]

/-- The factor that removes the bias of the raw estimate with `2 ^ lgK` registers: measured for
the three smallest sketches, and a fitted curve from there on. -/
def correctionFactor (lgK : Nat) : α :=
  match lgK with
  | 4 => 0.673
  | 5 => 0.697
  | 6 => 0.709
  | lgK => 0.7213 / (((1 : Nat) : α) + 1.079 / ((Nat.pow 2 lgK : Nat) : α))

end HyperLogLog
