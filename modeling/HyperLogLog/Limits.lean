/-!
# Limits

The range of precisions a sketch supports and the range of values a register holds.
-/

namespace HyperLogLog

/-- The smallest supported logarithm of the register count. -/
def minLgK : Nat := 4

/-- The largest supported logarithm of the register count. -/
def maxLgK : Nat := 21

/-- The largest value a register holds, the largest six-bit number. -/
def maxRegister : Nat := 63

/-- The text for a logarithm of the register count outside the supported range. -/
def unsupportedLgK (lgK : Nat) : String :=
  s!"lg_config_k must be in [{minLgK}, {maxLgK}], got {lgK}"

end HyperLogLog
