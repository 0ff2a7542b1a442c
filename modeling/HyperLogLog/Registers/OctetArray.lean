import HyperLogLog.Fault

/-!
# Byte registers

One byte a register.
-/

namespace HyperLogLog

/-- `2 ^ lgK` registers of a byte each. -/
structure OctetArray where
  lgK : Nat
  bytes : Array UInt8
deriving DecidableEq

namespace OctetArray

/-- All registers zero. -/
def zeros (lgK : Nat) : OctetArray := ⟨lgK, .replicate (Nat.pow 2 lgK) 0⟩

/-- The value of a register. -/
def get (a : OctetArray) (slot : Nat) : Except Fault Nat :=
  match a.bytes[slot]? with
  | none => .error (.indexOutOfRange a.bytes.size slot)
  | some b => .ok b.toNat

/-- Writes the value of a register. -/
def put (a : OctetArray) (slot value : Nat) : Outcome OctetArray :=
  if slot < a.bytes.size then .done { a with bytes := a.bytes.setIfInBounds slot (.ofNat value) }
  else .faulted (.indexOutOfRange a.bytes.size slot) a

/-- The registers of the given values. -/
def ofValues (lgK : Nat) (values : Array Nat) : OctetArray := ⟨lgK, values.map .ofNat⟩

end OctetArray

end HyperLogLog
