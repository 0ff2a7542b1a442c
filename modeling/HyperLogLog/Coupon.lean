/-!
# Coupons

A coupon packs a slot and a register value into 32 bits: the slot in the low 26, the value in the
high 6.  The coupon of slot 0 and value 0 is all zeros and marks a vacant cell.
-/

namespace HyperLogLog

/-- A slot and a register value in one word. -/
structure Coupon where
  bits : UInt32
deriving DecidableEq

namespace Coupon

/-- The number of bits a coupon has for the slot. -/
def slotBits : Nat := 26

/-- The number of slots a coupon tells apart. -/
def slotRange : Nat := Nat.pow 2 slotBits

/-- The number of values a coupon tells apart. -/
def valueRange : Nat := Nat.pow 2 6

/-- The coupon of a slot and a value.  Bits of either that have no room are lost. -/
def pack (slot value : Nat) : Coupon :=
  ⟨.ofNat (value % valueRange * slotRange + slot % slotRange)⟩

/-- The slot of a coupon. -/
def slot (c : Coupon) : Nat := c.bits.toNat % slotRange

/-- The value of a coupon. -/
def value (c : Coupon) : Nat := c.bits.toNat / slotRange

/-- The coupon of a cell that holds nothing. -/
def vacant : Coupon := ⟨0⟩

/-- Whether a cell holds nothing. -/
def isVacant (c : Coupon) : Bool := c.bits == 0

end Coupon

end HyperLogLog
