import HyperLogLog.Fault

/-!
# Nibbles

An array of four-bit numbers, two to a byte: the even index in the low half, the odd one in the
high half.
-/

namespace HyperLogLog

/-- Four-bit numbers, packed in pairs. -/
structure Nibbles where
  bytes : Array UInt8
deriving DecidableEq

namespace Nibbles

/-- `n` zeros, for an even `n`. -/
def zeros (n : Nat) : Nibbles := ⟨.replicate (n / 2) 0⟩

/-- The half of a byte that an index of this parity names. -/
def half (i : Nat) (b : UInt8) : Nat :=
  if i % 2 = 0 then b.toNat % 16 else b.toNat / 16

/-- The byte with that half replaced. -/
def setHalf (i v : Nat) (b : UInt8) : UInt8 :=
  if i % 2 = 0 then .ofNat (b.toNat / 16 * 16 + v % 16)
  else .ofNat (v % 16 * 16 + b.toNat % 16)

/-- The number at an index. -/
def get (a : Nibbles) (i : Nat) : Except Fault Nat :=
  match a.bytes[i / 2]? with
  | none => .error (.indexOutOfRange a.bytes.size (i / 2))
  | some b => .ok (half i b)

/-- Replaces the number at an index, if the array has one there. -/
def set (a : Nibbles) (i v : Nat) : Nibbles :=
  ⟨a.bytes.modify (i / 2) (setHalf i v)⟩

/-- One less, except that the marker 15 stays. -/
def lower (v : Nat) : Nat :=
  if v = 15 then 15 else v - 1

/-- Lowers every number. -/
def lowerAll (a : Nibbles) : Nibbles :=
  ⟨a.bytes.map fun b => .ofNat (lower (b.toNat / 16) * 16 + lower (b.toNat % 16))⟩

/-- The number of zeros in a byte. -/
def zerosIn (b : UInt8) : Nat :=
  (if b.toNat % 16 = 0 then 1 else 0) + (if b.toNat / 16 = 0 then 1 else 0)

/-- The number of zeros. -/
def countZeros (a : Nibbles) : Nat :=
  a.bytes.foldl (fun n b => n + zerosIn b) 0

end Nibbles

end HyperLogLog
