import HyperLogLog.Registers.OctetArray
import HyperLogLog.Registers.OffsetArray
import HyperLogLog.Registers.SixBitArray

/-!
# Registers

The registers of a sketch in any of the three encodings, behind one interface: read a register,
write one, list them all, re-encode them.  Only the four-bit encoding consults the baseline.
-/

namespace HyperLogLog

/-- The registers of a sketch. -/
inductive Registers where
  | offsets (a : OffsetArray)
  | sixBit (a : SixBitArray)
  | octets (a : OctetArray)

namespace Registers

/-- All registers zero. -/
def zeros (lgK : Nat) : Encoding → Registers
  | .hll4 => offsets (.zeros lgK)
  | .hll6 => sixBit (.zeros lgK)
  | .hll8 => octets (.zeros lgK)

/-- How the registers are stored. -/
def encoding : Registers → Encoding
  | offsets _ => .hll4
  | sixBit _ => .hll6
  | octets _ => .hll8

/-- The logarithm of the register count. -/
def lgK : Registers → Nat
  | offsets a => a.lgK
  | sixBit a => a.lgK
  | octets a => a.lgK

/-- The value of a register. -/
def get (r : Registers) (base slot : Nat) : Except Fault Nat :=
  match r with
  | offsets a => a.get base slot
  | sixBit a => a.get slot
  | octets a => a.get slot

/-- Writes the value of a register. -/
def put (r : Registers) (base slot value : Nat) : Outcome Registers :=
  match r with
  | offsets a => (a.put base slot value).map offsets
  | sixBit a => (a.put slot value).map sixBit
  | octets a => (a.put slot value).map octets

/-- Appends the values of the next `n` registers. -/
def valuesFrom (r : Registers) (base : Nat) : (n : Nat) → Array Nat → Except Fault (Array Nat)
  | 0, read => .ok read
  | n + 1, read =>
      match r.get base read.size with
      | .error f => .error f
      | .ok value => r.valuesFrom base n (read.push value)

/-- The values of all registers, in slot order. -/
def values (r : Registers) (base : Nat) : Except Fault (Array Nat) :=
  r.valuesFrom base (Nat.pow 2 r.lgK) (.emptyWithCapacity (Nat.pow 2 r.lgK))

/-- The number of bytes of the packed registers, overflow entries left out. -/
def byteLength : Registers → Nat
  | offsets a => a.nibbles.bytes.size
  | sixBit a => a.bytes.size
  | octets a => a.bytes.size

/-- The overflow map, if there is one. -/
def overflow? : Registers → Option OverflowMap
  | offsets a => a.overflow
  | sixBit _ | octets _ => none

/-- The number of overflow entries. -/
def overflowCount (r : Registers) : Nat :=
  (r.overflow?.map OverflowMap.count).getD 0

/-- The slots and values of the overflow map, in cell order. -/
def entries (r : Registers) : List (Nat × Nat) :=
  (r.overflow?.map OverflowMap.entries).getD []

/-- The slots and values of the overflow map, in the order of the slots. -/
def overflowEntries (r : Registers) : List (Nat × Nat) :=
  r.entries.mergeSort OverflowMap.entryLe

/-- The registers of the given values in an encoding, with the baseline that encoding keeps:
the minimum for offsets, zero for the others.  There has to be a value for each register. -/
def ofValues (lgK : Nat) (values : Array Nat) (e : Encoding) :
    Except Fault (Registers × Baseline) :=
  if values.size ≠ Nat.pow 2 lgK then .error (.valueCount (Nat.pow 2 lgK) values.size)
  else
    match e with
    | .hll4 =>
        match OffsetArray.ofValues lgK values with
        | .error f => .error f
        | .ok (a, b) => .ok (offsets a, b)
    | .hll6 =>
        match SixBitArray.ofValues lgK values with
        | .error f => .error f
        | .ok a => .ok (sixBit a, .ofZeros values)
    | .hll8 => .ok (octets (.ofValues lgK values), .ofZeros values)

/-- The same registers in another encoding, with the baseline that encoding keeps. -/
def convert (r : Registers) (base : Nat) (e : Encoding) : Except Fault (Registers × Baseline) :=
  match r.values base with
  | .error f => .error f
  | .ok values => ofValues r.lgK values e

/-- Raises the baseline of offsets until some register is on it.  The other encodings keep
theirs. -/
def settle (r : Registers) (b : Baseline) : Except Fault (Registers × Baseline) :=
  match r with
  | offsets a =>
      match a.settle b with
      | .error f => .error f
      | .ok (a, b) => .ok (offsets a, b)
  | sixBit _ | octets _ => .ok (r, b)

instance : BEq Registers where
  beq
    | offsets a, offsets b => a == b
    | sixBit a, sixBit b => a == b
    | octets a, octets b => a == b
    | _, _ => false

end Registers

end HyperLogLog
