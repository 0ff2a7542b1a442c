import HyperLogLog.OverflowMap.Basic
import HyperLogLog.Precision
import HyperLogLog.Registers.Nibbles

/-!
# Registers as offsets

The four-bit encoding.  A register is stored as its offset from the baseline.  An offset of 15 or
more does not fit: its nibble holds the marker 15 and the overflow map holds the register's value.

The baseline rises when no register is left on it: every stored offset falls by one, and an entry
whose offset has come down to 14 moves from the overflow map back into its nibble.  The array does
not know the baseline; whoever holds the array passes it in.
-/

namespace HyperLogLog

/-- The nibble of a register whose value is in the overflow map, and the first offset that does
not fit a nibble. -/
def marker : Nat := 15

/-- `2 ^ lgK` registers as offsets.  There is no overflow map until a register needs one. -/
structure OffsetArray where
  lgK : Nat
  nibbles : Nibbles
  overflow : Option OverflowMap

namespace OffsetArray

/-- All registers on the baseline. -/
def zeros (lgK : Nat) : OffsetArray := ⟨lgK, .zeros (Nat.pow 2 lgK), none⟩

/-- The slots and values of the overflow map, in cell order. -/
def entries (a : OffsetArray) : List (Nat × Nat) := (a.overflow.map OverflowMap.entries).getD []

/-- The value of a register. -/
def get (a : OffsetArray) (base slot : Nat) : Except Fault Nat :=
  match a.nibbles.get slot with
  | .error f => .error f
  | .ok offset =>
      if offset < marker then
        if base + offset < 256 then .ok (base + offset) else .error .overflow
      else
        match a.overflow with
        | none => .error (.entryMissing slot)
        | some m =>
            match m.get slot with
            | .error f => .error f
            | .ok none => .error (.entryMissing slot)
            | .ok (some value) => .ok value

/-- Stores the value of a register that has no overflow entry. -/
def store (base : Nat) (a : OffsetArray) (slot value : Nat) : Outcome OffsetArray :=
  match a with
  | ⟨lgK, nibbles, overflow⟩ =>
      if value < base then .faulted .underflow ⟨lgK, nibbles, overflow⟩
      else if nibbles.bytes.size ≤ slot / 2 then
        .faulted (.indexOutOfRange nibbles.bytes.size (slot / 2)) ⟨lgK, nibbles, overflow⟩
      else if value - base < marker then .done ⟨lgK, nibbles.set slot (value - base), overflow⟩
      else ((overflow.getD (.empty lgK)).insert slot value).map
        fun m => ⟨lgK, nibbles.set slot marker, some m⟩

/-- Changes the value of a register that has an overflow entry. -/
def restore (a : OffsetArray) (slot value : Nat) : Outcome OffsetArray :=
  match a with
  | ⟨lgK, nibbles, none⟩ => .faulted .mapMissing ⟨lgK, nibbles, none⟩
  | ⟨lgK, nibbles, some m⟩ => (m.replace slot value).map fun m => ⟨lgK, nibbles, some m⟩

/-- Writes a value above the baseline.  A register in the overflow map stays there until the
baseline moves, so a value that would fit its nibble is refused. -/
def put (a : OffsetArray) (base slot value : Nat) : Outcome OffsetArray :=
  if value ≤ base then .faulted (.notAboveBaseline base value) a
  else
    match a.nibbles.get slot with
    | .error f => .faulted f a
    | .ok offset =>
        if offset ≠ marker then a.store base slot value
        else if value - base < marker then .faulted .exceptionReturns a
        else a.restore slot value

/-- Stores a list of slots and values. -/
def storeAll (base : Nat) : List (Nat × Nat) → OffsetArray → Outcome OffsetArray :=
  Outcome.forEach fun a e => a.store base e.1 e.2

/-- The registers of the given values, on the baseline of their minimum. -/
def ofValues (lgK : Nat) (values : Array Nat) : Except Fault (OffsetArray × Baseline) :=
  let baseline := Baseline.ofMinimum values
  match storeAll baseline.value (values.toList.zipIdx.map Prod.swap) (zeros lgK) with
  | .faulted f _ => .error f
  | .done a => .ok (a, baseline)

/-- The same registers on a baseline that is higher by one, and the number of registers on it.
The entries are stored again over the lowered nibbles: one that fits a nibble now goes there, and
the others into a new overflow map. -/
def rise (a : OffsetArray) (base : Nat) : Except Fault (OffsetArray × Nat) :=
  if 0 < a.nibbles.countZeros then .error .onBaseline
  else
    let nibbles := a.nibbles.lowerAll
    let count := nibbles.countZeros
    match storeAll (base + 1) a.entries ⟨a.lgK, nibbles, none⟩ with
    | .faulted f _ => .error f
    | .done a => .ok (a, count)

/-- Raises the baseline until some register is on it. -/
def settle (a : OffsetArray) (b : Baseline) : Except Fault (OffsetArray × Baseline) :=
  if b.count ≠ 0 then .ok (a, b)
  else if 255 ≤ b.value then .error .overflow
  else
    match a.rise b.value with
    | .error f => .error f
    | .ok (a, count) => a.settle ⟨b.value + 1, count⟩
termination_by 255 - b.value

instance : BEq OffsetArray where
  beq a b := a.lgK == b.lgK && a.nibbles == b.nibbles && a.overflow == b.overflow

end OffsetArray

end HyperLogLog
