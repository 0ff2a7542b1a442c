import HyperLogLog.Accumulator.Estimate
import HyperLogLog.Registers.Basic

/-!
# Sketches

A sketch is a bank of registers with the statistics of their raises.  An update names a slot and a
value; it raises the register if the value is above it and is ignored otherwise.  Every raise is
reported to the accumulator before the register is written, and a register that leaves the
baseline may let the baseline rise.
-/

namespace HyperLogLog

/-- Registers and their statistics. -/
structure Sketch (α : Type) where
  registers : Registers
  accumulator : Accumulator α

namespace Sketch

variable {α : Type}

/-- The logarithm of the register count. -/
def lgK (s : Sketch α) : Nat := s.registers.lgK

/-- The number of registers. -/
def slots (s : Sketch α) : Nat := Nat.pow 2 s.lgK

/-- How the registers are stored. -/
def encoding (s : Sketch α) : Encoding := s.registers.encoding

/-- The baseline of the registers. -/
def baseline (s : Sketch α) : Baseline := s.accumulator.baseline

/-- The value of a register. -/
def get (s : Sketch α) (slot : Nat) : Except Fault Nat :=
  if s.slots ≤ slot then .error (.slotOutOfRange s.slots slot)
  else s.registers.get s.baseline.value slot

/-- The values of all registers, in slot order. -/
def values (s : Sketch α) : Except Fault (Array Nat) :=
  s.registers.values s.baseline.value

/-- The slots and values of the overflow map, in cell order. -/
def entries (s : Sketch α) : List (Nat × Nat) := s.registers.entries

/-- The slots and values of the overflow map, in the order of the slots. -/
def overflowEntries (s : Sketch α) : List (Nat × Nat) := s.registers.overflowEntries

/-- The number of overflow entries. -/
def overflowCount (s : Sketch α) : Nat := s.registers.overflowCount

/-- Where the registers begin in a serialized sketch. -/
def registersOffset : Nat := 40

/-- The number of bytes of a serialized overflow entry. -/
def entrySize : Nat := 4

/-- The number of bytes of the serialized sketch. -/
def serializedSize (s : Sketch α) : Nat :=
  registersOffset + s.registers.byteLength + s.overflowCount * entrySize

/-- Stops consulting the historic estimate. -/
def markOutOfOrder (s : Sketch α) : Sketch α :=
  { s with accumulator := s.accumulator.markOutOfOrder }

/-- The sketch in an encoding.  Its statistics stay, and its baseline becomes the one the
encoding keeps. -/
def convert (s : Sketch α) (e : Encoding) : Except Fault (Sketch α) :=
  if e = s.encoding then .ok s
  else
    match s.registers.convert s.baseline.value e with
    | .error f => .error f
    | .ok (registers, b) => .ok ⟨registers, s.accumulator.withBaseline b⟩

instance [BEq α] : BEq (Sketch α) where
  beq s t := s.accumulator == t.accumulator && s.registers == t.registers

variable [Arith α]

/-- The sketch of a supported precision with all registers zero. -/
@[specialize]
def empty (p : Precision) (e : Encoding) : Sketch α :=
  ⟨.zeros p.lg e, .empty p⟩

/-- The sketch with `2 ^ lgK` registers, all zero.  An unsupported precision is a fault. -/
@[specialize]
def new (lgK : Nat) (e : Encoding) : Except Fault (Sketch α) :=
  match Precision.ofNat? lgK with
  | none => .error (.precision lgK)
  | some p => .ok (empty p e)

/-- The sketch with `2 ^ lgK` registers, all zero.  An unsupported precision is refused. -/
@[specialize]
def tryNew (lgK : Nat) (e : Encoding) : Except Error (Sketch α) :=
  match Precision.ofNat? lgK with
  | none => .error ({ cause := .precision lgK : Error }.withContext "hll_type" e.name)
  | some p => .ok (empty p e)

/-- Reports a raise to the accumulator. -/
@[specialize]
def report (s : Sketch α) (old new : Nat) : Outcome (Sketch α) :=
  match s with
  | ⟨registers, accumulator⟩ => (accumulator.raise old new).map fun a => ⟨registers, a⟩

/-- Writes a register. -/
def write (s : Sketch α) (slot value : Nat) : Outcome (Sketch α) :=
  match s with
  | ⟨registers, accumulator⟩ =>
      (registers.put accumulator.baseline.value slot value).map fun r => ⟨r, accumulator⟩

/-- Lets the baseline rise until some register is on it again. -/
def settle (s : Sketch α) : Outcome (Sketch α) :=
  match s.registers.settle s.baseline with
  | .error f => .faulted f s
  | .ok (registers, b) => (s.accumulator.rebase b).map fun a => ⟨registers, a⟩

/-- Accounts for one register that has left the baseline. -/
def leaveBaseline (s : Sketch α) : Outcome (Sketch α) :=
  (s.accumulator.leaveBaseline.map fun a => { s with accumulator := a }).andThen settle

/-- Raises a register from `old` to `new`. -/
@[specialize]
def raise (s : Sketch α) (slot old new : Nat) : Outcome (Sketch α) :=
  ((s.report old new).andThen fun s => s.write slot new).andThen fun s =>
    if old = s.baseline.value then s.leaveBaseline else .done s

/-- Raises the register of a slot to a value, unless it is there already. -/
@[specialize]
def update (s : Sketch α) (slot value : Nat) : Outcome (Sketch α) :=
  if maxRegister < value then .faulted (.valueTooLarge value) s
  else if s.slots ≤ slot then .faulted (.slotOutOfRange s.slots slot) s
  else
    match s.registers.get s.baseline.value slot with
    | .error f => .faulted f s
    | .ok old => if value ≤ old then .done s else s.raise slot old value

end Sketch

end HyperLogLog
