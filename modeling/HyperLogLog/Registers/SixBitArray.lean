import HyperLogLog.Fault

/-!
# Six-bit registers

Registers of six bits, packed without gaps: register `i` begins at bit `6 * i`, counted from the
low end of the first byte, and may run into the next byte.  It is read and written through the
two-byte window that begins at the byte its first bit is in.  A spare byte at the end keeps the
window of the last register inside the array.
-/

namespace HyperLogLog

/-- `2 ^ lgK` registers of six bits each. -/
structure SixBitArray where
  lgK : Nat
  bytes : Array UInt8
deriving DecidableEq

namespace SixBitArray

/-- The number of bytes for `n` registers, the spare byte included. -/
def byteCount (n : Nat) : Nat := n * 6 / 8 + 1

/-- All registers zero. -/
def zeros (lgK : Nat) : SixBitArray :=
  ⟨lgK, .replicate (byteCount (Nat.pow 2 lgK)) 0⟩

/-- The byte a register begins in. -/
def byteIndex (slot : Nat) : Nat := slot * 6 / 8

/-- The bit of that byte a register begins at. -/
def bitIndex (slot : Nat) : Nat := slot * 6 % 8

/-- The two bytes a register lies in, as one number. -/
def window (a : SixBitArray) (slot : Nat) : Except Fault Nat :=
  match a.bytes[byteIndex slot]? with
  | none => .error (.indexOutOfRange a.bytes.size (byteIndex slot))
  | some low =>
      match a.bytes[byteIndex slot + 1]? with
      | none => .error (.indexOutOfRange a.bytes.size (byteIndex slot + 1))
      | some high => .ok (low.toNat + high.toNat * 256)

/-- The six bits of a window from bit `shift` on. -/
def field (shift w : Nat) : Nat := w / Nat.pow 2 shift % 64

/-- The window with those six bits replaced. -/
def setField (shift v w : Nat) : Nat :=
  w / Nat.pow 2 (shift + 6) * Nat.pow 2 (shift + 6) + v % 64 * Nat.pow 2 shift +
    w % Nat.pow 2 shift

/-- The value of a register. -/
def get (a : SixBitArray) (slot : Nat) : Except Fault Nat :=
  match a.window slot with
  | .error f => .error f
  | .ok w => .ok (field (bitIndex slot) w)

/-- Writes two bytes back. -/
def setWindow (a : SixBitArray) (slot w : Nat) : SixBitArray :=
  { a with
    bytes := (a.bytes.setIfInBounds (byteIndex slot) (.ofNat w)).setIfInBounds
      (byteIndex slot + 1) (.ofNat (w / 256)) }

/-- Writes the value of a register. -/
def put (a : SixBitArray) (slot value : Nat) : Outcome SixBitArray :=
  if maxRegister < value then .faulted (.sixBits value) a
  else
    match a.window slot with
    | .error f => .faulted f a
    | .ok w => .done (a.setWindow slot (setField (bitIndex slot) value w))

/-- Writes a register that is still zero.  A zero is there already and nothing is touched. -/
def putFresh (a : SixBitArray) (slot value : Nat) : Outcome SixBitArray :=
  if value = 0 then .done a else a.put slot value

/-- The registers of the given values. -/
def ofValues (lgK : Nat) (values : Array Nat) : Except Fault SixBitArray :=
  (Outcome.forEach (fun a (e : Nat × Nat) => a.putFresh e.2 e.1) values.toList.zipIdx
    (zeros lgK)).toExcept

end SixBitArray

end HyperLogLog
