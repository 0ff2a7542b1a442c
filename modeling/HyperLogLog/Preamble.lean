import HyperLogLog.Error

/-!
# The preamble of a serialized sketch

A serialized dense sketch begins with three bytes: the length of the preamble in four-byte
integers, the version of the format and the family of the sketch.  A reader checks that all three
are there, in this order, and only then that they have the right values, again in this order.
Whatever follows is not looked at.
-/

namespace HyperLogLog

/-- A family of sketches. -/
structure Family where
  id : Nat
  name : String
deriving DecidableEq

namespace Family

/-- The family of the sketches of this library. -/
def hll : Family := ⟨7, "HLL"⟩

/-- Refuses the identifier of another family. -/
def check (f : Family) (actual : Nat) : Except Error Unit :=
  if actual = f.id then .ok ()
  else .error { cause := .invalidFamily f.id f.name actual }

end Family

/-- The bytes of an image that are still to be read. -/
structure Reader where
  rest : List UInt8
deriving DecidableEq

namespace Reader

/-- Reads exactly `n` bytes, or none if fewer are left. -/
def take (r : Reader) (n : Nat) : Option (List UInt8 × Reader) :=
  let bytes := r.rest.take n
  if bytes.length = n then some (bytes, ⟨r.rest.drop n⟩) else none

/-- Reads one byte. -/
def next (r : Reader) : Option (UInt8 × Reader) :=
  match r.rest with
  | [] => none
  | b :: rest => some (b, ⟨rest⟩)

/-- Reads the byte of a named field. -/
def field (r : Reader) (name : String) : Except Error (Nat × Reader) :=
  match r.next with
  | none => .error { cause := .insufficientData name }
  | some (b, r) => .ok (b.toNat, r)

end Reader

namespace Preamble

/-- Where the length of the preamble is. -/
def preambleIntsOffset : Nat := 0

/-- Where the version of the format is. -/
def serialVersionOffset : Nat := 1

/-- Where the family is. -/
def familyOffset : Nat := 2

/-- The length of the preamble, in four-byte integers. -/
def preambleInts : Nat := 10

/-- The version of the format. -/
def serialVersion : Nat := 1

/-- Refuses a preamble of another length. -/
def checkPreambleInts (expected actual : Nat) : Except Error Unit :=
  if actual = expected then .ok ()
  else .error { cause := .invalidPreambleInts expected actual }

/-- Refuses another version of the format. -/
def checkSerialVersion (expected actual : Nat) : Except Error Unit :=
  if actual = expected then .ok ()
  else .error { cause := .unsupportedSerialVersion expected actual }

/-- Reads the three fields and then checks them. -/
def check (bytes : List UInt8) : Except Error Unit := do
  let r : Reader := ⟨bytes⟩
  let (ints, r) ← r.field "preamble_ints"
  let (version, r) ← r.field "serial_version"
  let (family, _) ← r.field "family_id"
  checkPreambleInts preambleInts ints
  checkSerialVersion serialVersion version
  Family.hll.check family

/-- Two lower-case hexadecimal digits. -/
def hexByte (b : UInt8) : String :=
  .ofList [Nat.digitChar (b.toNat / 16), Nat.digitChar (b.toNat % 16)]

/-- The length of an image and the bytes of its three fields, as far as it has them. -/
def describe (bytes : List UInt8) : String :=
  let head := ", ".intercalate ((bytes.take (familyOffset + 1)).map hexByte)
  s!"{bytes.length} bytes, preamble [{head}]"

/-- Checks the preamble of an image.  An error carries a description of the image. -/
def validate (bytes : List UInt8) : Except Error Unit :=
  match check bytes with
  | .ok () => .ok ()
  | .error e => .error (e.withContext "buffer" (describe bytes))

end Preamble

end HyperLogLog
