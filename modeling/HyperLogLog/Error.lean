import HyperLogLog.Limits

/-!
# Errors

What a caller is told when an argument or a serialized image is refused: a cause, which fixes the
kind and the message, and a list of context entries in the order they were added.  Three renderings
exist: one line (`display`), a short report (`report`), and the structure written out (`pretty`).
-/

namespace HyperLogLog

/-- The two kinds of error. -/
inductive ErrorKind where
  | invalidArgument
  | invalidData
deriving DecidableEq, Repr

namespace ErrorKind

/-- The written name of a kind. -/
def name : ErrorKind → String
  | invalidArgument => "InvalidArgument"
  | invalidData => "InvalidData"

end ErrorKind

/-- Why something was refused. -/
inductive Cause where
  /-- Any other reason, in words. -/
  | other (kind : ErrorKind) (message : String)
  /-- The image ends before a field. -/
  | insufficientData (field : String)
  /-- The image is of another family of sketches. -/
  | invalidFamily (expected : Nat) (name : String) (actual : Nat)
  /-- The image is of another format version. -/
  | unsupportedSerialVersion (expected actual : Nat)
  /-- The preamble has another length. -/
  | invalidPreambleInts (expected actual : Nat)
  /-- A logarithm of the register count outside the supported range. -/
  | precision (lgK : Nat)
  /-- A number of standard deviations other than 1, 2 and 3. -/
  | standardDeviations (value : Nat)
deriving DecidableEq

namespace Cause

/-- The kind of a cause. -/
def kind : Cause → ErrorKind
  | other kind _ => kind
  | insufficientData _ | invalidFamily _ _ _ | unsupportedSerialVersion _ _
  | invalidPreambleInts _ _ => .invalidData
  | precision _ | standardDeviations _ => .invalidArgument

/-- The message of a cause. -/
def message : Cause → String
  | other _ message => message
  | insufficientData field => s!"insufficient data: {field}"
  | invalidFamily expected name actual =>
      s!"invalid family: expected {expected} ({name}), got {actual}"
  | unsupportedSerialVersion expected actual =>
      s!"unsupported serial version: expected {expected}, got {actual}"
  | invalidPreambleInts expected actual =>
      s!"invalid preamble ints: expected {expected}, got {actual}"
  | precision lgK => unsupportedLgK lgK
  | standardDeviations value => s!"num_std_dev must be 1, 2 or 3, got {value}"

end Cause

/-- A cause with the context it was met in. -/
structure Error where
  cause : Cause
  context : List (String × String) := []
deriving DecidableEq

namespace Error

/-- The kind of an error. -/
def kind (e : Error) : ErrorKind := e.cause.kind

/-- The message of an error. -/
def message (e : Error) : String := e.cause.message

/-- Adds a context entry after the others. -/
def withContext (e : Error) (key value : String) : Error :=
  { e with context := e.context ++ [(key, value)] }

/-- The first context value under a key. -/
def contextAt? (e : Error) (key : String) : Option String :=
  e.context.lookup key

/-- The message behind an arrow, or nothing if it is empty. -/
def arrowMessage (e : Error) : String :=
  if e.message.isEmpty then "" else " => " ++ e.message

/-- One line: the kind, the context in braces, the message. -/
def display (e : Error) : String :=
  let context :=
    if e.context.isEmpty then ""
    else
      ", context: \x7b " ++ ", ".intercalate (e.context.map fun (k, v) => k ++ ": " ++ v) ++ " \x7d"
  e.kind.name ++ context ++ e.arrowMessage

/-- A report: the kind and the message on the first line, then the context, an entry a line. -/
def report (e : Error) : String :=
  let context :=
    if e.context.isEmpty then ""
    else "\nContext:\n" ++ String.join (e.context.map fun (k, v) => s!"   {k}: {v}\n")
  e.kind.name ++ e.arrowMessage ++ "\n" ++ context

/-- The lower-case hexadecimal digits of a number. -/
def hexDigits (n : Nat) : String := .ofList (Nat.toDigits 16 n)

/-- The written form of a character inside quotes: the quote, the backslash and the control
characters are escaped. -/
def escape (c : Char) : String :=
  if c = '"' then "\\\""
  else if c = '\\' then "\\\\"
  else if c = '\t' then "\\t"
  else if c = '\n' then "\\n"
  else if c = '\r' then "\\r"
  else if c.toNat = 0 then "\\0"
  else if c.toNat < 32 ∨ c.toNat = 127 then "\\u\x7b" ++ hexDigits c.toNat ++ "\x7d"
  else c.toString

/-- A text in quotes. -/
def quote (s : String) : String :=
  "\"" ++ String.join (s.toList.map escape) ++ "\""

/-- A context entry written out over four lines. -/
def prettyEntry (entry : String × String) : String :=
  "        (\n            " ++ quote entry.1 ++ ",\n            " ++ quote entry.2
    ++ ",\n        ),\n"

/-- The fields written out, four spaces a level and a comma after each item. -/
def pretty (e : Error) : String :=
  let context :=
    if e.context.isEmpty then "[]"
    else "[\n" ++ String.join (e.context.map prettyEntry) ++ "    ]"
  "Error \x7b\n    kind: " ++ e.kind.name ++ ",\n    message: " ++ quote e.message
    ++ ",\n    context: " ++ context ++ ",\n\x7d"

end Error

end HyperLogLog
