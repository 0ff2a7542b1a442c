import HyperLogLog.Preamble
import Mathlib.Data.Nat.Digits.Defs

/-!
# The preamble of a serialized sketch — what is accepted and what is told

A reader of an image is told of the first field that is missing, or, when none is, of the first one
that holds another byte than its own.  No field is looked at while one is missing, so a short image
is told of what it lacks and not of what is wrong with the rest; and nothing behind the fields is
looked at.

* `checkInTurn_spec`: checks of one byte after the other accept the bytes of their fields, and stop
  at the first mismatch.
* `validate_spec`: an image is accepted just when it begins with the bytes of the fields; an error
  tells of the first field that is missing or mismatched, and its context is one entry, the length
  and the first bytes of the image.
-/

namespace HyperLogLog.Preamble

/-- What a field is called, the byte it holds, and what is said of another byte. -/
structure Field where
  name : String
  expected : UInt8
  refusal : UInt8 → String

/-- The fields, in the order of their bytes. -/
def fields : List Field :=
  [⟨"preamble_ints", 10, fun b => s!"invalid preamble ints: expected 10, got {b.toNat}"⟩,
    ⟨"serial_version", 1, fun b => s!"unsupported serial version: expected 1, got {b.toNat}"⟩,
    ⟨"family_id", 7, fun b => s!"invalid family: expected 7 (HLL), got {b.toNat}"⟩]

/-- What is told of the first field that has no byte. -/
inductive FirstMissing : List Field → List UInt8 → (message : String) → Prop where
  | head {f : Field} {fs : List Field} : FirstMissing (f :: fs) [] s!"insufficient data: {f.name}"
  | tail {f : Field} {fs : List Field} {b : UInt8} {bytes : List UInt8} {message : String}
      (h : FirstMissing fs bytes message) : FirstMissing (f :: fs) (b :: bytes) message

/-- What is told of the first field that has another byte than its own. -/
inductive FirstMismatch : List Field → List UInt8 → (message : String) → Prop where
  | head {f : Field} {fs : List Field} {b : UInt8} {bytes : List UInt8} (h : b ≠ f.expected) :
      FirstMismatch (f :: fs) (b :: bytes) (f.refusal b)
  | tail {f : Field} {fs : List Field} {bytes : List UInt8} {message : String}
      (h : FirstMismatch fs bytes message) : FirstMismatch (f :: fs) (f.expected :: bytes) message

theorem FirstMissing.unique {fs : List Field} {bytes : List UInt8} {message message' : String}
    (h : FirstMissing fs bytes message) (h' : FirstMissing fs bytes message') :
    message = message' := by
  induction h with
  | head => cases h'; rfl
  | tail _ ih => cases h' with | tail h' => exact ih h'

theorem FirstMismatch.unique {fs : List Field} {bytes : List UInt8} {message message' : String}
    (h : FirstMismatch fs bytes message) (h' : FirstMismatch fs bytes message') :
    message = message' := by
  induction h with
  | head hne =>
      cases h' with
      | head => rfl
      | tail => exact absurd rfl hne
  | tail _ ih =>
      cases h' with
      | head hne => exact absurd rfl hne
      | tail h' => exact ih h'

/-! ### The check of a field -/

/-- A check accepts the byte of a field and refuses any other in the words of the field. -/
def Field.CheckedBy (f : Field) (check : Nat → Except Error Unit) : Prop :=
  check f.expected.toNat = .ok () ∧ ∀ b : UInt8, b ≠ f.expected →
    ∃ c : Cause, check b.toNat = .error { cause := c } ∧ c.kind = .invalidData ∧
      c.message = f.refusal b

theorem Field.checkedBy {f : Field} {check : Nat → Except Error Unit} {cause : Nat → Cause}
    (hcheck : ∀ n, check n =
      if n = f.expected.toNat then .ok () else .error { cause := cause n })
    (hkind : ∀ n, (cause n).kind = .invalidData)
    (hmessage : ∀ b : UInt8, (cause b.toNat).message = f.refusal b) : f.CheckedBy check := by
  refine ⟨by rw [hcheck, if_pos rfl], fun b hne => ⟨cause b.toNat, ?_, hkind _, hmessage b⟩⟩
  rw [hcheck, if_neg fun h => hne (UInt8.toNat_inj.mp h)]

theorem preambleInts_checkedBy : fields[0].CheckedBy (checkPreambleInts preambleInts) := by
  refine Field.checkedBy (fun _ => rfl) (fun _ => rfl) fun b => ?_
  have htext : "invalid preamble ints: expected " ++ toString preambleInts ++ ", got " =
      "invalid preamble ints: expected 10, got " := by decide
  exact congrArg (· ++ toString b.toNat) htext

theorem serialVersion_checkedBy : fields[1].CheckedBy (checkSerialVersion serialVersion) := by
  refine Field.checkedBy (fun _ => rfl) (fun _ => rfl) fun b => ?_
  have htext : "unsupported serial version: expected " ++ toString serialVersion ++ ", got " =
      "unsupported serial version: expected 1, got " := by decide
  exact congrArg (· ++ toString b.toNat) htext

theorem family_checkedBy : fields[2].CheckedBy Family.hll.check := by
  refine Field.checkedBy (fun _ => rfl) (fun _ => rfl) fun b => ?_
  have htext : "invalid family: expected " ++ toString Family.hll.id ++ " (" ++ Family.hll.name ++
      "), got " = "invalid family: expected 7 (HLL), got " := by decide
  exact congrArg (· ++ toString b.toNat) htext

/-! ### The check of all fields -/

/-- Checks one byte after the other. -/
def checkInTurn : List (Nat → Except Error Unit) → List UInt8 → Except Error Unit
  | check :: checks, b :: bytes => check b.toNat >>= fun _ => checkInTurn checks bytes
  | _, _ => .ok ()

/-- **Checks in turn** accept the bytes of their fields and stop at the first mismatch. -/
theorem checkInTurn_spec {fs : List Field} {checks : List (Nat → Except Error Unit)}
    (h : List.Forall₂ Field.CheckedBy fs checks) {bytes : List UInt8}
    (hlen : fs.length ≤ bytes.length) :
    fs.map Field.expected <+: bytes ∧ checkInTurn checks bytes = .ok () ∨
      ¬ fs.map Field.expected <+: bytes ∧ ∃ c : Cause,
        checkInTurn checks bytes = .error { cause := c } ∧ c.kind = .invalidData ∧
          FirstMismatch fs bytes c.message := by
  induction h generalizing bytes with
  | nil => exact .inl ⟨List.nil_prefix, by simp [checkInTurn]⟩
  | @cons f check fs checks hf _ ih =>
      obtain _ | ⟨b, bytes⟩ := bytes
      · exact absurd hlen (Nat.not_succ_le_zero _)
      rw [List.map_cons, List.cons_prefix_cons, checkInTurn]
      by_cases hb : b = f.expected
      · subst hb
        rw [hf.1]
        rcases ih (Nat.le_of_succ_le_succ hlen) with ⟨hbegin, hok⟩ | ⟨hbegin, c, hc, hkind, hm⟩
        · exact .inl ⟨⟨rfl, hbegin⟩, hok⟩
        · exact .inr ⟨fun h => hbegin h.2, c, hc, hkind, .tail hm⟩
      · obtain ⟨c, hc, hkind, hmessage⟩ := hf.2 b hb
        rw [hc]
        exact .inr ⟨fun h => hb h.1.symm, c, rfl, hkind, hmessage ▸ .head hb⟩

/-- When no field is missing, each is checked in turn. -/
theorem check_cons (ints version family : UInt8) (rest : List UInt8) :
    check (ints :: version :: family :: rest) =
      checkInTurn [checkPreambleInts preambleInts, checkSerialVersion serialVersion,
        Family.hll.check] (ints :: version :: family :: rest) := by
  -- the last check has the last word
  have hlast : Family.hll.check family.toNat =
      Family.hll.check family.toNat >>= fun _ => .ok () := bind_pure_unit.symm
  have hcheck : check (ints :: version :: family :: rest) =
      checkPreambleInts preambleInts ints.toNat >>= fun _ =>
        checkSerialVersion serialVersion version.toNat >>= fun _ =>
          Family.hll.check family.toNat := rfl
  rw [hcheck, hlast]
  simp only [checkInTurn]

theorem check_of_length_le {bytes : List UInt8} (hlen : 3 ≤ bytes.length) :
    [10, 1, 7] <+: bytes ∧ check bytes = .ok () ∨
      ¬ [10, 1, 7] <+: bytes ∧ ∃ c : Cause, check bytes = .error { cause := c } ∧
        c.kind = .invalidData ∧ FirstMismatch fields bytes c.message := by
  obtain ⟨ints, version, family, rest, rfl⟩ :
      ∃ ints version family rest, bytes = ints :: version :: family :: rest := by
    match bytes, hlen with
    | ints :: version :: family :: rest, _ => exact ⟨ints, version, family, rest, rfl⟩
  have hchecks : List.Forall₂ Field.CheckedBy fields [checkPreambleInts preambleInts,
      checkSerialVersion serialVersion, Family.hll.check] :=
    .cons preambleInts_checkedBy (.cons serialVersion_checkedBy (.cons family_checkedBy .nil))
  rw [check_cons]
  exact checkInTurn_spec hchecks hlen

theorem check_of_length_lt {bytes : List UInt8} (hlen : bytes.length < 3) :
    ∃ c : Cause, check bytes = .error { cause := c } ∧ c.kind = .invalidData ∧
      FirstMissing fields bytes c.message := by
  match bytes, hlen with
  | [], _ => exact ⟨_, rfl, rfl, .head⟩
  | [_], _ => exact ⟨_, rfl, rfl, .tail .head⟩
  | [_, _], _ => exact ⟨_, rfl, rfl, .tail (.tail .head)⟩

/-! ### The description of an image -/

/-- The hexadecimal digits of a byte, with a zero before a single one. -/
def twoDigits (b : UInt8) : String := .ofList ((Nat.toDigits 16 b.toNat).leftpad 2 '0')

theorem hexByte_eq (b : UInt8) : hexByte b = twoDigits b := by
  rw [hexByte, twoDigits]
  by_cases h : b.toNat < 16
  · rw [Nat.toDigits_of_lt_base h, Nat.div_eq_of_lt h, Nat.mod_eq_of_lt h]
    rfl
  · have hhigh : b.toNat / 16 < 16 := by
      have := b.toNat_lt
      omega
    rw [Nat.toDigits_of_base_le (by decide) (Nat.le_of_not_lt h), Nat.toDigits_of_lt_base hhigh]
    rfl

theorem describe_eq (bytes : List UInt8) :
    describe bytes = s!"{bytes.length} bytes, preamble [" ++
      ", ".intercalate ((bytes.take 3).map twoDigits) ++ "]" := by
  have hhex : hexByte = twoDigits := funext hexByte_eq
  rw [describe, hhex]
  rfl

/-! ### The preamble -/

/-- **An image is accepted** just when it begins with the bytes of the three fields.  Any other is
refused, for the first field that it lacks or else for the first that is wrong in it, with a
description of the image. -/
theorem validate_spec (bytes : List UInt8) :
    (validate bytes = .ok () ↔ [10, 1, 7] <+: bytes) ∧
      (¬ [10, 1, 7] <+: bytes → ∃ e, validate bytes = .error e ∧ e.kind = .invalidData ∧
        (bytes.length < 3 → FirstMissing fields bytes e.message) ∧
        (3 ≤ bytes.length → FirstMismatch fields bytes e.message) ∧
        e.context = [("buffer", s!"{bytes.length} bytes, preamble [" ++
          ", ".intercalate ((bytes.take 3).map twoDigits) ++ "]")]) := by
  rw [← describe_eq]
  rcases Nat.lt_or_ge bytes.length 3 with hlen | hlen
  · obtain ⟨c, hc, hkind, hmissing⟩ := check_of_length_lt hlen
    have hshort : ¬ [10, 1, 7] <+: bytes := fun h => hlen.not_ge h.length_le
    rw [validate, hc]
    exact ⟨iff_of_false nofun hshort, fun _ =>
      ⟨_, rfl, hkind, fun _ => hmissing, fun h => absurd h hlen.not_ge, rfl⟩⟩
  · rcases check_of_length_le hlen with ⟨hbegin, hok⟩ | ⟨hbegin, c, hc, hkind, hmismatch⟩
    · rw [validate, hok]
      exact ⟨iff_of_true rfl hbegin, fun h => absurd hbegin h⟩
    · rw [validate, hc]
      exact ⟨iff_of_false nofun hbegin, fun _ =>
        ⟨_, rfl, hkind, fun h => absurd hlen h.not_ge, fun _ => hmismatch, rfl⟩⟩

/-- Two bytes of which both are wrong, and three of which the last two are. -/
theorem validate_spec_wrong :
    (∃ e, validate [9, 2] = .error e ∧ e.message = "insufficient data: family_id" ∧
      e.context = [("buffer", "2 bytes, preamble [09, 02]")]) ∧
    ∃ e, validate [10, 255, 3] = .error e ∧
      e.message = "unsupported serial version: expected 1, got 255" ∧
      e.context = [("buffer", "3 bytes, preamble [0a, ff, 03]")] := by
  constructor
  · obtain ⟨e, he, -, hmissing, -, hcontext⟩ := (validate_spec [9, 2]).2 (by decide)
    have hmessage := (hmissing (by decide)).unique (.tail (.tail .head))
    exact ⟨e, he, hmessage.trans (by decide), hcontext.trans (by decide)⟩
  · obtain ⟨e, he, -, -, hmismatch, hcontext⟩ := (validate_spec [10, 255, 3]).2 (by decide)
    have hmessage := (hmismatch (by decide)).unique (.tail (.head (by decide)))
    exact ⟨e, he, hmessage.trans (by decide), hcontext.trans (by decide)⟩

end HyperLogLog.Preamble
