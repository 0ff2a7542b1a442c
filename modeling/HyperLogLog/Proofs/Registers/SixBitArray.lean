import HyperLogLog.Registers.SixBitArray
import HyperLogLog.Proofs.Outcome
import HyperLogLog.Proofs.Registers.Bank
import Mathlib.Data.List.Basic
import Mathlib.Data.Nat.Digits.Defs
import Mathlib.Tactic.Linarith
import Mathlib.Tactic.Ring

/-!
# Six-bit registers — one number in two bases

The bytes of a six-bit array are the digits of one number in base 256 (`number`), and the registers
are its digits in base 64.  An array *holds* a bank when the two readings agree.

* `window_eq`: a window is two neighbouring digits in base 256, and the field of a register in it
  is the register's digit in base 64 (`field_window`).
* `number_setWindow`: replacing the field adds `64 ^ slot` times the difference of the values, so
  the other registers stay, wherever the byte borders fall.
* `Holds.get`, `Holds.put`, `ofValues_done`: reading, writing and building, on the bank.
* `Holds.eq`: the bytes are determined by the bank, the spare byte included.
-/

namespace HyperLogLog.SixBitArray

variable {p : Precision} {b : Bank p} {a : SixBitArray} {slot value : Nat}

/-! ### Digits -/

theorem ofDigits_eq (base : Nat) {l : List Nat} {i : Nat} (h : i < l.length) :
    Nat.ofDigits base l = Nat.ofDigits base (l.take i) +
      base ^ i * (l[i] + base * Nat.ofDigits base (l.drop (i + 1))) := by
  conv_lhs => rw [← List.take_append_drop i l, List.drop_eq_getElem_cons h]
  rw [Nat.ofDigits_append, Nat.ofDigits_cons, List.length_take_of_le h.le]

/-- Replacing a digit. -/
theorem ofDigits_set (base : Nat) {l : List Nat} {i : Nat} (x : Nat) (h : i < l.length) :
    Nat.ofDigits base (l.set i x) + base ^ i * l[i] = Nat.ofDigits base l + base ^ i * x := by
  have hset : i < (l.set i x).length := by rwa [List.length_set]
  rw [ofDigits_eq base h, ofDigits_eq base hset, List.take_set_of_le (Nat.le_refl i),
    List.drop_set_of_lt (Nat.lt_succ_self i), List.getElem_set_self]
  ring

/-- Reading a digit and all that follow. -/
theorem ofDigits_div_pow {base : Nat} {l : List Nat} {i : Nat} (hb : 0 < base)
    (hl : ∀ d ∈ l, d < base) (h : i < l.length) :
    Nat.ofDigits base l / base ^ i = l[i] + base * Nat.ofDigits base (l.drop (i + 1)) := by
  rw [Nat.ofDigits_div_pow_eq_ofDigits_drop i hb l hl, List.drop_eq_getElem_cons h,
    Nat.ofDigits_cons]

/-! ### Fields of a window -/

/-- A register begins at an even bit of its byte. -/
theorem bitIndex_cases (slot : Nat) :
    bitIndex slot = 0 ∨ bitIndex slot = 2 ∨ bitIndex slot = 4 ∨ bitIndex slot = 6 := by
  rw [bitIndex]
  omega

/-- The place of a register, in bytes and bits and in registers. -/
theorem pow_place (slot : Nat) : 256 ^ byteIndex slot * 2 ^ bitIndex slot = 64 ^ slot := by
  have h : 8 * byteIndex slot + bitIndex slot = 6 * slot := by rw [byteIndex, bitIndex]; omega
  rw [show (256 : Nat) = 2 ^ 8 from rfl, show (64 : Nat) = 2 ^ 6 from rfl, ← pow_mul, ← pow_add,
    h, pow_mul]

theorem setField_lt {w v : Nat} (hw : w < 65536) (slot : Nat) :
    setField (bitIndex slot) v w < 65536 := by
  rcases bitIndex_cases slot with h | h | h | h <;>
    simp only [setField, Nat.pow_eq, h] <;> omega

theorem setField_add {w v : Nat} (hv : v < 64) (slot : Nat) :
    setField (bitIndex slot) v w + 2 ^ bitIndex slot * field (bitIndex slot) w =
      w + 2 ^ bitIndex slot * v := by
  rcases bitIndex_cases slot with h | h | h | h <;>
    simp only [setField, field, Nat.pow_eq, h] <;> omega

/-- The digit of a register in a number, seen through the window of its first byte. -/
theorem field_window (slot n : Nat) :
    field (bitIndex slot) (n / 256 ^ byteIndex slot % 65536) = n / 64 ^ slot % 64 := by
  rw [← pow_place, ← Nat.div_div_eq_div_mul]
  generalize n / 256 ^ byteIndex slot = x
  rcases bitIndex_cases slot with h | h | h | h <;>
    simp only [field, Nat.pow_eq, h] <;> omega

/-! ### The number of an array -/

/-- The bytes as digits in base 256. -/
def digits (a : SixBitArray) : List Nat := a.bytes.toList.map UInt8.toNat

/-- The number whose digits in base 256 are the bytes. -/
def number (a : SixBitArray) : Nat := Nat.ofDigits 256 a.digits

theorem digits_lt {d : Nat} (h : d ∈ a.digits) : d < 256 := by
  obtain ⟨c, -, rfl⟩ := List.mem_map.mp h
  exact UInt8.toNat_lt c

theorem length_digits (a : SixBitArray) : a.digits.length = a.bytes.size := by
  rw [digits, List.length_map, Array.length_toList]

theorem digits_setWindow (a : SixBitArray) (slot w : Nat) :
    (a.setWindow slot w).digits =
      (a.digits.set (byteIndex slot) (w % 256)).set (byteIndex slot + 1) (w / 256 % 256) := by
  simp only [digits, setWindow, Array.toList_setIfInBounds, List.map_set, UInt8.toNat_ofNat']

theorem size_setWindow (a : SixBitArray) (slot w : Nat) :
    (a.setWindow slot w).bytes.size = a.bytes.size := by
  rw [← length_digits, digits_setWindow, List.length_set, List.length_set, length_digits]

/-- The window of a register in the number: two neighbouring digits. -/
theorem number_div_pow (h : byteIndex slot + 1 < a.digits.length) :
    a.number / 256 ^ byteIndex slot % 65536 =
      a.digits[byteIndex slot] + 256 * a.digits[byteIndex slot + 1] := by
  have h₀ : byteIndex slot < a.digits.length := Nat.lt_of_succ_lt h
  have hlt₀ : a.digits[byteIndex slot] < 256 := digits_lt (List.getElem_mem h₀)
  have hlt₁ : a.digits[byteIndex slot + 1] < 256 := digits_lt (List.getElem_mem h)
  rw [number, ofDigits_div_pow (by decide) (fun d hd => digits_lt hd) h₀,
    List.drop_eq_getElem_cons h, Nat.ofDigits_cons]
  generalize Nat.ofDigits 256 _ = r
  omega

/-- **A window is two digits.** -/
theorem window_eq (h : byteIndex slot + 1 < a.bytes.size) :
    a.window slot = .ok (a.number / 256 ^ byteIndex slot % 65536) := by
  have h₁ : byteIndex slot + 1 < a.digits.length := by rwa [length_digits]
  rw [window, Array.getElem?_eq_getElem (Nat.lt_of_succ_lt h), Array.getElem?_eq_getElem h,
    number_div_pow h₁]
  simp only [digits, List.getElem_map, Array.getElem_toList, Nat.mul_comm 256]

/-- **Replacing a window** adds its difference, at the place of its first byte. -/
theorem number_setWindow {w : Nat} (h : byteIndex slot + 1 < a.bytes.size) (hw : w < 65536) :
    (a.setWindow slot w).number +
        256 ^ byteIndex slot * (a.number / 256 ^ byteIndex slot % 65536) =
      a.number + 256 ^ byteIndex slot * w := by
  have h₁ : byteIndex slot + 1 < a.digits.length := by rwa [length_digits]
  have hlow := ofDigits_set 256 (w % 256) (Nat.lt_of_succ_lt h₁)
  have h₁' : byteIndex slot + 1 < (a.digits.set (byteIndex slot) (w % 256)).length := by
    rwa [List.length_set]
  have hhigh := ofDigits_set 256 (w / 256 % 256) h₁'
  rw [List.getElem_set_ne (Nat.succ_ne_self _).symm, pow_succ] at hhigh
  have hw' : w = w % 256 + 256 * (w / 256 % 256) := by omega
  rw [number_div_pow h₁, number, number, digits_setWindow]
  conv_rhs => rw [hw']
  linarith

/-! ### Arrays that hold a bank -/

/-- The bytes, read as one number, have the values of the bank as their digits in base 64. -/
structure Holds (a : SixBitArray) (b : Bank p) : Prop where
  lgK_eq : a.lgK = p.lg
  size_eq : a.bytes.size = byteCount p.slots
  number_eq : a.number = Nat.ofDigits 64 b.values.toList

theorem values_lt (b : Bank p) {v : Nat} (hv : v ∈ b.values.toList) : v < 64 :=
  Nat.lt_succ_of_le (b.values_le v (Array.mem_toList_iff.mp hv))

theorem length_values (b : Bank p) : b.values.toList.length = p.slots := by
  rw [Array.length_toList, b.size_values]

/-- The last window is inside the array, since the registers fill their bytes and the spare byte
follows. -/
theorem byteIndex_succ_lt (hs : slot < p.slots) : byteIndex slot + 1 < byteCount p.slots := by
  have hpow : p.slots = 4 * 2 ^ (p.lg - 2) :=
    p.slots_eq_mul (k := 2) (le_trans (by decide) p.minLgK_le)
  rw [byteIndex, byteCount]
  omega

theorem holds_zeros (p : Precision) : (zeros p.lg).Holds (Bank.zeros p) where
  lgK_eq := rfl
  size_eq := Array.size_replicate
  number_eq := by
    rw [number, digits, zeros, Bank.zeros, Array.toList_replicate, Array.toList_replicate,
      List.map_replicate, show UInt8.toNat 0 = 0 from rfl, Nat.ofDigits_replicate_zero,
      Nat.ofDigits_replicate_zero]

theorem Holds.digit (h : a.Holds b) (hs : slot < p.slots) :
    a.number / 64 ^ slot % 64 = b.get slot := by
  have hl : slot < b.values.toList.length := by rwa [length_values]
  have hv : b.values.toList[slot] = b.get slot := by
    rw [Array.getElem_toList, b.getElem_values]
  have hlt := values_lt b (List.getElem_mem hl)
  rw [h.number_eq, ofDigits_div_pow (by decide) (fun v hv => values_lt b hv) hl,
    Nat.add_mul_mod_self_left, Nat.mod_eq_of_lt hlt, hv]

theorem Holds.window (h : a.Holds b) (hs : slot < p.slots) :
    a.window slot = .ok (a.number / 256 ^ byteIndex slot % 65536) :=
  window_eq (h.size_eq ▸ byteIndex_succ_lt hs)

/-- Reading answers the value of the bank. -/
theorem Holds.get (h : a.Holds b) (hs : slot < p.slots) : a.get slot = .ok (b.get slot) := by
  rw [SixBitArray.get, h.window hs]
  exact congrArg Except.ok ((field_window slot a.number).trans (h.digit hs))

/-- Writing a register, whatever it held, is writing it in the bank. -/
theorem Holds.put (h : a.Holds b) (hs : slot < p.slots) (hv : value ≤ maxRegister) :
    ∃ a', a.put slot value = .done a' ∧ a'.Holds (b.set slot value hv) := by
  have hlt : byteIndex slot + 1 < a.bytes.size := h.size_eq ▸ byteIndex_succ_lt hs
  have hl : slot < b.values.toList.length := by rwa [length_values]
  rw [SixBitArray.put, if_neg hv.not_gt, h.window hs]
  refine ⟨_, rfl, h.lgK_eq, (size_setWindow ..).trans h.size_eq, ?_⟩
  -- the window rises by the difference of the values, at the place of the register in it
  have hwin := number_setWindow (a := a) hlt
    (setField_lt (v := value) (Nat.mod_lt (a.number / 256 ^ byteIndex slot) (by decide)) slot)
  have hfield := setField_add (w := a.number / 256 ^ byteIndex slot % 65536)
    (Nat.lt_succ_of_le hv) slot
  rw [field_window, h.digit hs] at hfield
  have hbank := ofDigits_set 64 value hl
  rw [Array.getElem_toList, b.getElem_values, ← h.number_eq, ← pow_place] at hbank
  have hset : (b.set slot value hv).values.toList = b.values.toList.set slot value :=
    Array.toList_setIfInBounds ..
  rw [hset]
  generalize (a.setWindow slot _).number = n at hwin ⊢
  generalize Nat.ofDigits 64 _ = n' at hbank ⊢
  generalize setField _ _ _ = w' at hwin hfield
  generalize a.number / 256 ^ byteIndex slot % 65536 = w at hwin hfield
  nlinarith [congrArg (256 ^ byteIndex slot * ·) hfield]

/-- Writing a register that is still zero. -/
theorem Holds.putFresh (h : a.Holds b) (hs : slot < p.slots) (hv : value ≤ maxRegister)
    (h₀ : b.get slot = 0) :
    ∃ a', a.putFresh slot value = .done a' ∧ a'.Holds (b.set slot value hv) := by
  rw [SixBitArray.putFresh]
  split
  · rename_i hzero
    have hset : b.set slot value hv = b := Bank.ext_get fun s _ => by
      rw [b.get_set hv hs]
      split
      · rename_i e
        rw [hzero, e, h₀]
      · rfl
    exact ⟨a, rfl, hset.symm ▸ h⟩
  · exact h.put hs hv

/-- **The array built from the values of a bank holds it.**  The registers are written in slot
order, and those not yet reached are zero. -/
theorem ofValues_done (b : Bank p) : ∃ a, ofValues p.lg b.values = .ok a ∧ a.Holds b := by
  obtain ⟨a, ha, c, hc, hget⟩ :
      ∃ a, Outcome.forEach (fun a (e : Nat × Nat) => a.putFresh e.2 e.1) b.values.toList.zipIdx
          (zeros p.lg) = .done a ∧
        ∃ c : Bank p, a.Holds c ∧
          ∀ s, c.get s = if s < b.values.toList.zipIdx.length then b.get s else 0 := by
    refine Outcome.forEach_done (P := fun done (a : SixBitArray) =>
      ∃ c : Bank p, a.Holds c ∧ ∀ s, c.get s = if s < done.length then b.get s else 0)
      ⟨_, holds_zeros p, fun s => Bank.get_zeros s⟩ fun pre x post a hsplit ⟨c, hc, hget⟩ => ?_
    -- the next register is the one at the number of those done
    have hx : b.values.toList.zipIdx[pre.length]? = some x := by
      rw [hsplit, List.getElem?_append_right (Nat.le_refl _), Nat.sub_self]
      rfl
    obtain ⟨v, slot⟩ := x
    rw [List.getElem?_zipIdx, b.getElem?_toList_values, Nat.zero_add] at hx
    split at hx
    case isFalse => cases hx
    case isTrue hs =>
      obtain ⟨rfl, rfl⟩ := Prod.mk.inj (Option.some.inj hx)
      obtain ⟨a', ha', hc'⟩ := hc.putFresh hs (b.get_le pre.length)
        ((hget pre.length).trans (if_neg (Nat.lt_irrefl _)))
      refine ⟨a', ha', _, hc', fun s => ?_⟩
      rw [List.length_append, List.length_singleton, c.get_set _ hs, hget]
      rcases Nat.lt_trichotomy s pre.length with hlt | rfl | hgt
      · rw [if_neg hlt.ne, if_pos hlt, if_pos (Nat.lt_succ_of_lt hlt)]
      · rw [if_pos rfl, if_pos (Nat.lt_succ_self _)]
      · rw [if_neg hgt.ne', if_neg hgt.not_gt, if_neg (Nat.not_lt.mpr hgt)]
  have hbc : c = b := Bank.ext_get fun s hs => by
    rw [hget, List.length_zipIdx, length_values, if_pos hs]
  exact ⟨a, by rw [ofValues, ha, Outcome.toExcept_done], hbc ▸ hc⟩

/-- **Two arrays that hold one bank are equal.** -/
theorem Holds.eq {a' : SixBitArray} (h : a.Holds b) (h' : a'.Holds b) : a = a' := by
  have hd : a.digits = a'.digits :=
    Nat.ofDigits_inj_of_len_eq (by decide)
      (by rw [length_digits, length_digits, h.size_eq, h'.size_eq])
      (fun d hd => digits_lt hd) (fun d hd => digits_lt hd)
      (h.number_eq.trans h'.number_eq.symm)
  obtain ⟨lgK, bytes⟩ := a
  obtain ⟨lgK', bytes'⟩ := a'
  have hb : bytes.toList = bytes'.toList :=
    (List.map_injective_iff.mpr fun x y h => UInt8.toNat_inj.mp h) hd
  rw [show lgK = lgK' from h.lgK_eq.trans h'.lgK_eq.symm, Array.toList_inj.mp hb]

end HyperLogLog.SixBitArray
