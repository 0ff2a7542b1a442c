import HyperLogLog.Registers.Basic
import HyperLogLog.Proofs.Registers.OctetArray
import HyperLogLog.Proofs.Registers.OffsetArray
import HyperLogLog.Proofs.Registers.SixBitArray

/-!
# Registers — one representation for the three encodings

Registers *hold* a bank on a base when their array does; six-bit and byte registers know only the
base zero.  Every operation of the interface is then an operation on the bank, whatever the
encoding:

* `Holds.get`, `Holds.put`, `Holds.values`: read a register, raise one, list them all.
* `Holds.settle`: the baseline becomes the one the encoding keeps, `Encoding.baseline`.
* `ofValues_done`, `Holds.convert`: built from values, and re-encoded.
* `Holds.beq_iff`: registers of one encoding on one base are equal exactly when they hold one bank,
  and then they take the same room (`room_of_beq`).
-/

namespace HyperLogLog.Registers

variable {p : Precision} {b : Bank p} {r : Registers} {base slot value : Nat}

/-- The registers have the values of the bank, stored on a base. -/
def Holds (r : Registers) (base : Nat) (b : Bank p) : Prop :=
  match r with
  | offsets a => a.Holds base b
  | sixBit a => base = 0 ∧ a.Holds b
  | octets a => base = 0 ∧ a.Holds b

theorem Holds.lgK_eq (h : r.Holds base b) : r.lgK = p.lg := by
  cases r with
  | offsets a => exact OffsetArray.Holds.lgK_eq h
  | sixBit a => exact h.2.lgK_eq
  | octets a => exact h.2.lgK_eq

theorem encoding_zeros (lgK : Nat) (e : Encoding) : (zeros lgK e).encoding = e := by
  cases e <;> rfl

theorem holds_zeros (p : Precision) (e : Encoding) : (zeros p.lg e).Holds 0 (Bank.zeros p) := by
  cases e with
  | hll4 => exact OffsetArray.holds_zeros p
  | hll6 => exact ⟨rfl, SixBitArray.holds_zeros p⟩
  | hll8 => exact ⟨rfl, OctetArray.holds_zeros p⟩

/-- Reading answers the value of the bank. -/
theorem Holds.get (h : r.Holds base b) (hs : slot < p.slots) :
    r.get base slot = .ok (b.get slot) := by
  cases r with
  | offsets a => exact OffsetArray.Holds.get h hs
  | sixBit a => exact h.2.get hs
  | octets a => exact h.2.get hs

/-- **A raise** is a raise of the bank, and the encoding stays. -/
theorem Holds.put (h : r.Holds base b) (hs : slot < p.slots) (hv : value ≤ maxRegister)
    (hlt : b.get slot < value) :
    ∃ r', r.put base slot value = .done r' ∧ r'.encoding = r.encoding ∧
      r'.Holds base (b.set slot value hv) := by
  cases r with
  | offsets a =>
      obtain ⟨a', ha', h'⟩ := OffsetArray.Holds.put h hs hv hlt
      exact ⟨offsets a', by rw [Registers.put, ha', Outcome.map_done], rfl, h'⟩
  | sixBit a =>
      obtain ⟨a', ha', h'⟩ := h.2.put hs hv
      exact ⟨sixBit a', by rw [Registers.put, ha', Outcome.map_done], rfl, h.1, h'⟩
  | octets a =>
      obtain ⟨a', ha', h'⟩ := h.2.put hs hv
      exact ⟨octets a', by rw [Registers.put, ha', Outcome.map_done], rfl, h.1, h'⟩

/-! ### All values -/

/-- Appending the values of the registers left to those read. -/
theorem Holds.valuesFrom (h : r.Holds base b) :
    ∀ (n : Nat) (read : Array Nat), read.size + n = p.slots →
      (∀ s < read.size, read[s]? = some (b.get s)) →
      r.valuesFrom base n read = .ok b.values := by
  intro n
  induction n with
  | zero =>
      intro read hsize hread
      refine congrArg Except.ok (Array.ext_getElem? fun s => ?_)
      rw [b.getElem?_values, ← hsize, Nat.add_zero]
      split
      · rename_i hs
        exact hread s hs
      · rename_i hs
        exact Array.getElem?_eq_none (not_lt.mp hs)
  | succ n ih =>
      intro read hsize hread
      have hlt : read.size < p.slots := by
        rw [← hsize]
        exact Nat.lt_add_of_pos_right (Nat.succ_pos n)
      rw [Registers.valuesFrom, h.get hlt]
      refine ih _ (by rw [Array.size_push, ← hsize, Nat.succ_add, Nat.add_succ]) fun s hs => ?_
      rw [Array.size_push] at hs
      rw [Array.getElem?_push]
      split
      · rename_i e
        rw [e]
      · rename_i hne
        exact hread s (Nat.lt_of_le_of_ne (Nat.le_of_lt_succ hs) hne)

/-- **Listing the registers lists the bank.** -/
theorem Holds.values (h : r.Holds base b) : r.values base = .ok b.values := by
  refine h.valuesFrom _ _ ?_ fun s hs => absurd hs (Nat.not_lt_zero s)
  rw [h.lgK_eq]
  exact Nat.zero_add _

/-- **Registers built from values** hold them on the baseline their encoding keeps. -/
theorem ofValues_done (b : Bank p) (e : Encoding) :
    ∃ r, ofValues p.lg b.values e = .ok (r, e.baseline b.values) ∧ r.encoding = e ∧
      r.Holds (e.baseline b.values).value b := by
  have hsize : ¬ b.values.size ≠ Nat.pow 2 p.lg := not_not.mpr b.size_values
  cases e with
  | hll4 =>
      obtain ⟨a, ha, h⟩ := OffsetArray.ofValues_done b
      exact ⟨offsets a, by rw [ofValues, if_neg hsize, ha]; rfl, rfl, h⟩
  | hll6 =>
      obtain ⟨a, ha, h⟩ := SixBitArray.ofValues_done b
      exact ⟨sixBit a, by rw [ofValues, if_neg hsize, ha]; rfl, rfl, rfl, h⟩
  | hll8 => exact ⟨_, if_neg hsize, rfl, rfl, OctetArray.holds_ofValues b⟩

/-- Re-encoding keeps the bank, on the baseline of the new encoding. -/
theorem Holds.convert (h : r.Holds base b) (e : Encoding) :
    ∃ r', r.convert base e = .ok (r', e.baseline b.values) ∧ r'.encoding = e ∧
      r'.Holds (e.baseline b.values).value b := by
  rw [Registers.convert, h.values, h.lgK_eq]
  exact ofValues_done b e

/-! ### The baseline -/

/-- The base the registers are stored on is not above the baseline of their encoding. -/
theorem Holds.base_le_baseline (h : r.Holds base b) :
    base ≤ (r.encoding.baseline b.values).value := by
  cases r with
  | offsets a =>
      exact OffsetArray.Holds.base_le h _
        (Baseline.ofMinimum_value_mem (b.size_values ▸ p.slots_pos))
  | sixBit a => exact h.1.le
  | octets a => exact h.1.le

/-- **Settling** takes any base the registers are stored on to the baseline of their encoding. -/
theorem Holds.settle (h : r.Holds base b) :
    ∃ r', r.settle ⟨base, b.values.count base⟩ = .ok (r', r.encoding.baseline b.values) ∧
      r'.encoding = r.encoding ∧ r'.Holds (r.encoding.baseline b.values).value b := by
  cases r with
  | offsets a =>
      obtain ⟨a', ha', h'⟩ := OffsetArray.Holds.settle h
      exact ⟨offsets a', by rw [Registers.settle, ha']; rfl, rfl, h'⟩
  | sixBit a =>
      obtain ⟨rfl, h⟩ := h
      exact ⟨sixBit a, rfl, rfl, rfl, h⟩
  | octets a =>
      obtain ⟨rfl, h⟩ := h
      exact ⟨octets a, rfl, rfl, rfl, h⟩

/-! ### Equality -/

/-- Registers hold one bank on a base. -/
theorem Holds.bank_unique {b' : Bank p} (h : r.Holds base b) (h' : r.Holds base b') : b = b' :=
  Bank.ext_get fun _ hs => Except.ok.inj ((h.get hs).symm.trans (h'.get hs))

/-- **Registers of one encoding on one base are equal** exactly when they hold one bank. -/
theorem Holds.beq_iff {r' : Registers} {b' : Bank p} (h : r.Holds base b) (h' : r'.Holds base b')
    (he : r.encoding = r'.encoding) : (r == r') = true ↔ b = b' := by
  match r, r', h, h', he with
  | offsets a, offsets a', h, h', _ => exact OffsetArray.Holds.beq_iff h h'
  | sixBit a, sixBit a', h, h', _ =>
      constructor
      · intro heq
        obtain rfl : a = a' := of_decide_eq_true heq
        exact h.bank_unique h'
      · rintro rfl
        exact decide_eq_true (h.2.eq h'.2)
  | octets a, octets a', h, h', _ =>
      constructor
      · intro heq
        obtain rfl : a = a' := of_decide_eq_true heq
        exact h.bank_unique h'
      · rintro rfl
        exact decide_eq_true (h.2.trans h'.2.symm)

/-- Equal registers take the same room. -/
theorem room_of_beq {r' : Registers} (h : (r == r') = true) :
    r.byteLength = r'.byteLength ∧ r.overflowCount = r'.overflowCount := by
  match r, r', h with
  | offsets a, offsets a', h =>
      obtain ⟨-, hn, ho⟩ := OffsetArray.beq_iff.mp h
      refine ⟨by rw [byteLength, byteLength, hn], ?_⟩
      rw [overflowCount, overflowCount, overflow?, overflow?]
      match a.overflow, a'.overflow, ho with
      | none, none, _ => rfl
      | some m, some m', ho => exact (OverflowMap.beq_iff_sortedEntries.mp ho).2.1
  | sixBit a, sixBit a', h =>
      rw [show a = a' from of_decide_eq_true h]
      exact ⟨rfl, rfl⟩
  | octets a, octets a', h =>
      rw [show a = a' from of_decide_eq_true h]
      exact ⟨rfl, rfl⟩

end HyperLogLog.Registers
