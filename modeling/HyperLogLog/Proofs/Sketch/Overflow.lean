import HyperLogLog.Proofs.Registers.Exceptions
import HyperLogLog.Proofs.Sketch.Minimum

/-!
# The offsets of a reachable sketch

A reachable sketch that stores offsets represents its values on its baseline
(`Reachable.overflow_spec`): every nibble is determined by its value, and the overflow map holds
the exceptions, each once, and is there only if there are some.  Since some register is on the
baseline, not every register is an exception.
-/

namespace HyperLogLog.Sketch

variable {α : Type} {p : Precision} {s : Sketch α} {t : Plain α p} {e : Encoding}

theorem Encodes.offsets (h : s.Encodes .hll4 t) :
    ∃ a, s.registers = .offsets a ∧ a.Holds s.baseline.value t.bank := by
  have hreg := h.registers
  rw [← h.baseline_eq] at hreg
  have henc : s.registers.encoding = .hll4 := h.encoding_eq
  revert henc hreg
  cases s.registers with
  | offsets a => exact fun hreg _ => ⟨a, rfl, hreg⟩
  | sixBit a | octets a => exact nofun

variable {a : OffsetArray} {b : Bank p} {base : Nat}

/-- **The entries** of a sketch are the exceptions, in the order of the cells they lie in. -/
theorem entries_perm (hs : s.registers = .offsets a) (h : a.Holds base b) :
    s.entries.Perm (OffsetArray.exceptions base b.values) := by
  rw [entries, hs]
  exact h.perm_entries

/-- A listing by slot has the entries of the listing by cell. -/
theorem overflowEntries_perm (s : Sketch α) : s.overflowEntries.Perm s.entries :=
  List.mergeSort_perm _ _

/-- By slot, the entries are the exceptions in slot order. -/
theorem overflowEntries_eq (hs : s.registers = .offsets a) (h : a.Holds base b) :
    s.overflowEntries = OffsetArray.exceptions base b.values :=
  OverflowMap.mergeSort_entryLe (entries_perm hs h) (OffsetArray.pairwise_exceptions _ _)

theorem overflowCount_eq (hs : s.registers = .offsets a) (h : a.Holds base b) :
    s.overflowCount = b.values.countP fun v => marker ≤ v - base := by
  rw [← OffsetArray.length_exceptions, overflowCount, hs, Registers.overflowCount,
    Registers.overflow?]
  cases hm : a.overflow with
  | none =>
      rw [h.represents.absent_iff.mp hm]
      rfl
  | some m =>
      exact ((h.overflow_holds hm).1.count_eq_length).trans (h.represents.entries m hm).length_eq

theorem byteLength_eq (hs : s.registers = .offsets a) (h : a.Holds base b) :
    s.registers.byteLength = 2 ^ (p.lg - 1) := by
  have hpow : p.slots = 2 * 2 ^ (p.lg - 1) :=
    p.slots_eq_mul (k := 1) (le_trans (by decide) p.minLgK_le)
  rw [hs]
  exact Nat.eq_of_mul_eq_mul_left (by decide) (h.size_bytes.trans hpow)

/-- Not every value is an exception if some value is the base. -/
theorem countP_lt {values : Array Nat} (h : base ∈ values) :
    (values.countP fun v => marker ≤ v - base) < values.size := by
  rw [← Array.countP_toList, ← Array.length_toList, List.countP_lt_length_iff]
  refine ⟨base, Array.mem_toList_iff.mpr h, ?_⟩
  rw [Nat.sub_self]
  rfl

variable [Arith α]

/-- **The offsets of a reachable sketch.**  Nibbles and overflow map represent the values on the
baseline; the entries are the exceptions, in some order and sorted in slot order; there are fewer of
them than registers; and the serialized size counts four bytes for each. -/
theorem Reachable.overflow_spec (h : Reachable s) (he : s.encoding = .hll4) :
    ∃ a values, s.registers = .offsets a ∧ s.values = .ok values ∧ values.size = s.slots ∧
      a.Represents s.baseline.value values ∧
      s.entries.Perm (OffsetArray.exceptions s.baseline.value values) ∧
      s.overflowEntries = OffsetArray.exceptions s.baseline.value values ∧
      s.overflowCount = (values.countP fun v => marker ≤ v - s.baseline.value) ∧
      s.overflowCount ≤ 2 ^ s.lgK - 1 ∧
      s.serializedSize = 40 + 2 ^ (s.lgK - 1) +
        4 * values.countP fun v => marker ≤ v - s.baseline.value := by
  obtain ⟨p, steps, ht⟩ := h.encodes
  generalize (Plain.empty p : Plain α p).run steps = t at ht
  rw [he] at ht
  obtain ⟨a, hs, ha⟩ := ht.offsets
  have hcount := overflowCount_eq hs ha
  have hspec := ht.baselineOf
  have hlt : (t.bank.values.countP fun v => marker ≤ v - s.baseline.value) < s.slots :=
    (countP_lt (hspec.offsets he).1).trans_eq hspec.size
  refine ⟨a, t.bank.values, hs, ht.values, hspec.size, ha.represents, entries_perm hs ha,
    overflowEntries_eq hs ha, hcount, ?_, ?_⟩
  · rw [hcount]
    exact Nat.le_sub_one_of_lt hlt
  · rw [serializedSize, byteLength_eq hs ha, hcount, ht.lgK_eq, Nat.mul_comm 4]
    rfl

/-- Three of sixteen registers above zero, two of them exceptions. -/
theorem overflow_spec_two :
    ((empty ⟨4, by decide, by decide⟩ .hll4 : Sketch Float).run
      [.update 3 20, .update 5 15, .update 7 14]).state.overflowCount = 2 ∧
    ∃ a values,
      ((empty ⟨4, by decide, by decide⟩ .hll4 : Sketch Float).run
        [.update 3 20, .update 5 15, .update 7 14]).state.registers = .offsets a ∧
      ((empty ⟨4, by decide, by decide⟩ .hll4 : Sketch Float).run
        [.update 3 20, .update 5 15, .update 7 14]).state.values = .ok values ∧
      a.Represents ((empty ⟨4, by decide, by decide⟩ .hll4 : Sketch Float).run
        [.update 3 20, .update 5 15, .update 7 14]).state.baseline.value values := by
  refine ⟨by decide +kernel, ?_⟩
  obtain ⟨a, values, ha, hvalues, -, hrep, -⟩ :=
    ((reachable_empty (α := Float) ⟨4, by decide, by decide⟩ .hll4).run
      [.update 3 20, .update 5 15, .update 7 14]).overflow_spec (by decide +kernel)
  exact ⟨a, values, ha, hvalues, hrep⟩

end HyperLogLog.Sketch
