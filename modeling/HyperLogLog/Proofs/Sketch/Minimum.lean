import HyperLogLog.Proofs.Sketch.Reachable

/-!
# The baseline of a reachable sketch

A reachable sketch encodes a plain one, so its baseline is the one its encoding keeps for the
values of its registers (`Reachable.baseline_spec`): the minimum of the values for offsets, zero
for the other encodings, and in either case with the number of registers on it.  In particular the
count is positive whenever a register on the baseline rises, however far the baseline has jumped
before.
-/

namespace HyperLogLog.Sketch

variable {α : Type} {p : Precision} {s : Sketch α} {t : Plain α p} {e : Encoding}
  {slot value : Nat}

/-- What the baseline of a sketch says of the values of its registers. -/
structure BaselineOf (s : Sketch α) (values : Array Nat) : Prop where
  get : ∀ slot < s.slots, ∃ v, values[slot]? = some v ∧ s.get slot = .ok v
  size : values.size = s.slots
  /-- No register is below the baseline. -/
  value_le : ∀ v ∈ values, s.baseline.value ≤ v
  /-- The count is the number of registers on the baseline. -/
  count_eq : s.baseline.count = values.count s.baseline.value
  /-- Offsets are from the minimum, so some register is on the baseline. -/
  offsets : s.encoding = .hll4 → s.baseline.value ∈ values ∧ 1 ≤ s.baseline.count
  /-- The other encodings count the zero registers. -/
  zeros : s.encoding ≠ .hll4 → s.baseline.value = 0 ∧ s.baseline.count = values.count 0
  isEmpty_iff : s.accumulator.isEmpty = true ↔ ∀ v ∈ values, v = 0

theorem Encodes.isEmpty_iff (h : s.Encodes e t) :
    s.accumulator.isEmpty = true ↔ ∀ v ∈ t.bank.values, v = 0 := by
  rw [Accumulator.isEmpty_eq, h.slots_precision, h.unhit_eq, beq_iff_eq,
    t.bank.count_zero_eq_slots_iff]

/-- **The baseline of a sketch of a plain sketch** is the one its encoding keeps. -/
theorem Encodes.baselineOf (h : s.Encodes e t) : BaselineOf s t.bank.values where
  get slot hs := by
    rw [h.slots_eq] at hs
    exact ⟨_, t.bank.getElem?_of_lt hs, h.get hs⟩
  size := t.bank.size_values.trans h.slots_eq.symm
  value_le v hv := by
    rw [h.baseline_eq]
    exact e.baseline_value_le hv
  count_eq := by
    rw [h.baseline_eq]
    exact e.baseline_count _
  offsets he := by
    obtain rfl := h.encoding_eq.symm.trans he
    have hmem : (Baseline.ofMinimum t.bank.values).value ∈ t.bank.values :=
      Baseline.ofMinimum_value_mem (t.bank.size_values ▸ p.slots_pos)
    rw [h.baseline_eq]
    exact ⟨hmem, Array.count_pos_iff.mpr hmem⟩
  zeros he := by
    rw [h.encoding_eq] at he
    rw [h.baseline_eq]
    cases e with
    | hll4 => exact absurd rfl he
    | hll6 | hll8 => exact ⟨rfl, rfl⟩
  isEmpty_iff := h.isEmpty_iff

variable [Arith α]

/-- **A register that leaves the baseline was counted.**  Whatever the raise, when it comes to
account for a register that was on the baseline, the count is not zero. -/
theorem Encodes.count_pos (h : s.Encodes e t) {old : Nat} {mid : Sketch α}
    (hget : s.get slot = .ok old) (hlt : old < value) (hv : value ≤ maxRegister)
    (hmid : (s.report old value).andThen (·.write slot value) = .done mid)
    (hold : old = mid.baseline.value) : 0 < mid.baseline.count := by
  obtain ⟨hs, rfl⟩ := h.get_eq_ok_iff.mp hget
  obtain ⟨r', hwrite, -, -⟩ := h.report_write hs hv hlt
  obtain rfl := Outcome.done.inj (hwrite.symm.trans hmid)
  rw [baseline, Accumulator.baseline_withBaseline] at hold ⊢
  rw [h.baselineOf.count_eq, ← hold]
  exact Array.count_pos_iff.mpr (t.bank.get_mem hs)

/-- No step counts below zero. -/
theorem Encodes.fault_ne_underflow (h : s.Encodes e t) (st : Step) :
    (s.apply st).fault? ≠ some .underflow := by
  by_cases hv : st.Valid p.lg
  · obtain ⟨s', hs', -⟩ := h.apply hv
    rw [hs', Outcome.fault?_done]
    intro hfault
    cases hfault
  · cases st with
    | update slot value =>
        rw [Sketch.apply, s.update_refused fun hr => hv ⟨hr.1.trans_eq h.slots_eq, hr.2⟩,
          Outcome.fault?_faulted, refusal]
        split
        · intro hfault
          cases hfault
        · intro hfault
          cases hfault
    | mark | convert e' => exact absurd trivial hv

/-- **The baseline of a reachable sketch.**  It is a baseline of the values of the registers, all
of which can be read.  A raise that accounts for a register on the baseline finds it counted, so
the count never falls below zero. -/
theorem Reachable.baseline_spec (h : Reachable s) :
    (∃ values, s.values = .ok values ∧ BaselineOf s values) ∧
      (∀ slot old value mid, s.get slot = .ok old → old < value → value ≤ maxRegister →
        (s.report old value).andThen (·.write slot value) = .done mid →
        old = mid.baseline.value → 0 < mid.baseline.count) ∧
      ∀ st, (s.apply st).fault? ≠ some .underflow := by
  obtain ⟨p, steps, ht⟩ := h.encodes
  exact ⟨⟨_, ht.values, ht.baselineOf⟩, fun _ _ _ _ => ht.count_pos, ht.fault_ne_underflow⟩

/-- Fifteen of sixteen registers at 5, and then the last at 3: the baseline jumps from 0 to 3. -/
theorem baseline_spec_jump :
    ((empty ⟨4, by decide, by decide⟩ .hll4 : Sketch Float).run
      ((List.range 16).map fun i => .update i (if i = 15 then 3 else 5))).state.baseline = ⟨3, 1⟩ ∧
    ∃ values,
      ((empty ⟨4, by decide, by decide⟩ .hll4 : Sketch Float).run
        ((List.range 16).map fun i => .update i (if i = 15 then 3 else 5))).state.values =
          .ok values ∧
      BaselineOf ((empty ⟨4, by decide, by decide⟩ .hll4 : Sketch Float).run
        ((List.range 16).map fun i => .update i (if i = 15 then 3 else 5))).state values :=
  ⟨by decide +kernel, ((reachable_empty _ .hll4).run _).baseline_spec.1⟩

end HyperLogLog.Sketch
