import HyperLogLog.Proofs.Precision
import Mathlib.Data.List.Basic
import Mathlib.Data.Nat.Basic
import Mathlib.Data.Prod.Basic

/-!
# Banks — registers as plain numbers

A bank is what a register array says, with no regard to how it is stored: as many values as the
precision has slots, each at most 63.

* `Bank.get_set`, `Bank.count_set`: what a write does to the values and to their counts.
* `Bank.baseline_set_of_ne`: a register that rises from above the baseline leaves it as it is.
-/

namespace HyperLogLog

/-! ### Values by slot -/

theorem mem_indexed {values : Array Nat} {slot v : Nat} :
    (slot, v) ∈ values.toList.zipIdx.map Prod.swap ↔ values[slot]? = some v :=
  (List.mem_map_of_injective Prod.swap_injective (a := (v, slot))).trans
    (by rw [List.mem_zipIdx_iff_getElem?, Array.getElem?_toList])

theorem pairwise_indexed (values : Array Nat) :
    (values.toList.zipIdx.map Prod.swap).Pairwise fun x y => x.1 < y.1 := by
  have hidx : (values.toList.zipIdx.map Prod.snd).Pairwise (· < ·) := by
    rw [List.zipIdx_map_snd]
    exact List.pairwise_lt_range'
  exact List.pairwise_map.mpr (List.pairwise_map.mp hidx)

/-! ### Banks -/

/-- A value for each slot, none above the largest register value. -/
@[ext]
structure Bank (p : Precision) where
  values : Array Nat
  size_values : values.size = p.slots
  values_le : ∀ v ∈ values, v ≤ maxRegister

namespace Bank

variable {p : Precision} {b c : Bank p} {slot value s : Nat}

/-- The value at a slot.  Beyond the last slot it is zero. -/
def get (b : Bank p) (slot : Nat) : Nat := b.values.getD slot 0

/-- All values zero. -/
def zeros (p : Precision) : Bank p where
  values := .replicate p.slots 0
  size_values := Array.size_replicate
  values_le v hv := by rw [Array.eq_of_mem_replicate hv]; exact Nat.zero_le _

/-- The bank of given values. -/
def ofFn (p : Precision) (v : Nat → Nat) (h : ∀ s < p.slots, v s ≤ maxRegister) : Bank p where
  values := .ofFn fun s : Fin p.slots => v s
  size_values := Array.size_ofFn
  values_le w hw := by
    obtain ⟨s, rfl⟩ := Array.mem_ofFn.mp hw
    exact h s s.isLt

/-- The bank with another value at a slot. -/
def set (b : Bank p) (slot value : Nat) (h : value ≤ maxRegister) : Bank p where
  values := b.values.setIfInBounds slot value
  size_values := by rw [Array.size_setIfInBounds, b.size_values]
  values_le v hv := by
    rcases Array.mem_or_eq_of_mem_setIfInBounds hv with hv | rfl
    · exact b.values_le v hv
    · exact h

theorem getElem?_values (b : Bank p) (slot : Nat) :
    b.values[slot]? = if slot < p.slots then some (b.get slot) else none := by
  rw [get, Array.getD_eq_getD_getElem?]
  split
  · rename_i h
    rw [Array.getElem?_eq_getElem (b.size_values ▸ h), Option.getD_some]
  · rename_i h
    exact Array.getElem?_eq_none (by rw [b.size_values]; exact not_lt.mp h)

theorem getElem?_toList_values (b : Bank p) (slot : Nat) :
    b.values.toList[slot]? = if slot < p.slots then some (b.get slot) else none := by
  rw [Array.getElem?_toList, getElem?_values]

theorem getElem?_of_lt (b : Bank p) (h : slot < p.slots) :
    b.values[slot]? = some (b.get slot) := by
  rw [getElem?_values, if_pos h]

theorem getElem_values (b : Bank p) (h : slot < b.values.size) : b.values[slot] = b.get slot := by
  rw [get, Array.getD_eq_getD_getElem?, Array.getElem?_eq_getElem h, Option.getD_some]

theorem get_mem (b : Bank p) (h : slot < p.slots) : b.get slot ∈ b.values :=
  Array.mem_of_getElem? (b.getElem?_of_lt h)

theorem mem_values {v : Nat} : v ∈ b.values ↔ ∃ s < p.slots, b.get s = v := by
  constructor
  · intro h
    obtain ⟨s, hs⟩ := Array.mem_iff_getElem?.mp h
    rw [getElem?_values] at hs
    split at hs
    · rename_i hlt
      exact ⟨s, hlt, Option.some.inj hs⟩
    · cases hs
  · rintro ⟨s, hs, rfl⟩
    exact b.get_mem hs

/-- The pairs of a slot and a value that are listed in slot order. -/
theorem mem_indexed (b : Bank p) {e : Nat × Nat} :
    e ∈ b.values.toList.zipIdx.map Prod.swap ↔ e.1 < p.slots ∧ b.get e.1 = e.2 := by
  obtain ⟨s, v⟩ := e
  rw [HyperLogLog.mem_indexed, getElem?_values]
  split
  · rename_i hs
    rw [Option.some.injEq, and_iff_right hs]
  · rename_i hs
    exact iff_of_false nofun fun h => hs h.1

theorem get_of_not_lt (b : Bank p) (h : ¬ slot < p.slots) : b.get slot = 0 := by
  rw [get, Array.getD_eq_getD_getElem?, getElem?_values, if_neg h, Option.getD_none]

theorem get_le (b : Bank p) (slot : Nat) : b.get slot ≤ maxRegister := by
  by_cases h : slot < p.slots
  · exact b.values_le _ (b.get_mem h)
  · rw [b.get_of_not_lt h]
    exact Nat.zero_le _

theorem get_zeros (slot : Nat) : (zeros p).get slot = 0 := by
  rw [get, zeros, Array.getD_eq_getD_getElem?, Array.getElem?_replicate]
  split <;> rfl

theorem get_ofFn {v : Nat → Nat} (h : ∀ s < p.slots, v s ≤ maxRegister) (hs : s < p.slots) :
    (ofFn p v h).get s = v s := by
  rw [get, ofFn, Array.getD_eq_getD_getElem?, Array.getElem?_ofFn, dif_pos hs, Option.getD_some]

theorem get_set (b : Bank p) (h : value ≤ maxRegister) (hs : slot < p.slots) (s : Nat) :
    (b.set slot value h).get s = if s = slot then value else b.get s := by
  simp only [get, set, Array.getD_eq_getD_getElem?, Array.getElem?_setIfInBounds, b.size_values,
    hs, if_true, eq_comm (a := slot)]
  split <;> rfl

theorem ext_get (h : ∀ s < p.slots, b.get s = c.get s) : b = c := by
  refine Bank.ext (Array.ext_getElem? fun s => ?_)
  rw [getElem?_values, getElem?_values]
  split
  · rename_i hs
    rw [h s hs]
  · rfl

/-- All registers are on the baseline of the bank of zeros. -/
theorem baseline_zeros (p : Precision) (e : Encoding) :
    e.baseline (zeros p).values = ⟨0, p.slots⟩ := by
  have hcount : (zeros p).values.count 0 = p.slots := Array.count_replicate_self
  cases e with
  | hll4 =>
      have hmem : 0 ∈ (zeros p).values := Array.mem_replicate.mpr ⟨p.slots_pos.ne', rfl⟩
      exact (Baseline.ofMinimum_eq hmem fun w _ => Nat.zero_le w).trans (by rw [hcount])
  | hll6 | hll8 => exact congrArg (Baseline.mk 0) hcount

/-- As many zeros as slots are zeros throughout. -/
theorem count_zero_eq_slots_iff (b : Bank p) :
    b.values.count 0 = p.slots ↔ ∀ v ∈ b.values, v = 0 := by
  rw [← b.size_values, Array.count_eq_size]
  exact forall₂_congr fun v _ => eq_comm

/-- One value fewer like the old one, and one more like the new one. -/
theorem count_set (b : Bank p) (h : value ≤ maxRegister) (hs : slot < p.slots) (v : Nat) :
    (b.set slot value h).values.count v =
      b.values.count v - (if b.get slot = v then 1 else 0) + if value = v then 1 else 0 := by
  have hlt : slot < b.values.size := b.size_values ▸ hs
  have hset : (b.set slot value h).values = b.values.set slot value :=
    Array.setIfInBounds_def .. |>.trans (dif_pos hlt)
  rw [hset, Array.count_set hlt, b.getElem_values hlt]
  simp only [beq_iff_eq]

/-- A value that no register rises to loses a register when one rises from it. -/
theorem count_set_of_lt (b : Bank p) (h : value ≤ maxRegister) (hs : slot < p.slots) {v : Nat}
    (hv : v < value) :
    (b.set slot value h).values.count v =
      b.values.count v - if b.get slot = v then 1 else 0 := by
  rw [count_set b h hs, if_neg (c := value = v) hv.ne', Nat.add_zero]

theorem mem_set_of_ne (h : value ≤ maxRegister) (hs : slot < p.slots) {v : Nat}
    (hv : v ∈ b.values) (hne : b.get slot ≠ v) : v ∈ (b.set slot value h).values := by
  obtain ⟨s, hlt, rfl⟩ := mem_values.mp hv
  refine mem_values.mpr ⟨s, hlt, ?_⟩
  rw [get_set b h hs, if_neg]
  rintro rfl
  exact hne rfl

theorem forall_mem_set (h : value ≤ maxRegister) (hs : slot < p.slots) {v : Nat}
    (hv : ∀ w ∈ b.values, v ≤ w) (hlt : v ≤ value) :
    ∀ w ∈ (b.set slot value h).values, v ≤ w := by
  intro w hw
  obtain ⟨s, hs', rfl⟩ := mem_values.mp hw
  rw [get_set b h hs]
  split
  · exact hlt
  · exact hv _ (b.get_mem hs')

/-- **A register on the baseline.**  When it rises, the count exceeds the number of values left on
the baseline by one. -/
theorem baseline_of_get_eq (e : Encoding) (h : value ≤ maxRegister) (hs : slot < p.slots)
    (hlt : b.get slot < value) (he : b.get slot = (e.baseline b.values).value) :
    e.baseline b.values = ⟨(e.baseline b.values).value,
      (b.set slot value h).values.count (e.baseline b.values).value + 1⟩ := by
  have hpos : 0 < b.values.count (e.baseline b.values).value :=
    Array.count_pos_iff.mpr (he ▸ b.get_mem hs)
  rw [count_set_of_lt b h hs (he ▸ hlt), if_pos he, Nat.sub_add_cancel hpos, ← e.baseline_count]

/-- **A register that was above the baseline.**  When it rises, the baseline stays. -/
theorem baseline_set_of_ne (e : Encoding) (h : value ≤ maxRegister) (hs : slot < p.slots)
    (hlt : b.get slot < value) (hne : b.get slot ≠ (e.baseline b.values).value) :
    e.baseline (b.set slot value h).values = e.baseline b.values := by
  have hle : (e.baseline b.values).value ≤ b.get slot := e.baseline_value_le (b.get_mem hs)
  have hcount : (b.set slot value h).values.count (e.baseline b.values).value =
      b.values.count (e.baseline b.values).value := by
    rw [b.count_set_of_lt h hs (hle.trans_lt hlt), if_neg hne, Nat.sub_zero]
  cases e with
  | hll4 =>
      -- the register that rises was not on the minimum, so the minimum is still a value
      have hmem : (Baseline.ofMinimum b.values).value ∈ b.values :=
        Baseline.ofMinimum_value_mem (b.size_values ▸ p.slots_pos)
      refine (Baseline.ofMinimum_eq (mem_set_of_ne h hs hmem hne) ?_).trans ?_
      · exact forall_mem_set h hs (fun w hw => Baseline.ofMinimum_value_le hw) (hle.trans hlt.le)
      · rw [show (Baseline.ofMinimum b.values) = Encoding.baseline .hll4 b.values from rfl, hcount,
          ← Encoding.baseline_count]
  | hll6 | hll8 => exact congrArg (Baseline.mk 0) hcount

end Bank

end HyperLogLog
