import HyperLogLog.Precision
import Mathlib.Algebra.Ring.Nat
import Mathlib.Order.Basic

/-!
# Precision, encodings and baselines — sizes and minima

The number of registers is a power of two.  `Encoding.baseline` is the baseline each encoding is to
keep for given register values: their minimum for offsets, zero for the other two.

* `baseline_value_le`, `baseline_count`: the baseline is below every value, and its count is the
  number of values on it.
* `count_zero_eq`: the number of zeros can be read off the baseline of any encoding.
-/

namespace HyperLogLog

/-! ### The number of registers -/

namespace Precision

theorem slots_eq (p : Precision) : p.slots = 2 ^ p.lg := rfl

theorem slots_le (p : Precision) : p.slots ≤ 2 ^ 21 :=
  Nat.pow_le_pow_right (by decide) p.le_maxLgK

/-- The small powers of two divide the number of registers. -/
theorem slots_eq_mul (p : Precision) {k : Nat} (hk : k ≤ p.lg) :
    p.slots = 2 ^ k * 2 ^ (p.lg - k) := by
  rw [slots_eq, ← Nat.pow_add, Nat.add_sub_cancel' hk]

end Precision

/-! ### Baselines -/

namespace Baseline

variable {values : Array Nat} {v : Nat}

theorem ofMinimum_eq (hv : v ∈ values) (hle : ∀ w ∈ values, v ≤ w) :
    ofMinimum values = ⟨v, values.count v⟩ := by
  have h : values.toList.min? = some v :=
    List.min?_eq_some_iff.mpr ⟨Array.mem_toList_iff.mpr hv, fun w hw =>
      hle w (Array.mem_toList_iff.mp hw)⟩
  simp only [ofMinimum, h, Option.getD_some]

/-- The minimum is a value, and the least one. -/
theorem exists_minimum (h : 0 < values.size) : ∃ v ∈ values, ∀ w ∈ values, v ≤ w := by
  have hne : values.toList ≠ [] := by
    rw [ne_eq, Array.toList_eq_nil_iff]
    rintro rfl
    exact absurd h (by decide)
  obtain ⟨hm, hl⟩ := List.min?_eq_some_iff.mp (List.min?_eq_some_min hne)
  exact ⟨_, Array.mem_toList_iff.mp hm, fun w hw => hl w (Array.mem_toList_iff.mpr hw)⟩

theorem ofMinimum_value_mem (h : 0 < values.size) : (ofMinimum values).value ∈ values := by
  obtain ⟨v, hv, hle⟩ := exists_minimum h
  rw [ofMinimum_eq hv hle]
  exact hv

theorem ofMinimum_value_le (hv : v ∈ values) : (ofMinimum values).value ≤ v := by
  obtain ⟨w, hw, hle⟩ := exists_minimum (Array.size_pos_of_mem hv)
  rw [ofMinimum_eq hw hle]
  exact hle v hv

end Baseline

/-- The baseline an encoding keeps for given register values. -/
def Encoding.baseline : Encoding → Array Nat → Baseline
  | .hll4, values => .ofMinimum values
  | .hll6, values | .hll8, values => .ofZeros values

namespace Encoding

variable {values : Array Nat} {v : Nat}

/-- No value is below the baseline. -/
theorem baseline_value_le (e : Encoding) (hv : v ∈ values) : (e.baseline values).value ≤ v := by
  cases e with
  | hll4 => exact Baseline.ofMinimum_value_le hv
  | hll6 | hll8 => exact Nat.zero_le v

/-- The count of the baseline is the number of values on it. -/
theorem baseline_count (e : Encoding) (values : Array Nat) :
    (e.baseline values).count = values.count (e.baseline values).value := by
  cases e <;> rfl

/-- A baseline of zero has the zeros on it, and above a baseline that is not zero there are
none. -/
theorem count_zero_eq (e : Encoding) (values : Array Nat) :
    values.count 0 =
      if (e.baseline values).value = 0 then (e.baseline values).count else 0 := by
  split
  · rename_i h
    rw [e.baseline_count, h]
  · rename_i h
    refine Array.count_eq_zero.mpr fun h₀ => h ?_
    exact Nat.le_zero.mp (e.baseline_value_le h₀)

end Encoding

end HyperLogLog
