import HyperLogLog.Proofs.Accumulator.Composite
import HyperLogLog.Proofs.Sketch.Bounds

/-!
# The composite estimate of a reachable sketch

The sums of a sketch are the weights of its registers, so the mean weight is above zero, and it is
one just when all registers are zero; every raise lowers it.  Hence the raw estimate has a divisor,
begins where the table does, and grows with every raise, and nothing that the estimate is put
together from is asked for a value out of its range (`Reachable.composite_defined`).
-/

namespace HyperLogLog.Sketch

open Accumulator

variable {p : Precision} {s : Sketch ℝ} {t : Plain ℝ p} {e : Encoding}

/-! ### The mean weight -/

/-- The mean weight of the registers of a sketch is that of the bank. -/
theorem Encodes.registerWeight_eq (h : s.Encodes e t) (hsum : t.Summed (exactGrid ℝ)) :
    s.accumulator.registerWeight = totalWeight ℝ t.bank.values / p.slots := by
  have hk : s.accumulator.k = p.slots := congrArg Nat.cast h.slots_precision
  rw [registerWeight, hk, ← hsum.totalWeight_eq, h.accumulator_eq]
  rfl

theorem Encodes.registerWeight_pos (h : s.Encodes e t) (hsum : t.Summed (exactGrid ℝ)) :
    0 < s.accumulator.registerWeight := by
  rw [h.registerWeight_eq hsum]
  exact div_pos t.bank.totalWeight_pos (Nat.cast_pos.mpr p.slots_pos)

theorem Encodes.registerWeight_le_one (h : s.Encodes e t) (hsum : t.Summed (exactGrid ℝ)) :
    s.accumulator.registerWeight ≤ 1 := by
  rw [h.registerWeight_eq hsum]
  exact div_le_one_of_le₀ t.bank.totalWeight_le (Nat.cast_nonneg _)

theorem Encodes.registerWeight_eq_one_iff (h : s.Encodes e t) (hsum : t.Summed (exactGrid ℝ)) :
    s.accumulator.registerWeight = 1 ↔ ∀ v ∈ t.bank.values, v = 0 := by
  have hslots : (p.slots : ℝ) ≠ 0 := Nat.cast_ne_zero.mpr p.slots_pos.ne'
  rw [h.registerWeight_eq hsum, div_eq_one_iff_eq hslots, Bank.totalWeight_eq_slots_iff]

/-- **A raise** and nothing else makes the raw estimate larger. -/
theorem Encodes.rawEstimate_update (h : s.Encodes e t) (hsum : t.Summed (exactGrid ℝ))
    {slot value : Nat} (hs : slot < p.slots) (hv : value ≤ maxRegister) :
    ∃ s', s.update slot value = .done s' ∧
      (s.accumulator.rawEstimate < s'.accumulator.rawEstimate ↔ t.bank.get slot < value) := by
  obtain ⟨s', hs', h'⟩ := h.update hs hv
  have hsum' : (t.update slot value).Summed (exactGrid ℝ) := hsum.apply (.update slot value)
  have hprec : s.accumulator.precision = s'.accumulator.precision := by
    rw [h.accumulator_eq, h'.accumulator_eq]
    exact h.precision_eq.trans h'.precision_eq.symm
  have hweight := h.registerWeight_eq hsum
  have hweight' := h'.registerWeight_eq hsum'
  have hslots : (0 : ℝ) < p.slots := Nat.cast_pos.mpr p.slots_pos
  refine ⟨s', hs', ?_⟩
  by_cases hlt : t.bank.get slot < value
  · rw [Plain.update_of_raise hs hv hlt] at hweight'
    refine iff_of_true (rawEstimate_lt_rawEstimate hprec (h'.registerWeight_pos hsum') ?_) hlt
    rw [hweight, hweight']
    exact div_lt_div_of_pos_right (Bank.totalWeight_set_lt hv hs hlt) hslots
  · rw [Plain.update_of_not_raise fun ⟨_, _, hraise⟩ => hlt hraise] at hweight'
    refine iff_of_false (not_lt.mpr (le_of_eq ?_)) hlt
    rw [rawEstimate_eq, rawEstimate_eq, hprec, hweight, hweight']

/-! ### The number of registers hit -/

theorem Encodes.unhit_le (h : s.Encodes e t) :
    s.accumulator.unhit ≤ s.accumulator.precision.slots := by
  rw [h.unhit_eq, h.slots_precision, ← t.bank.size_values]
  exact Array.count_le_size

/-! ### The estimate -/

/-- The table the composite estimate is read off. -/
noncomputable def table (s : Sketch ℝ) : Table ℝ := compositeTable s.accumulator.precision

/-- What the composite estimate of a sketch whose registers hold the values is put together from is
all well defined. -/
structure CompositeDefined (s : Sketch ℝ) (values : Array Nat) : Prop where
  values_eq : s.values = .ok values
  divisor_pos : 0 < s.accumulator.lowSum + s.accumulator.highSum
  firstX_eq : s.table.firstX = correctionFactor s.lgK * 2 ^ s.lgK
  firstX_le : s.table.firstX ≤ s.accumulator.rawEstimate
  eq_firstX_iff : s.accumulator.rawEstimate = s.table.firstX ↔ ∀ v ∈ values, v = 0
  /-- The raw estimate grows with the raises and with no other updates. -/
  raise : ∀ slot < s.slots, ∀ value ≤ maxRegister, ∃ old s', s.get slot = .ok old ∧
    s.update slot value = .done s' ∧
      (s.accumulator.rawEstimate < s'.accumulator.rawEstimate ↔ old < value)
  /-- The branch left of the table is not taken, and the interpolation is asked for nothing
  outside: any function that agrees with it inside would do.  What it answers is kept beyond three
  items a register, and below that where its mean with linear counting is above the crossover. -/
  estimate_eq : ∀ g : ℝ → ℝ,
    (∀ x, s.table.firstX ≤ x → x ≤ s.table.lastX → g x = s.table.interpolate x) →
      s.accumulator.compositeEstimate =
        if s.table.lastX < s.accumulator.rawEstimate then
          s.accumulator.rawEstimate * (s.table.y s.table.last / s.table.lastX)
        else if 3 * s.slots < g s.accumulator.rawEstimate then g s.accumulator.rawEstimate
        else if crossover s.lgK * s.slots <
            (g s.accumulator.rawEstimate + s.accumulator.linearEstimate) / 2 then
          g s.accumulator.rawEstimate
        else s.accumulator.linearEstimate
  /-- The registers hit, which linear counting is asked about, are no truncated difference. -/
  unhit_le : s.accumulator.unhit ≤ s.accumulator.precision.slots
  hit_eq : s.accumulator.precision.slots - s.accumulator.unhit = values.countP fun v => v ≠ 0
  linear_eq : s.accumulator.linearEstimate =
    if values.count 0 = 0 then s.accumulator.k * Real.log (s.accumulator.k / 0.5)
    else linearCount s.slots (values.countP fun v => v ≠ 0)
  hit_le : (values.countP fun v => v ≠ 0) ≤ s.slots
  eq_zero : (∀ v ∈ values, v = 0) → s.accumulator.compositeEstimate = 0

/-- **The composite estimate is well defined** on every reachable sketch. -/
theorem Reachable.composite_defined (h : Reachable s) : ∃ values, CompositeDefined s values := by
  obtain ⟨p, steps, ht⟩ := h.encodes
  have hsum := Plain.summed_run (exactGrid ℝ) p steps
  generalize (Plain.empty p : Plain ℝ p).run steps = t at ht hsum
  have hpos := ht.registerWeight_pos hsum
  have hle := firstX_le_rawEstimate hpos (ht.registerWeight_le_one hsum)
  have hiff := rawEstimate_eq_firstX_iff.trans (ht.registerWeight_eq_one_iff hsum)
  refine ⟨t.bank.values, ht.values, ?_, ?_, hle, hiff, fun slot hs value hv => ?_,
    fun g hg => ?_, ht.unhit_le, ?_, ?_, ?_, fun hzero => ?_⟩
  · rw [ht.accumulator_eq]
    exact hsum.totalWeight_eq.symm ▸ t.bank.totalWeight_pos
  · rw [table, firstX_eq, ht.lg_precision]
  · rw [ht.slots_eq] at hs
    obtain ⟨s', hs', hraise⟩ := ht.rawEstimate_update hsum hs hv
    exact ⟨_, s', ht.get hs, hs', hraise⟩
  · have hk : s.accumulator.k = s.slots :=
      congrArg Nat.cast (ht.slots_precision.trans ht.slots_eq.symm)
    rw [compositeEstimate_eq_of_firstX_le hle hg, blend_eq, hk, ht.lg_precision]
    rfl
  · rw [ht.slots_precision, ht.unhit_eq, t.bank.countP_ne_zero]
  · rw [linearEstimate, ht.unhit_eq, ht.slots_precision, ht.slots_eq, t.bank.countP_ne_zero]
    rfl
  · rw [t.bank.countP_ne_zero, ht.slots_eq]
    exact Nat.sub_le _ _
  · refine compositeEstimate_eq_zero (hiff.mpr hzero) ?_
    rw [ht.unhit_eq, ht.slots_precision, t.bank.count_zero_eq_slots_iff.mpr hzero]

/-- One of sixteen registers, raised again out of order, with a conversion between. -/
theorem composite_defined_two :
    let s := ((empty ⟨4, by decide, by decide⟩ .hll4 : Sketch ℝ).run
      [.update 3 1, .mark, .convert .hll8, .update 3 40]).state
    Reachable s ∧ s.get 3 = .ok 40 ∧ ∃ values, CompositeDefined s values :=
  have h := (reachable_empty (α := ℝ) ⟨4, by decide, by decide⟩ .hll4).run
    [.update 3 1, .mark, .convert .hll8, .update 3 40]
  ⟨h, by decide +kernel, h.composite_defined⟩

end HyperLogLog.Sketch
