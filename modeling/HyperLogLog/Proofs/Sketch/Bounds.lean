import HyperLogLog.Proofs.Accumulator.Bounds
import HyperLogLog.Proofs.Accumulator.Growth
import HyperLogLog.Proofs.Sketch.Reachable

/-!
# The bounds of a reachable sketch

The floor of the lower bound is the number of registers that are not zero, whatever the encoding
(`Encodes.nonZeros_eq`).  In order the estimate is the historic one, to which each of these
registers has added at least one, so the bounds lie around it (`Reachable.historic_bounds`).
-/

namespace HyperLogLog.Sketch

/-- Bounds around the estimate of a sketch whose registers hold the values. -/
structure BoundsOrdered (s : Sketch ℝ) (values : Array Nat) : Prop where
  values_eq : s.values = .ok values
  floor_le : ∀ n, ((values.countP fun v => v ≠ 0 : Nat) : ℝ) ≤ s.accumulator.lowerBound n
  lower_le : ∀ n, s.accumulator.lowerBound n ≤ s.accumulator.estimate
  le_upper : ∀ n, s.accumulator.estimate ≤ s.accumulator.upperBound n
  /-- More standard deviations give wider bounds. -/
  nested : ∀ m n : StandardDeviations, n.count ≤ m.count →
    s.accumulator.lowerBound m ≤ s.accumulator.lowerBound n ∧
      s.accumulator.upperBound n ≤ s.accumulator.upperBound m
  divisor_pos : ∀ n : StandardDeviations,
    0 < 1 - (n.count : ℝ) * s.accumulator.errorFactor / √(2 ^ s.lgK)

section

variable {α : Type} {p : Precision} {s : Sketch α} {t : Plain α p} {e : Encoding}

/-- **The floor of the lower bound** is the number of registers that are not zero. -/
theorem Encodes.nonZeros_eq (h : s.Encodes e t) :
    s.accumulator.nonZeros = t.bank.values.countP fun v => v ≠ 0 := by
  rw [Accumulator.nonZeros_eq, h.slots_precision, h.unhit_eq, t.bank.countP_ne_zero]

end

variable {p : Precision} {s : Sketch ℝ} {t : Plain ℝ p} {e : Encoding}

theorem Encodes.k_eq (h : s.Encodes e t) : s.accumulator.k = 2 ^ s.lgK := by
  rw [s.accumulator.k_eq, h.lg_precision]

/-- **An estimate no less than the number of registers hit** has its bounds around it. -/
theorem Encodes.boundsOrdered (h : s.Encodes e t)
    (hfloor : ((t.bank.values.countP fun v => v ≠ 0 : Nat) : ℝ) ≤ s.accumulator.estimate) :
    BoundsOrdered s t.bank.values where
  values_eq := h.values
  floor_le n := h.nonZeros_eq ▸ s.accumulator.nonZeros_le_lowerBound n
  lower_le n := (s.accumulator.lowerBound_le_estimate_iff n).mpr (h.nonZeros_eq ▸ hfloor)
  le_upper n := (s.accumulator.estimate_le_upperBound_iff n).mpr ((Nat.cast_nonneg _).trans hfloor)
  nested m n hnm := by
    have hestimate : 0 ≤ s.accumulator.estimate := (Nat.cast_nonneg _).trans hfloor
    exact ⟨s.accumulator.lowerBound_anti hnm hestimate, s.accumulator.upperBound_mono hnm hestimate⟩
  divisor_pos n := by
    rw [← h.k_eq, ← Accumulator.margin_eq]
    exact sub_pos.mpr (s.accumulator.margin_lt_one n)

/-- **The bounds of the historic estimate** lie around it, nested and above the floor. -/
theorem Reachable.historic_bounds (h : Reachable s) (ho : s.accumulator.outOfOrder = false) :
    ∃ values, BoundsOrdered s values := by
  obtain ⟨p, steps, ht⟩ := h.encodes
  obtain ⟨gains, hledger⟩ := Plain.exists_ledger (K := ℝ) p steps
  refine ⟨_, ht.boundsOrdered ?_⟩
  have hestimate : s.accumulator.estimate = s.accumulator.hip := by
    rw [Accumulator.estimate, ho]
    rfl
  rw [hestimate, ht.hip_eq]
  exact hledger.nonZeros_le_hip

/-- Three raises of two of sixteen registers, with a conversion between them. -/
theorem historic_bounds_three :
    let s := ((empty ⟨4, by decide, by decide⟩ .hll4 : Sketch ℝ).run
      [.update 3 1, .update 5 2, .convert .hll8, .update 3 40]).state
    s.accumulator.outOfOrder = false ∧ ∃ values, BoundsOrdered s values :=
  have ho : ((empty ⟨4, by decide, by decide⟩ .hll4 : Sketch ℝ).run
      [.update 3 1, .update 5 2, .convert .hll8, .update 3 40]).state.accumulator.outOfOrder =
        false := by decide +kernel
  ⟨ho, ((reachable_empty _ .hll4).run _).historic_bounds ho⟩

end HyperLogLog.Sketch
