import HyperLogLog.Proofs.Accumulator.Crossing
import HyperLogLog.Proofs.Sketch.CompositeEstimate

/-!
# The bounds of a sketch out of order

Out of order the estimate comes from the sums, and the floor of the lower bound from the registers.
The composite estimate is not negative, so the upper bound is above it, and more standard deviations
give wider bounds.  But nothing keeps it from falling below the floor.  The bounds are around the
estimate just when it is no less than the number of registers hit, and in order just when the upper
one is no less (`Reachable.composite_bounds`).

They are not always.  With nine registers in sixteen hit, each by a value of one, the estimate is
below all lower bounds, and from `2 ^ 8` registers on the upper bound at one standard deviation is
below the lower one (`Reachable.bounds_cross`).
-/

namespace HyperLogLog.Sketch

/-- Bounds of the composite estimate of a sketch whose registers hold the values. -/
structure CompositeBounds (s : Sketch ℝ) (values : Array Nat) : Prop where
  values_eq : s.values = .ok values
  estimate_eq : s.accumulator.estimate = s.accumulator.compositeEstimate
  floor_le : ∀ n, ((values.countP fun v => v ≠ 0 : Nat) : ℝ) ≤ s.accumulator.lowerBound n
  le_upper : ∀ n, s.accumulator.estimate ≤ s.accumulator.upperBound n
  /-- More standard deviations give wider bounds. -/
  nested : ∀ m n : StandardDeviations, n.count ≤ m.count →
    s.accumulator.lowerBound m ≤ s.accumulator.lowerBound n ∧
      s.accumulator.upperBound n ≤ s.accumulator.upperBound m
  /-- The bounds are around the estimate unless it is below the floor. -/
  ordered_iff : BoundsOrdered s values ↔
    ((values.countP fun v => v ≠ 0 : Nat) : ℝ) ≤ s.accumulator.estimate
  /-- They are in order unless the upper one is below the floor. -/
  lower_le_upper_iff : ∀ n, s.accumulator.lowerBound n ≤ s.accumulator.upperBound n ↔
    ((values.countP fun v => v ≠ 0 : Nat) : ℝ) ≤ s.accumulator.upperBound n

variable {p : Precision} {s : Sketch ℝ} {t : Plain ℝ p} {e : Encoding}

/-- **The bounds of the composite estimate**: the upper one is above it, and the lower one is below
it just if the floor is. -/
theorem Reachable.composite_bounds (h : Reachable s) (ho : s.accumulator.outOfOrder = true) :
    ∃ values, CompositeBounds s values := by
  obtain ⟨p, steps, ht⟩ := h.encodes
  have hestimate : s.accumulator.estimate = s.accumulator.compositeEstimate := if_pos ho
  have hnonneg : 0 ≤ s.accumulator.estimate :=
    hestimate ▸ s.accumulator.compositeEstimate_nonneg
  refine ⟨_, ht.values, hestimate, fun n => ?_, fun n => ?_, fun m n hnm => ?_, ?_, fun n => ?_⟩
  · exact ht.nonZeros_eq ▸ s.accumulator.nonZeros_le_lowerBound n
  · exact (s.accumulator.estimate_le_upperBound_iff n).mpr hnonneg
  · exact ⟨s.accumulator.lowerBound_anti hnm hnonneg, s.accumulator.upperBound_mono hnm hnonneg⟩
  · exact ⟨fun hordered => (hordered.floor_le .one).trans (hordered.lower_le .one),
      ht.boundsOrdered⟩
  · exact ht.nonZeros_eq ▸ s.accumulator.lowerBound_le_upperBound_iff hnonneg n

/-- One of sixteen registers, raised again out of order, with a conversion between. -/
theorem composite_bounds_two :
    let s := ((empty ⟨4, by decide, by decide⟩ .hll4 : Sketch ℝ).run
      [.update 3 1, .mark, .convert .hll8, .update 3 40]).state
    s.accumulator.outOfOrder = true ∧ ∃ values, CompositeBounds s values :=
  have ho : ((empty ⟨4, by decide, by decide⟩ .hll4 : Sketch ℝ).run
      [.update 3 1, .mark, .convert .hll8, .update 3 40]).state.accumulator.outOfOrder = true := by
    decide +kernel
  ⟨ho, ((reachable_empty _ .hll4).run _).composite_bounds ho⟩

/-! ### Bounds that cross -/

/-- Nine registers in sixteen, hit each by a value of one, are that for the accumulator. -/
theorem Encodes.hitOnce (h : s.Encodes e t) (hsum : t.Summed (exactGrid ℝ)) (hlg : 7 ≤ s.lgK)
    (hle : ∀ v ∈ t.bank.values, v ≤ 1) (hcount : 16 * t.bank.values.count 0 = 7 * p.slots) :
    s.accumulator.HitOnce where
  seven_le := h.lg_precision.symm ▸ hlg
  weight_eq := by
    have hcast : (16 * t.bank.values.count 0 : ℝ) = 7 * p.slots := by exact_mod_cast hcount
    have hpos : (0 : ℝ) < p.slots := Nat.cast_pos.mpr p.slots_pos
    rw [h.registerWeight_eq hsum, totalWeight_of_le_one hle, t.bank.size_values,
      div_eq_iff hpos.ne', Nat.cast_add]
    linarith
  unhit_eq := by rw [h.unhit_eq, h.slots_precision, hcount]

/-- **Bounds that cross.**  If nine registers in sixteen have been hit, each by a value of one, the
estimate out of order is below the lower bounds, and so is the upper bound at one standard
deviation. -/
theorem Reachable.bounds_cross (h : Reachable s) (ho : s.accumulator.outOfOrder = true)
    (hlg : 8 ≤ s.lgK) {values : Array Nat} (hvalues : s.values = .ok values)
    (hle : ∀ v ∈ values, v ≤ 1) (hcount : 16 * values.count 0 = 7 * s.slots) :
    (∀ n, s.accumulator.estimate < s.accumulator.lowerBound n) ∧
      s.accumulator.upperBound .one < s.accumulator.lowerBound .one := by
  obtain ⟨p, steps, ht⟩ := h.encodes
  obtain rfl := Except.ok.inj (ht.values.symm.trans hvalues)
  rw [ht.slots_eq] at hcount
  have hlg' := ht.lg_precision
  have honce := ht.hitOnce (Plain.summed_run _ p steps) (Nat.le_of_succ_le hlg) hle hcount
  exact ⟨honce.estimate_lt_lowerBound ho, honce.upperBound_lt_lowerBound ho (by omega)⟩

/-! ### The first registers hit -/

/-- The first registers hit, each by a value of one, and a mark. -/
def hitFirst (n : Nat) : List Step := (List.range n).map (Step.update · 1) ++ [.mark]

theorem hitFirst_valid {n : Nat} (hn : n ≤ p.slots) : ∀ st ∈ hitFirst n, st.Valid p.lg := by
  rw [hitFirst, List.forall_mem_append]
  refine ⟨List.forall_mem_map.mpr fun slot hs => ⟨?_, by decide⟩,
    List.forall_mem_singleton.mpr trivial⟩
  exact (List.mem_range.mp hs).trans_le hn

/-- What the hits leave in the registers. -/
theorem bank_hits {n : Nat} (hn : n ≤ p.slots) :
    let b := ((Plain.empty p : Plain ℝ p).run ((List.range n).map (Step.update · 1))).bank
    (∀ slot, b.get slot = if slot < n then 1 else 0) ∧ b.values.count 0 = p.slots - n := by
  induction n with
  | zero => exact ⟨Bank.get_zeros, Array.count_replicate_self⟩
  | succ n ih =>
      obtain ⟨hget, hcount⟩ := ih (Nat.le_of_succ_le hn)
      simp only [List.range_succ, List.map_append, List.map_singleton, Plain.run_append]
      generalize (Plain.empty p : Plain ℝ p).run ((List.range n).map (Step.update · 1)) = t at *
      have hzero : t.bank.get n = 0 := (hget n).trans (if_neg (lt_irrefl n))
      have hraise : t.apply (.update n 1) = t.raise n 1 (by decide) :=
        Plain.update_of_raise hn (by decide) (hzero ▸ Nat.one_pos)
      rw [hraise]
      refine ⟨fun slot => ?_, ?_⟩
      · rw [Plain.raise, Bank.get_set _ _ hn, hget]
        split_ifs <;> omega
      · rw [Plain.raise, Bank.count_set_of_lt _ _ hn Nat.one_pos, hcount, if_pos hzero, Nat.sub_sub]

/-- **The first nine registers in sixteen**, in any encoding of `2 ^ 8` registers or more. -/
theorem hitFirst_bounds_cross (hlg : 8 ≤ p.lg) (e : Encoding) {n : Nat}
    (hn : 16 * n = 9 * p.slots) :
    ∃ s, (empty p e : Sketch ℝ).run (hitFirst n) = .done s ∧ s.accumulator.outOfOrder = true ∧
      (∀ n, s.accumulator.estimate < s.accumulator.lowerBound n) ∧
      s.accumulator.upperBound .one < s.accumulator.lowerBound .one := by
  have hle : n ≤ p.slots := by omega
  obtain ⟨s, hrun, hs⟩ := (encodes_empty (α := ℝ) p e).run (hitFirst_valid hle)
  have hreach : Reachable s := by
    have h := (reachable_empty (α := ℝ) p e).run (hitFirst n)
    rwa [hrun] at h
  rw [hitFirst, Plain.run_append] at hs
  have ho : s.accumulator.outOfOrder = true := by
    rw [hs.accumulator_eq]
    rfl
  obtain ⟨hget, hcount⟩ := bank_hits hle
  refine ⟨s, hrun, ho, hreach.bounds_cross ho (hs.lgK_eq ▸ hlg) hs.values (fun v hv => ?_) ?_⟩
  · obtain ⟨slot, -, rfl⟩ := Bank.mem_values.mp hv
    refine (hget slot).trans_le ?_
    split <;> decide
  · have hzeros : 16 * (p.slots - n) = 7 * p.slots := by omega
    rw [hs.slots_eq, ← hzeros, ← hcount]
    rfl

/-- A hundred and forty-four of 256 registers, as offsets. -/
theorem bounds_cross_144 :
    ∃ s, (empty ⟨8, by decide, by decide⟩ .hll4 : Sketch ℝ).run (hitFirst 144) = .done s ∧
      s.accumulator.outOfOrder = true ∧
      (∀ n, s.accumulator.estimate < s.accumulator.lowerBound n) ∧
      s.accumulator.upperBound .one < s.accumulator.lowerBound .one :=
  hitFirst_bounds_cross (by decide) .hll4 (by decide)

end HyperLogLog.Sketch
