import HyperLogLog.Proofs.Accumulator.Exact
import HyperLogLog.Proofs.Double.Sums
import HyperLogLog.Proofs.Sketch.Reachable

/-!
# Sums without rounding errors

One history makes a sketch over the rationals and a sketch over doubles.  Their registers are the
same, since the statistics have no part in them, and both grids follow the totals of the weights of
the bank.  So the rational sums are the sums of the weights, and the doubles are those very numbers
(`sums_exact`): each is a multiple of its unit by a number that fits 53 bits, before a raise,
between the two halves of it and after.
-/

namespace HyperLogLog

open Double

/-! ### Exact doubles -/

/-- A double without a rounding error: it is the number, which is a multiple of `2 ^ -k` by a
natural number of no more than 53 bits, and at most the bound. -/
structure Double.Exactly (k : Nat) (bound : ℚ) (x : Float) (r : ℚ) : Prop where
  value : value x = some r
  multiple : ∃ n : Nat, n < 2 ^ 53 ∧ r = n / 2 ^ k
  nonneg : 0 ≤ r
  le : r ≤ bound

theorem Double.exactly_dyadic {n k : Nat} (hn : n ≤ 2 ^ 52) (hk : k ≤ 1022) :
    Exactly k (2 ^ 52 / 2 ^ k) (dyadic n (-k)) (n / 2 ^ k) where
  value := by
    rw [value_dyadic (hn.trans_lt (by decide)) (by omega) (by omega), zpow_neg, zpow_natCast,
      div_eq_mul_inv]
  multiple := ⟨n, hn.trans_lt (by decide), rfl⟩
  nonneg := by positivity
  le := by
    gcongr
    exact_mod_cast hn

namespace Accumulator

/-- The sums of an accumulator over doubles are those of the one over the rationals. -/
structure Exact (d : Accumulator Float) (q : Accumulator ℚ) : Prop where
  low : Exactly 31 (2 ^ 21) d.lowSum q.lowSum
  high : Exactly 63 (1 / 2 ^ 11) d.highSum q.highSum

variable {d : Accumulator Float} {q : Accumulator ℚ} {n m : Nat}

/-- Sums that are the same multiples of the units on both grids. -/
theorem Sums.exact (h : d.Sums doubleGrid n m) (h' : q.Sums (exactGrid ℚ) n m) (hn : n ≤ 2 ^ 52)
    (hm : m ≤ 2 ^ 52) : d.Exact q where
  low := by
    rw [h.low, h'.low, show (2 : ℚ) ^ 21 = 2 ^ 52 / 2 ^ 31 by norm_num]
    exact exactly_dyadic hn (by decide)
  high := by
    rw [h.high, h'.high, show (1 : ℚ) / 2 ^ 11 = 2 ^ 52 / 2 ^ 63 by norm_num]
    exact exactly_dyadic hm (by decide)

/-- The baseline has no part in the sums. -/
theorem Exact.withBaseline (h : d.Exact q) (c c' : Baseline) :
    (d.withBaseline c).Exact (q.withBaseline c') := ⟨h.low, h.high⟩

end Accumulator

/-! ### Sketches -/

namespace Sketch

/-- A sketch over doubles whose sums carry no rounding error, beside the one over the rationals. -/
structure Unrounded (d : Sketch Float) (q : Sketch ℚ) : Prop where
  /-- The rational sums are the sums of the weights of the registers, which are the same. -/
  weights : ∃ values, d.values = .ok values ∧ q.values = .ok values ∧
    q.accumulator.lowSum = weightSum ℚ (· < weightSplit) values ∧
    q.accumulator.highSum = weightSum ℚ (weightSplit ≤ ·) values
  sums : d.accumulator.Exact q.accumulator
  /-- Taking the weight of a register out, the first half of its raise, gives no rounding error
  either. -/
  removed : ∀ slot old, d.get slot = .ok old →
    (d.accumulator.credit.removeWeight old).Exact (q.accumulator.credit.removeWeight old)
  /-- The second half puts the new weight in, and there is nothing else to a raise. -/
  raised : ∀ slot old value, d.get slot = .ok old → old < value → value ≤ maxRegister →
    ∃ d' q', d.update slot value = .done d' ∧ q.update slot value = .done q' ∧
      d'.accumulator =
        ((d.accumulator.credit.removeWeight old).addWeight value).withBaseline d'.baseline ∧
      q'.accumulator =
        ((q.accumulator.credit.removeWeight old).addWeight value).withBaseline q'.baseline

variable {p : Precision} {d : Sketch Float} {q : Sketch ℚ} {t : Plain Float p} {u : Plain ℚ p}
  {e e' : Encoding}

/-- Sketches of one bank, with sums that follow it on either grid. -/
theorem Encodes.unrounded (hd : d.Encodes e t) (hq : q.Encodes e' u) (hb : t.bank = u.bank)
    (ht : t.Summed doubleGrid) (hu : u.Summed (exactGrid ℚ)) : Unrounded d q where
  weights := by
    refine ⟨t.bank.values, hd.values, hb ▸ hq.values, ?_⟩
    rw [hq.accumulator_eq, hb]
    exact hu.weightSum_eq
  sums := by
    -- both sums are the same multiples, those of the one bank
    have hu' : u.accumulator.Sums (exactGrid ℚ) _ _ := hu
    rw [← hb] at hu'
    rw [hd.accumulator_eq, hq.accumulator_eq]
    exact (ht.exact hu' (t.bank.total_le_pow lowUnit_le)
      (t.bank.total_le_pow highUnit_le)).withBaseline _ _
  removed slot old hget := by
    obtain ⟨hs, rfl⟩ := hd.get_eq_ok_iff.mp hget
    have hu' := hu.removed hs
    rw [← hb] at hu'
    rw [hd.accumulator_eq, hq.accumulator_eq, Accumulator.credit_withBaseline,
      Accumulator.credit_withBaseline, Accumulator.removeWeight_withBaseline,
      Accumulator.removeWeight_withBaseline]
    exact ((ht.removed hs).exact hu' ((Nat.sub_le ..).trans (t.bank.total_le_pow lowUnit_le))
      ((Nat.sub_le ..).trans (t.bank.total_le_pow highUnit_le))).withBaseline _ _
  raised slot old value hget hlt hv := by
    have hget' : q.get slot = .ok old := hq.get_eq_ok_iff.mpr (hb ▸ hd.get_eq_ok_iff.mp hget)
    obtain ⟨d', hd', hacc⟩ := hd.update_raised hget hlt hv
    obtain ⟨q', hq', hacc'⟩ := hq.update_raised hget' hlt hv
    exact ⟨d', q', hd', hq', hacc, hacc'⟩

/-- **The sums carry no rounding error**, whatever steps have made the sketch. -/
theorem sums_exact (lgK : Nat) (hk : minLgK ≤ lgK ∧ lgK ≤ maxLgK) (e : Encoding)
    (steps : List Step) :
    ∃ (d₀ : Sketch Float) (q₀ : Sketch ℚ),
      Sketch.new lgK e = .ok d₀ ∧ Sketch.new lgK e = .ok q₀ ∧
      Unrounded (d₀.after steps) (q₀.after steps) := by
  let p : Precision := ⟨lgK, hk.1, hk.2⟩
  have hd := (encodes_empty (α := Float) p e).after steps
  have hq := (encodes_empty (α := ℚ) p e).after steps
  have h₀ : (Plain.empty p : Plain Float p).bank = (Plain.empty p : Plain ℚ p).bank := rfl
  exact ⟨_, _, new_eq_ok hk e, new_eq_ok hk e,
    hd.unrounded hq (Plain.bank_run_congr h₀ steps) (Plain.summed_run doubleGrid p steps)
      (Plain.summed_run (exactGrid ℚ) p steps)⟩

/-- Sixteen registers as offsets, one of which rises past the split of the weights and again: the
low sum has lost its one, and the high sum has two weights. -/
theorem sums_exact_split :
    let steps := [.update 3 20, .update 3 40, .mark, .convert .hll6, .update 5 33, .update 3 63]
    ∃ (d₀ : Sketch Float) (q₀ : Sketch ℚ),
      Sketch.new 4 .hll4 = .ok d₀ ∧ Sketch.new 4 .hll4 = .ok q₀ ∧
      Unrounded (d₀.after steps) (q₀.after steps) ∧
      (q₀.after steps).accumulator.lowSum = 14 ∧
      (q₀.after steps).accumulator.highSum = 1 / 2 ^ 33 + 1 / 2 ^ 63 := by
  intro steps
  obtain ⟨d₀, q₀, hd, hq, h⟩ := sums_exact 4 (by decide) .hll4 steps
  obtain rfl := Except.ok.inj ((new_eq_ok (by decide) .hll4).symm.trans hq)
  exact ⟨d₀, _, hd, hq, h, by decide +kernel, by decide +kernel⟩

end Sketch

end HyperLogLog
