import HyperLogLog.Estimate.CompositeTable
import HyperLogLog.Proofs.Estimate.MeanWeight
import HyperLogLog.Proofs.Precision
import Mathlib.Order.Monotone.Basic

/-!
# The order of the composite table

A node is inverse to the mean weight of a register (`tableNode_eq_div`), and the mean weight falls
from one wherever the exponential does.  So the table begins with the raw estimate of no items, and
each node is larger than the one before (`Decays.table_increases`).  Nothing is needed of the
exponential but its decay.
-/

namespace HyperLogLog

theorem tableStride_pos (p : Precision) : 0 < tableStride p := by
  have hslots := p.slots_pos
  rw [tableStride_eq]
  omega

section Field

variable {K : Type} [Field K] [LinearOrder K] [e : Elementary K]

/-- A node over an ordered field. -/
theorem tableNode_eq_div (hexact : e.toArith = exactArith) (p : Precision) (i : Nat) :
    (tableNode p i : K) =
      correctionFactor p.lg * 2 ^ p.lg / meanWeight (i * (tableStride p / 2 ^ p.lg) : K) := by
  have hslots : (p.slots : K) = 2 ^ p.lg := by
    rw [p.slots_eq, Nat.cast_pow, Nat.cast_two]
  have hmean : ((i * tableStride p : Nat) : K) / 2 ^ p.lg = i * (tableStride p / 2 ^ p.lg) := by
    rw [Nat.cast_mul, mul_div_assoc]
  rw [← hmean, ← hslots]
  obtain ⟨sqrt, exp, log⟩ := e
  subst hexact
  rfl

variable [IsStrictOrderedRing K]

theorem correctionFactor_pos (hexact : e.toArith = exactArith) (lgK : Nat) :
    0 < (correctionFactor lgK : K) := by
  have hslots : (0 : K) < (Nat.pow 2 lgK : Nat) := Nat.cast_pos.mpr (Nat.two_pow_pos lgK)
  obtain ⟨sqrt, exp, log⟩ := e
  subst hexact
  unfold correctionFactor
  split
  case h_4 =>
    rw [Nat.cast_one]
    positivity
  all_goals norm_num

namespace Decays

theorem meanWeight_le_one (h : Decays K) {lam : K} (hlam : 0 ≤ lam) : meanWeight lam ≤ 1 := by
  rw [← h.meanWeight_zero]
  rcases hlam.eq_or_lt with rfl | hlt
  · exact le_refl _
  · exact (h.meanWeight_lt_meanWeight le_rfl hlt).le

/-- **A later node** is a larger one. -/
theorem tableNode_lt_tableNode (h : Decays K) (p : Precision) {i j : Nat} (hij : i < j) :
    (tableNode p i : K) < tableNode p j := by
  have hstep : (0 : K) < tableStride p / 2 ^ p.lg :=
    div_pos (Nat.cast_pos.mpr (tableStride_pos p)) (by positivity)
  have hunit : (0 : K) < correctionFactor p.lg * 2 ^ p.lg :=
    mul_pos (correctionFactor_pos h.exact p.lg) (by positivity)
  have hi : (0 : K) ≤ i * (tableStride p / 2 ^ p.lg) := mul_nonneg (Nat.cast_nonneg i) hstep.le
  have hlt : (i * (tableStride p / 2 ^ p.lg) : K) < j * (tableStride p / 2 ^ p.lg) :=
    mul_lt_mul_of_pos_right (Nat.cast_lt.mpr hij) hstep
  rw [tableNode_eq_div h.exact, tableNode_eq_div h.exact]
  exact div_lt_div_of_pos_left hunit (h.meanWeight_pos (hi.trans hlt.le))
    (h.meanWeight_lt_meanWeight hi hlt)

/-- **The table increases.**  The mean weight is one with no items, stays above the weight of the
largest value, and falls strictly; so at every precision the table begins at the correction factor
times the number of registers and increases strictly, and no two nodes have a difference of zero. -/
theorem table_increases (h : Decays K) :
    meanWeight (0 : K) = 1 ∧
      (∀ lam : K, 0 ≤ lam → 1 / 2 ^ 63 < meanWeight lam ∧ meanWeight lam ≤ 1) ∧
      StrictAntiOn (meanWeight : K → K) (Set.Ici 0) ∧
      ∀ p : Precision,
        (compositeTable p : Table K).firstX = correctionFactor p.lg * 2 ^ p.lg ∧
        StrictMono (compositeTable p : Table K).x ∧
        ∀ i j, i ≠ j → (compositeTable p : Table K).x i - (compositeTable p : Table K).x j ≠ 0 := by
  refine ⟨h.meanWeight_zero, fun lam hlam => ⟨h.lt_meanWeight hlam, h.meanWeight_le_one hlam⟩,
    fun _ hlam _ _ hlt => h.meanWeight_lt_meanWeight hlam hlt, fun p => ⟨?_, ?_⟩⟩
  · have hfirst : (compositeTable p : Table K).firstX = tableNode p 0 := rfl
    rw [hfirst, tableNode_eq_div h.exact, Nat.cast_zero, zero_mul, h.meanWeight_zero, div_one]
  · have hmono : StrictMono (compositeTable p : Table K).x :=
      fun _ _ hij => h.tableNode_lt_tableNode p hij
    exact ⟨hmono, fun i j hij => sub_ne_zero.mpr (hmono.injective.ne hij)⟩

end Decays

end Field

/-- The table of sixteen registers, with the exponential function. -/
theorem table_increases_sixteen :
    Decays ℝ ∧
      (compositeTable ⟨4, by decide, by decide⟩ : Table ℝ).firstX = 0.673 * 2 ^ 4 ∧
      StrictMono (compositeTable ⟨4, by decide, by decide⟩ : Table ℝ).x := by
  obtain ⟨-, -, -, htable⟩ := Decays.table_increases decays_real
  obtain ⟨hfirst, hmono, -⟩ := htable ⟨4, by decide, by decide⟩
  have hfactor : (correctionFactor 4 : ℝ) = 0.673 := rfl
  rw [← hfactor]
  exact ⟨decays_real, hfirst, hmono⟩

end HyperLogLog
