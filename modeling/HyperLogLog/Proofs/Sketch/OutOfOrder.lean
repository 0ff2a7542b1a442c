import HyperLogLog.Proofs.Double.Sums
import HyperLogLog.Proofs.Sketch.Reachable

/-!
# Out of order, the history is forgotten

The sums of the weights are those of the bank, however they came about: on a grid no rounding tells
one history from another (`Encodes.sameWeights`).  The composite estimate reads nothing but the sums
and the number of zero registers, so two reachable sketches with the same registers have one
composite estimate, in whatever encodings they are.  Once both are out of order all estimates and
bounds go back to it (`registers_determine_estimates`), and the historic estimates, in which the
order of the raises shows, are not consulted.
-/

namespace HyperLogLog.Sketch

/-- The estimates and bounds of two sketches are the same. -/
structure SameEstimates {α : Type} [Elementary α] (s s' : Sketch α) : Prop where
  estimate : s.accumulator.estimate = s'.accumulator.estimate
  lowerBound : ∀ n, s.accumulator.lowerBound n = s'.accumulator.lowerBound n
  upperBound : ∀ n, s.accumulator.upperBound n = s'.accumulator.upperBound n
  relativeError : s.accumulator.relativeError = s'.accumulator.relativeError

variable {α : Type} {p : Precision} {s s' : Sketch α} {t t' : Plain α p} {e e' : Encoding}

/-- Sketches of one precision that answer alike at every slot have one bank. -/
theorem Encodes.bank_eq (h : s.Encodes e t) (h' : s'.Encodes e' t')
    (hget : ∀ slot < s.slots, s.get slot = s'.get slot) : t.bank = t'.bank := by
  refine Bank.ext_get fun slot hs => ?_
  have heq := hget slot (h.slots_eq ▸ hs)
  rw [h.get hs, h'.get hs] at heq
  exact Except.ok.inj heq

variable [Arith α]

/-- **One bank, one pair of sums.** -/
theorem Encodes.sameWeights {g : Grid α} (h : s.Encodes e t) (h' : s'.Encodes e' t')
    (hsum : t.Summed g) (hsum' : t'.Summed g) (hb : t.bank = t'.bank) :
    s.accumulator.SameWeights s'.accumulator where
  precision := by
    rw [h.accumulator_eq, h'.accumulator_eq]
    exact h.precision_eq.trans h'.precision_eq.symm
  lowSum := by
    rw [h.accumulator_eq, h'.accumulator_eq]
    exact hsum.low.trans (hb ▸ hsum'.low.symm)
  highSum := by
    rw [h.accumulator_eq, h'.accumulator_eq]
    exact hsum.high.trans (hb ▸ hsum'.high.symm)
  unhit := by rw [h.unhit_eq, h'.unhit_eq, hb]

/-- Reachable sketches of one precision that answer alike have the same sums. -/
theorem Reachable.sameWeights (g : Grid α) (h : Reachable s) (h' : Reachable s')
    (hk : s.lgK = s'.lgK) (hget : ∀ slot < s.slots, s.get slot = s'.get slot) :
    s.accumulator.SameWeights s'.accumulator := by
  obtain ⟨p, steps, ht⟩ := h.encodes
  obtain ⟨p', steps', ht'⟩ := h'.encodes
  obtain rfl : p = p' := Precision.eq_of_lg (ht.lgK_eq.symm.trans (hk.trans ht'.lgK_eq))
  exact ht.sameWeights ht' (Plain.summed_run g p steps) (Plain.summed_run g p steps')
    (ht.bank_eq ht' hget)

end HyperLogLog.Sketch

namespace HyperLogLog.Sketch

variable {s s' : Sketch Float}

/-- **The registers determine what is estimated out of order.**  Two reachable sketches of one
precision that answer alike at every slot have the same sums of weights and the same composite
estimate, bit for bit.  If both are out of order, they agree on all estimates and bounds. -/
theorem registers_determine_estimates (h : Reachable s) (h' : Reachable s') (hk : s.lgK = s'.lgK)
    (hget : ∀ slot < s.slots, s.get slot = s'.get slot) :
    s.accumulator.lowSum = s'.accumulator.lowSum ∧
      s.accumulator.highSum = s'.accumulator.highSum ∧
      s.accumulator.compositeEstimate = s'.accumulator.compositeEstimate ∧
      (s.accumulator.outOfOrder = true → s'.accumulator.outOfOrder = true →
        SameEstimates s s') := by
  have hsame := h.sameWeights doubleGrid h' hk hget
  refine ⟨hsame.lowSum, hsame.highSum, hsame.compositeEstimate, fun ho ho' => ?_⟩
  have hmode := ho.trans ho'.symm
  have hip (hin : s.accumulator.outOfOrder = false) : s.accumulator.hip = s'.accumulator.hip :=
    absurd (ho.symm.trans hin) Bool.noConfusion
  exact ⟨hsame.estimate hmode hip, hsame.lowerBound hmode hip, hsame.upperBound hmode hip,
    hsame.relativeError hmode⟩

/-- Two histories of sixteen registers, one as offsets with an exception that is raised again, the
other as bytes and then in six bits: the historic estimates differ. -/
theorem registers_determine_estimates_two :
    let s := ((empty ⟨4, by decide, by decide⟩ .hll4 : Sketch Float).run
      [.update 3 20, .update 5 1, .mark, .update 3 40]).state
    let s' := ((empty ⟨4, by decide, by decide⟩ .hll8 : Sketch Float).run
      [.mark, .update 3 40, .convert .hll6, .update 5 1]).state
    s.accumulator.hip ≠ s'.accumulator.hip ∧
      s.accumulator.compositeEstimate = s'.accumulator.compositeEstimate ∧
      SameEstimates s s' := by
  intro s s'
  have hget : ∀ slot < s.slots, s.get slot = s'.get slot := by decide +kernel
  obtain ⟨-, -, hcomposite, hestimates⟩ := registers_determine_estimates
    ((reachable_empty _ .hll4).run _) ((reachable_empty _ .hll8).run _) (by decide +kernel) hget
  exact ⟨by decide +kernel, hcomposite, hestimates (by decide +kernel) (by decide +kernel)⟩

end HyperLogLog.Sketch
