import HyperLogLog.Proofs.Sketch.Reachable

/-!
# Encodings stay in lockstep

Two sketches that encode one plain sketch agree on everything but the baseline and the storage
(`Encodes.agree`): on the registers because both hold the bank, and on the estimates because both
baselines tell the same number of zero registers.  A run takes sketches of one plain sketch to
sketches of one plain sketch, so two encodings fed one run agree throughout
(`encodings_agree`).
-/

namespace HyperLogLog.Sketch

/-- Two sketches that no query tells apart, those of the baseline and of the storage left out.  The
statistics are equal as numbers of the type computed in, and the registers can be read in both. -/
structure Agree {α : Type} [Elementary α] (s s' : Sketch α) : Prop where
  lgK : s.lgK = s'.lgK
  get : ∀ slot < s.slots, ∃ v, s.get slot = .ok v ∧ s'.get slot = .ok v
  values : ∃ vs, s.values = .ok vs ∧ s'.values = .ok vs
  hip : s.accumulator.hip = s'.accumulator.hip
  lowSum : s.accumulator.lowSum = s'.accumulator.lowSum
  highSum : s.accumulator.highSum = s'.accumulator.highSum
  outOfOrder : s.accumulator.outOfOrder = s'.accumulator.outOfOrder
  estimate : s.accumulator.estimate = s'.accumulator.estimate
  compositeEstimate : s.accumulator.compositeEstimate = s'.accumulator.compositeEstimate
  lowerBound : ∀ n, s.accumulator.lowerBound n = s'.accumulator.lowerBound n
  upperBound : ∀ n, s.accumulator.upperBound n = s'.accumulator.upperBound n
  relativeError : s.accumulator.relativeError = s'.accumulator.relativeError
  errorFactor : s.accumulator.errorFactor = s'.accumulator.errorFactor
  isEmpty : s.accumulator.isEmpty = s'.accumulator.isEmpty

variable {α : Type} [Elementary α] {p : Precision} {s s' : Sketch α} {t : Plain α p}
  {e e' : Encoding}

/-- **Sketches of one plain sketch agree.** -/
theorem Encodes.agree (h : s.Encodes e t) (h' : s'.Encodes e' t) : Agree s s' := by
  have hunhit : (t.accumulator.withBaseline (e.baseline t.bank.values)).unhit =
      (t.accumulator.withBaseline (e'.baseline t.bank.values)).unhit := by
    rw [Accumulator.unhit_baseline, Accumulator.unhit_baseline]
  have hsame := Accumulator.sameWeights_withBaseline hunhit
  have hacc := h.accumulator_eq
  have hacc' := h'.accumulator_eq
  exact {
    lgK := h.lgK_eq.trans h'.lgK_eq.symm
    get := fun slot hs => by
      rw [h.slots_eq] at hs
      exact ⟨_, h.get hs, h'.get hs⟩
    values := ⟨_, h.values, h'.values⟩
    hip := by rw [hacc, hacc']; rfl
    lowSum := by rw [hacc, hacc']; rfl
    highSum := by rw [hacc, hacc']; rfl
    outOfOrder := by rw [hacc, hacc']; rfl
    estimate := by rw [hacc, hacc', hsame.estimate rfl fun _ => rfl]
    compositeEstimate := by rw [hacc, hacc', hsame.compositeEstimate]
    lowerBound := fun n => by rw [hacc, hacc', hsame.lowerBound rfl fun _ => rfl]
    upperBound := fun n => by rw [hacc, hacc', hsame.upperBound rfl fun _ => rfl]
    relativeError := by rw [hacc, hacc']; rfl
    errorFactor := by rw [hacc, hacc']; rfl
    isEmpty := by rw [hacc, hacc', Accumulator.isEmpty_congr hunhit] }

/-- **Encodings stay in lockstep.**  Two new sketches of one supported precision and of any two
encodings are fed the same valid steps.  Both runs are done, and the sketches they end at agree.
The steps may convert the sketches; if none does, each sketch keeps its encoding. -/
theorem encodings_agree (lgK : Nat) (hk : minLgK ≤ lgK ∧ lgK ≤ maxLgK) (e₁ e₂ : Encoding)
    (steps : List Step) (hv : ∀ st ∈ steps, st.Valid lgK) :
    ∃ s₁ t₁ s₂ t₂ : Sketch α,
      Sketch.new lgK e₁ = .ok s₁ ∧ s₁.run steps = .done t₁ ∧
      Sketch.new lgK e₂ = .ok s₂ ∧ s₂.run steps = .done t₂ ∧
      t₁.encoding = steps.foldl Step.encoding e₁ ∧ t₂.encoding = steps.foldl Step.encoding e₂ ∧
      Agree t₁ t₂ := by
  obtain ⟨t₁, hrun₁, h₁⟩ := (encodes_empty (α := α) ⟨lgK, hk.1, hk.2⟩ e₁).run hv
  obtain ⟨t₂, hrun₂, h₂⟩ := (encodes_empty (α := α) ⟨lgK, hk.1, hk.2⟩ e₂).run hv
  exact ⟨_, t₁, _, t₂, new_eq_ok hk e₁, hrun₁, new_eq_ok hk e₂, hrun₂, h₁.encoding_eq,
    h₂.encoding_eq, h₁.agree h₂⟩

/-- Sixteen registers as offsets and as bytes, with one raised past what a nibble holds before and
after the mark, and read then. -/
theorem encodings_agree_exception :
    ∃ s₁ t₁ s₂ t₂ : Sketch Float,
      Sketch.new 4 .hll4 = .ok s₁ ∧ s₁.run [.update 3 20, .mark, .update 3 40] = .done t₁ ∧
      Sketch.new 4 .hll8 = .ok s₂ ∧ s₂.run [.update 3 20, .mark, .update 3 40] = .done t₂ ∧
      t₁.encoding = .hll4 ∧ t₂.encoding = .hll8 ∧ Agree t₁ t₂ ∧
      t₁.get 3 = .ok 40 ∧ t₂.get 3 = .ok 40 := by
  obtain ⟨s₁, t₁, s₂, t₂, hnew₁, hrun₁, hnew₂, hrun₂, henc₁, henc₂, h⟩ :=
    encodings_agree (α := Float) 4 (by decide) .hll4 .hll8 [.update 3 20, .mark, .update 3 40]
      (by decide)
  have hget : ∀ e : Encoding, ((empty ⟨4, by decide, by decide⟩ e : Sketch Float).run
      [.update 3 20, .mark, .update 3 40]).state.get 3 = .ok 40 := fun e => by
    cases e <;> decide +kernel
  have hget₁ := hget .hll4
  have hget₂ := hget .hll8
  cases hnew₁
  cases hnew₂
  rw [hrun₁] at hget₁
  rw [hrun₂] at hget₂
  exact ⟨_, t₁, _, t₂, rfl, hrun₁, rfl, hrun₂, henc₁, henc₂, h, hget₁, hget₂⟩

end HyperLogLog.Sketch
