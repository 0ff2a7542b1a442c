import HyperLogLog.Proofs.Double.Sums
import HyperLogLog.Proofs.Sketch.Reachable

/-!
# Conversions are transparent

A conversion changes the encoding and keeps the plain sketch, and a plain sketch and an encoding
determine a sketch up to where the entries of an overflow map lie (`Encodes.same`).  So only the
last encoding of a run can be seen at its end (`conversions_transparent`): the registers built at
once by a conversion are the ones grown raise by raise, and so is the baseline that goes with them.
-/

namespace HyperLogLog.Sketch

/-- Two sketches that are equal, and whose statistics are the same doubles. -/
structure Same (s u : Sketch Float) : Prop where
  encoding : s.encoding = u.encoding
  lgK : s.lgK = u.lgK
  accumulator : s.accumulator = u.accumulator
  registers : (s.registers == u.registers) = true
  beq : (s == u) = true

variable {p : Precision} {s u : Sketch Float} {t : Plain Float p} {e : Encoding}

theorem Encodes.numeric (h : s.Encodes e t) (hn : t.accumulator.Numeric) :
    s.accumulator.Numeric := by
  rw [h.accumulator_eq]
  exact ⟨hn.hip, hn.lowSum, hn.highSum⟩

/-- **Sketches of one plain sketch in one encoding are equal.** -/
theorem Encodes.same (h : s.Encodes e t) (h' : u.Encodes e t) (hn : t.accumulator.Numeric) :
    Same s u := by
  obtain ⟨hacc, hreg⟩ := h.registers_beq h'
  have hself : (u.accumulator == u.accumulator) = true :=
    ((h'.numeric hn).beq_iff (h'.numeric hn)).mpr rfl
  refine ⟨h.encoding_eq.trans h'.encoding_eq.symm, h.lgK_eq.trans h'.lgK_eq.symm, hacc, hreg, ?_⟩
  show (s.accumulator == u.accumulator && s.registers == u.registers) = true
  rw [hacc, hself, hreg, Bool.and_self]

/-- A conversion and an update, in either order. -/
theorem Encodes.convert_update (h : s.Encodes e t) (e' : Encoding) {slot value : Nat}
    (hs : slot < p.slots) (hv : value ≤ maxRegister)
    (hn : (t.update slot value).accumulator.Numeric) :
    ∃ c cu v vc, s.convert e' = .ok c ∧ c.update slot value = .done cu ∧
      s.update slot value = .done v ∧ v.convert e' = .ok vc ∧ Same cu vc := by
  obtain ⟨c, hc, hc'⟩ := h.convert e'
  obtain ⟨cu, hcu, hcu'⟩ := hc'.update hs hv
  obtain ⟨v, hv, hv'⟩ := h.update hs hv
  obtain ⟨vc, hvc, hvc'⟩ := hv'.convert e'
  exact ⟨c, cu, v, vc, hc, hcu, hv, hvc, hcu'.same hvc' hn⟩

/-- A conversion and the one back. -/
theorem Encodes.convert_convert (h : s.Encodes e t) (e' : Encoding) (hn : t.accumulator.Numeric) :
    ∃ c d, s.convert e' = .ok c ∧ c.convert s.encoding = .ok d ∧ Same d s := by
  obtain ⟨c, hc, hc'⟩ := h.convert e'
  obtain ⟨d, hd, hd'⟩ := hc'.convert s.encoding
  rw [h.encoding_eq] at hd'
  exact ⟨c, d, hc, hd, hd'.same h hn⟩

/-- **Conversions are transparent.**  A run of valid steps is done, and ends at a sketch equal to
the one that the updates and marks among them lead to from a new sketch of the last encoding.  From
the sketch it ends at, a conversion and an update can be done in either order, and a conversion can
be undone. -/
theorem conversions_transparent (lgK : Nat) (hk : minLgK ≤ lgK ∧ lgK ≤ maxLgK) (e : Encoding)
    (steps : List Step) (hv : ∀ st ∈ steps, st.Valid lgK) :
    ∃ s₀ s u₀ u : Sketch Float,
      Sketch.new lgK e = .ok s₀ ∧ s₀.run steps = .done s ∧
      Sketch.new lgK (steps.foldl Step.encoding e) = .ok u₀ ∧
      u₀.run (steps.filter (!·.isConvert)) = .done u ∧ Same s u ∧
      (∀ e' slot value, slot < 2 ^ lgK → value ≤ maxRegister →
        ∃ c cu v vc, s.convert e' = .ok c ∧ c.update slot value = .done cu ∧
          s.update slot value = .done v ∧ v.convert e' = .ok vc ∧ Same cu vc) ∧
      ∀ e', ∃ c d, s.convert e' = .ok c ∧ c.convert s.encoding = .ok d ∧ Same d s := by
  have hn := Plain.numeric_run ⟨lgK, hk.1, hk.2⟩
  obtain ⟨s, hrun, hs⟩ := (encodes_empty (α := Float) ⟨lgK, hk.1, hk.2⟩ e).run hv
  have hv' : ∀ st ∈ steps.filter (!·.isConvert), st.Valid lgK :=
    fun st hst => hv st (List.mem_filter.mp hst).1
  obtain ⟨u, hrun', hu⟩ :=
    (encodes_empty (α := Float) ⟨lgK, hk.1, hk.2⟩ (steps.foldl Step.encoding e)).run hv'
  -- both runs end at one plain sketch in one encoding
  rw [Step.foldl_encoding_filter, Plain.run_convert] at hu
  refine ⟨_, s, _, u, new_eq_ok hk e, hrun, new_eq_ok hk _, hrun', hs.same hu (hn steps), ?_, ?_⟩
  · intro e' slot value hslot hvalue
    refine hs.convert_update e' hslot hvalue ?_
    have happ := hn (steps ++ [.update slot value])
    rwa [Plain.run_append] at happ
  · exact fun e' => hs.convert_convert e' (hn steps)

/-- Bytes, six bits and offsets in turn, with one register of sixteen raised past what a nibble
holds in two of them. -/
theorem conversions_transparent_exception :
    ∃ s₀ s u₀ u : Sketch Float,
      Sketch.new 4 .hll8 = .ok s₀ ∧
      s₀.run [.update 3 20, .convert .hll6, .mark, .update 3 40, .convert .hll4] = .done s ∧
      Sketch.new 4 .hll4 = .ok u₀ ∧
      u₀.run [.update 3 20, .mark, .update 3 40] = .done u ∧ (s == u) = true := by
  obtain ⟨s₀, s, u₀, u, h₁, h₂, h₃, h₄, hsame, -⟩ := conversions_transparent 4 (by decide) .hll8
    [.update 3 20, .convert .hll6, .mark, .update 3 40, .convert .hll4] (by decide)
  exact ⟨s₀, s, u₀, u, h₁, h₂, h₃, h₄, hsame.beq⟩

end HyperLogLog.Sketch
