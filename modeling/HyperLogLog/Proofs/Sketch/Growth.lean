import HyperLogLog.Proofs.Accumulator.Growth
import HyperLogLog.Proofs.Sketch.Minimum

/-!
# The historic estimate of a run

The gains of a run are what its steps add to the historic estimate, one for each step that raises a
register (`gains`).  In exact arithmetic they are the credits of the plain sketch, so a run carries
the ledger of the plain sketch on (`Encodes.ledger_run`), and at its end the ledger says how the
estimate has grown and what the next update will do to it (`historic_growth`).
-/

namespace HyperLogLog.Sketch

/-! ### Gains -/

section Gains

variable {α : Type}

/-- Whether a step raises a register. -/
def raises (s : Sketch α) : Step → Bool
  | .update slot value =>
      match s.get slot with
      | .ok old => decide (old < value ∧ value ≤ maxRegister)
      | .error _ => false
  | .mark | .convert _ => false

variable [Arith α]

/-- What a step adds to the historic estimate, if it raises a register. -/
def gain (s : Sketch α) (st : Step) : List α :=
  if s.raises st then [(s.apply st).state.accumulator.hip - s.accumulator.hip] else []

/-- What the steps of a run add to the historic estimate, for each step that raises a register. -/
def gains (s : Sketch α) : List Step → List α
  | [] => []
  | st :: steps => s.gain st ++ (s.apply st).state.gains steps

variable {p : Precision} {s : Sketch α} {t : Plain α p} {e : Encoding} {slot value : Nat}

omit [Arith α] in
/-- The steps that raise a register of the sketch are those that raise one of the bank. -/
theorem Encodes.raises_iff (h : s.Encodes e t) :
    s.raises (.update slot value) = true ↔
      slot < p.slots ∧ value ≤ maxRegister ∧ t.bank.get slot < value := by
  rw [raises]
  by_cases hs : slot < p.slots
  · simp only [h.get hs, decide_eq_true_eq, hs, true_and, and_comm]
  · rw [Sketch.get, if_pos (by rw [h.slots_eq]; exact not_lt.mp hs)]
    exact iff_of_false Bool.noConfusion fun hr => hs hr.1

end Gains

/-! ### The law of growth -/

variable {K : Type} [Field K] [LinearOrder K] [IsStrictOrderedRing K]

/-- What a raise makes of the historic estimate, if the registers hold the values and the gains
came before. -/
structure Credited (s s' : Sketch K) (values : Array Nat) (gains : List K) : Prop where
  hip_eq : s'.accumulator.hip = s.accumulator.hip + 2 ^ s.lgK / totalWeight K values
  one_le : 1 ≤ 2 ^ s.lgK / totalWeight K values
  lt : ∀ g ∈ gains, g < 2 ^ s.lgK / totalWeight K values
  share_le : s'.accumulator.hip / (63 * 2 ^ s.lgK) ≤ 2 ^ s.lgK / totalWeight K values
  /-- A sum of 53 bits has a last place of `2 ^ e` if it is `2 ^ (e + 52)` or a little more: the
  credit reaches far above that place. -/
  last_place_lt : ∀ e : Int, 2 ^ 52 * 2 ^ e ≤ s'.accumulator.hip →
    2 ^ 25 * 2 ^ e < 2 ^ s.lgK / totalWeight K values

/-- How the historic estimate of a sketch has grown, and how the next update lets it grow. -/
structure Growth (s : Sketch K) (values : Array Nat) (gains : List K) : Prop where
  values_eq : s.values = .ok values
  le_weight : (2 : K) ^ s.lgK * (1 / 2 ^ 63) ≤ totalWeight K values
  weight_le : totalWeight K values ≤ 2 ^ s.lgK
  hip_eq : s.accumulator.hip = gains.sum
  one_le : ∀ g ∈ gains, 1 ≤ g
  increasing : gains.Pairwise (· < ·)
  /-- There were no more raises than the historic estimate says, -/
  length_le : (gains.length : K) ≤ s.accumulator.hip
  /-- and at least one for each register that is not zero. -/
  nonZeros_le : (values.countP fun v => v ≠ 0) ≤ gains.length
  update : ∀ slot < s.slots, ∀ value ≤ maxRegister, ∃ old s',
    s.get slot = .ok old ∧ s.update slot value = .done s' ∧
    (s'.accumulator.hip ≠ s.accumulator.hip ↔ old < value) ∧
    (old < value → Credited s s' values gains)

variable {p : Precision} {s s' : Sketch K} {t : Plain K p} {e : Encoding} {gains : List K}
  {slot value : Nat}

omit [LinearOrder K] [IsStrictOrderedRing K] in
theorem Encodes.two_pow_lgK (h : s.Encodes e t) : (2 : K) ^ s.lgK = p.slots := by
  rw [h.lgK_eq, p.slots_eq, Nat.cast_pow, Nat.cast_two]

/-- A step that raises a register gains the credit of the bank. -/
theorem Encodes.gain_eq (h : s.Encodes e t) (hl : t.Ledger gains) (hs : slot < p.slots)
    (hv : value ≤ maxRegister) (hlt : t.bank.get slot < value) :
    s.gain (.update slot value) = [t.bank.credit K] := by
  obtain ⟨s', hs', h'⟩ := h.update hs hv
  rw [Plain.update_of_raise hs hv hlt] at h'
  rw [gain, if_pos (h.raises_iff.mpr ⟨hs, hv, hlt⟩), Sketch.apply, hs', Outcome.state_done,
    h'.hip_eq, h.hip_eq, hl.hip_raise, add_sub_cancel_left]

/-- **A valid step** carries the ledger on. -/
theorem Encodes.ledger_apply (h : s.Encodes e t) (hl : t.Ledger gains) (st : Step) :
    (t.apply st).Ledger (gains ++ s.gain st) := by
  cases st with
  | update slot value =>
      by_cases hraise : slot < p.slots ∧ value ≤ maxRegister ∧ t.bank.get slot < value
      · obtain ⟨hs, hv, hlt⟩ := hraise
        rw [h.gain_eq hl hs hv hlt, Plain.apply, Plain.update_of_raise hs hv hlt]
        exact hl.raise hs hv hlt
      · rw [gain, if_neg fun hr => hraise (h.raises_iff.mp hr), List.append_nil, Plain.apply,
          Plain.update_of_not_raise hraise]
        exact hl
  | mark =>
      rw [gain, raises, if_neg Bool.noConfusion, List.append_nil]
      exact hl.mark
  | convert e' =>
      rw [gain, raises, if_neg Bool.noConfusion, List.append_nil]
      exact hl

/-- **A run** carries the ledger on. -/
theorem Encodes.ledger_run (h : s.Encodes e t) (hl : t.Ledger gains) (steps : List Step) :
    (t.run steps).Ledger (gains ++ s.gains steps) := by
  induction steps generalizing s e t gains with
  | nil => rwa [Sketch.gains, List.append_nil]
  | cons st steps ih =>
      have hrest := ih (h.apply_state st) (h.ledger_apply hl st)
      rwa [List.append_assoc] at hrest

/-- A credit is a share of what the estimate has become, far above the last place of 53 bits. -/
theorem last_place_lt {hip credit : K} {e : Int} (hp : p.slots ≤ 2 ^ 21) (hc : 0 < credit)
    (h : hip ≤ 63 * p.slots * credit) (he : 2 ^ 52 * 2 ^ e ≤ hip) : 2 ^ 25 * 2 ^ e < credit := by
  have hslots : (p.slots : K) ≤ 2 ^ 21 := by exact_mod_cast hp
  have hlt : (2 : K) ^ 27 * (2 ^ 25 * 2 ^ e) < 2 ^ 27 * credit :=
    calc (2 : K) ^ 27 * (2 ^ 25 * 2 ^ e) = 2 ^ 52 * 2 ^ e := by rw [← mul_assoc, ← pow_add]
      _ ≤ 63 * p.slots * credit := he.trans h
      _ ≤ 63 * 2 ^ 21 * credit := by gcongr
      _ < 2 ^ 27 * credit := by
        gcongr
        norm_num
  exact lt_of_mul_lt_mul_left hlt (by positivity)

/-- **A raise is credited** as the ledger says. -/
theorem Encodes.credited (h : s.Encodes e t) (hl : t.Ledger gains) (hs : slot < p.slots)
    (hv : value ≤ maxRegister) (hlt : t.bank.get slot < value)
    (hip : s'.accumulator.hip = s.accumulator.hip + t.bank.credit K) :
    Credited s s' t.bank.values gains := by
  have hslots := h.two_pow_lgK
  have hcredit : (2 : K) ^ s.lgK / totalWeight K t.bank.values = t.bank.credit K := by
    rw [hslots, Bank.credit]
  have hpos : 0 < t.bank.credit K := zero_lt_one.trans_le t.bank.one_le_credit
  have hle : s'.accumulator.hip ≤ 63 * p.slots * t.bank.credit K := by
    rw [hip, h.hip_eq]
    exact hl.hip_le hs hv hlt
  refine ⟨?_, ?_, ?_, ?_, ?_⟩ <;> rw [hcredit]
  · exact hip
  · exact t.bank.one_le_credit
  · exact hl.lt_credit
  · rw [hslots, div_le_iff₀' (by have := p.slots_pos; positivity)]
    exact hle
  · intro e he
    exact last_place_lt p.slots_le hpos hle he

/-- **The growth of a sketch** is in the ledger of its plain sketch. -/
theorem Encodes.growth (h : s.Encodes e t) (hl : t.Ledger gains) :
    Growth s t.bank.values gains := by
  have hslots := h.two_pow_lgK
  refine ⟨h.values, ?_, ?_, h.hip_eq.trans hl.hip_eq, hl.one_le, hl.increasing, ?_,
    hl.nonZeros_le, ?update⟩
  · exact hslots ▸ t.bank.le_totalWeight
  · exact hslots ▸ t.bank.totalWeight_le
  · exact h.hip_eq ▸ hl.length_le_hip
  case update =>
    intro slot hs value hv
    rw [h.slots_eq] at hs
    obtain ⟨s', hs', h'⟩ := h.update hs hv
    refine ⟨_, s', h.get hs, hs', ?_⟩
    by_cases hlt : t.bank.get slot < value
    · rw [Plain.update_of_raise hs hv hlt] at h'
      have hip : s'.accumulator.hip = s.accumulator.hip + t.bank.credit K := by
        rw [h'.hip_eq, hl.hip_raise, h.hip_eq]
      have hpos : 0 < t.bank.credit K := zero_lt_one.trans_le t.bank.one_le_credit
      refine ⟨iff_of_true ?_ hlt, fun _ => h.credited hl hs hv hlt hip⟩
      rw [hip]
      exact (lt_add_of_pos_right _ hpos).ne'
    · rw [Plain.update_of_not_raise fun hr => hlt hr.2.2] at h'
      refine ⟨iff_of_false (fun hne => hne ?_) hlt, fun hlt' => absurd hlt' hlt⟩
      rw [h'.hip_eq, h.hip_eq]

/-- **The law of growth.**  A run of valid steps of a new sketch is done.  In exact arithmetic its
historic estimate is the sum of its gains, each at least one and more than the gains before it, and
the next update changes it if and only if it raises its register: by the number of registers over
their weight before the raise, which is more than any gain and no less than a 63rd of the estimate
over the number of registers. -/
theorem historic_growth (lgK : Nat) (hk : minLgK ≤ lgK ∧ lgK ≤ maxLgK) (e : Encoding)
    (steps : List Step) (hv : ∀ st ∈ steps, st.Valid lgK) :
    ∃ (s₀ s : Sketch K) (values : Array Nat), Sketch.new lgK e = .ok s₀ ∧
      s₀.run steps = .done s ∧ s.lgK = lgK ∧ Growth s values (s₀.gains steps) := by
  have h₀ := encodes_empty (α := K) ⟨lgK, hk.1, hk.2⟩ e
  obtain ⟨s, hrun, hs⟩ := h₀.run hv
  have hledger := h₀.ledger_run (Plain.ledger_empty _) steps
  exact ⟨_, s, _, new_eq_ok hk e, hrun, hs.lgK_eq, hs.growth hledger⟩

/-- Sixteen registers and three raises, with a mark, a conversion and an update that is ignored
between them. -/
theorem historic_growth_three :
    ∃ s₀ s : Sketch ℚ,
      Sketch.new 4 .hll4 = .ok s₀ ∧
      s₀.run [.update 3 1, .mark, .update 3 1, .update 5 2, .convert .hll8, .update 3 40] = .done s ∧
      s₀.gains [.update 3 1, .mark, .update 3 1, .update 5 2, .convert .hll8, .update 3 40] =
        [1, 32 / 31, 64 / 59] ∧
      s.accumulator.hip = 1 + 32 / 31 + 64 / 59 := by
  obtain ⟨s₀, s, values, h₀, hrun, -, h⟩ := historic_growth (K := ℚ) 4 (by decide) .hll4
    [.update 3 1, .mark, .update 3 1, .update 5 2, .convert .hll8, .update 3 40] (by decide)
  obtain rfl := Except.ok.inj ((new_eq_ok (by decide) .hll4).symm.trans h₀)
  have hgains : (empty ⟨4, by decide, by decide⟩ .hll4 : Sketch ℚ).gains
      [.update 3 1, .mark, .update 3 1, .update 5 2, .convert .hll8, .update 3 40] =
      [1, 32 / 31, 64 / 59] := by decide +kernel
  refine ⟨_, s, h₀, hrun, hgains, ?_⟩
  rw [h.hip_eq, hgains]
  norm_num

end HyperLogLog.Sketch
