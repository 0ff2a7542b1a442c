import HyperLogLog.Proofs.Registers.Basic
import HyperLogLog.Proofs.Sketch.Plain

/-!
# Sketches follow plain sketches

A sketch *encodes* a plain sketch when its registers hold the bank on the baseline their encoding
keeps for it, and its accumulator is the plain one with that baseline (`Encodes`).  So a plain
sketch and an encoding determine everything that can be seen of a sketch.

* `Encodes.update`: a valid update is done and is the plain update.  The one hard case is a
  register that leaves the baseline: the count falls by one, and settling takes the baseline to
  the one of the bank after the raise.
* `Encodes.apply`, `Encodes.run`: every step, and with it every run of valid steps.
* `Encodes.apply_state`: a step that no caller may ask for leaves the sketch behind as it was.
-/

namespace HyperLogLog.Sketch

variable {α : Type} {p : Precision} {s : Sketch α} {t : Plain α p} {e : Encoding}
  {slot value : Nat}

/-- The sketch is the plain sketch in an encoding. -/
structure Encodes (s : Sketch α) (e : Encoding) (t : Plain α p) : Prop where
  encoding_eq : s.encoding = e
  precision_eq : t.accumulator.precision = p
  accumulator_eq : s.accumulator = t.accumulator.withBaseline (e.baseline t.bank.values)
  registers : s.registers.Holds (e.baseline t.bank.values).value t.bank

/-! ### Queries -/

theorem Encodes.lgK_eq (h : s.Encodes e t) : s.lgK = p.lg := h.registers.lgK_eq

theorem Encodes.slots_eq (h : s.Encodes e t) : s.slots = p.slots := by
  rw [slots, h.lgK_eq]
  rfl

theorem Encodes.baseline_eq (h : s.Encodes e t) : s.baseline = e.baseline t.bank.values := by
  rw [baseline, h.accumulator_eq]
  rfl

theorem Encodes.slots_precision (h : s.Encodes e t) : s.accumulator.precision.slots = p.slots := by
  rw [h.accumulator_eq]
  exact congrArg Precision.slots h.precision_eq

theorem Encodes.lg_precision (h : s.Encodes e t) : s.accumulator.precision.lg = s.lgK := by
  rw [h.accumulator_eq, h.lgK_eq]
  exact congrArg Precision.lg h.precision_eq

theorem Encodes.hip_eq (h : s.Encodes e t) : s.accumulator.hip = t.accumulator.hip := by
  rw [h.accumulator_eq]
  rfl

theorem Encodes.unhit_eq (h : s.Encodes e t) : s.accumulator.unhit = t.bank.values.count 0 := by
  rw [h.accumulator_eq, Accumulator.unhit_baseline]

theorem Encodes.registers_get (h : s.Encodes e t) (hs : slot < p.slots) :
    s.registers.get s.baseline.value slot = .ok (t.bank.get slot) := by
  rw [h.baseline_eq]
  exact h.registers.get hs

theorem Encodes.get (h : s.Encodes e t) (hs : slot < p.slots) :
    s.get slot = .ok (t.bank.get slot) := by
  rw [Sketch.get, if_neg (by rw [h.slots_eq]; exact hs.not_ge), h.registers_get hs]

/-- Only slots in range can be read. -/
theorem Encodes.get_eq_ok_iff (h : s.Encodes e t) {v : Nat} :
    s.get slot = .ok v ↔ slot < p.slots ∧ t.bank.get slot = v := by
  by_cases hs : slot < p.slots
  · rw [h.get hs, Except.ok.injEq, and_iff_right hs]
  · rw [Sketch.get, if_pos (by rw [h.slots_eq]; exact not_lt.mp hs)]
    exact iff_of_false nofun fun hv => hs hv.1

theorem Encodes.values (h : s.Encodes e t) : s.values = .ok t.bank.values := by
  rw [Sketch.values, h.baseline_eq]
  exact h.registers.values

/-! ### Conversions -/

/-- Re-encoding a sketch keeps the plain sketch. -/
theorem Encodes.convert (h : s.Encodes e t) (e' : Encoding) :
    ∃ s', s.convert e' = .ok s' ∧ s'.Encodes e' t := by
  rw [Sketch.convert]
  split
  · rename_i he
    exact ⟨s, rfl, (he.trans h.encoding_eq) ▸ h⟩
  · obtain ⟨r, hr, henc, hold⟩ := h.registers.convert e'
    rw [h.baseline_eq, hr]
    exact ⟨_, rfl, henc, h.precision_eq, by rw [h.accumulator_eq]; rfl, hold⟩

/-! ### Raises -/

/-- **A register leaves the baseline.**  The registers hold the bank after the raise on the old
base, with the register that left still counted; settling finds the baseline of the bank. -/
theorem leaveBaseline_done {r : Registers} {b : Bank p} {base : Nat} (h : r.Holds base b)
    (a : Accumulator α) :
    ∃ r', (⟨r, a.withBaseline ⟨base, b.values.count base + 1⟩⟩ : Sketch α).leaveBaseline =
        .done ⟨r', a.withBaseline (r.encoding.baseline b.values)⟩ ∧
      r'.encoding = r.encoding ∧ r'.Holds (r.encoding.baseline b.values).value b := by
  obtain ⟨r', hr', henc, h'⟩ := h.settle
  refine ⟨r', ?_, henc, h'⟩
  have hleave : (a.withBaseline ⟨base, b.values.count base + 1⟩).leaveBaseline =
      .done (a.withBaseline ⟨base, b.values.count base⟩) := if_neg (Nat.succ_ne_zero _)
  have hrebase : (a.withBaseline ⟨base, b.values.count base⟩).rebase
      (r.encoding.baseline b.values) = .done (a.withBaseline (r.encoding.baseline b.values)) :=
    if_neg h.base_le_baseline.not_gt
  rw [leaveBaseline, hleave, Outcome.map_done, Outcome.andThen_done, settle, baseline,
    Accumulator.baseline_withBaseline, hr']
  exact congrArg (Outcome.map _) hrebase

variable [Arith α]

/-- The first half of a raise: the accumulator has the raise, the registers hold the bank after it,
and both are still on the old baseline. -/
theorem Encodes.report_write (h : s.Encodes e t) (hs : slot < p.slots) (hv : value ≤ maxRegister)
    (hlt : t.bank.get slot < value) :
    ∃ r', (s.report (t.bank.get slot) value).andThen (·.write slot value) =
        .done ⟨r', (t.accumulator.raised (t.bank.get slot) value).withBaseline s.baseline⟩ ∧
      r'.encoding = e ∧ r'.Holds s.baseline.value (t.bank.set slot value hv) := by
  obtain ⟨r', hput, henc, hreg⟩ := h.registers.put hs hv hlt
  rw [← h.baseline_eq] at hput hreg
  refine ⟨r', ?_, henc.trans h.encoding_eq, hreg⟩
  obtain ⟨r, a⟩ := s
  have hacc : a = t.accumulator.withBaseline a.baseline :=
    h.accumulator_eq.trans (congrArg t.accumulator.withBaseline h.baseline_eq.symm)
  have hraised : a.raised (t.bank.get slot) value =
      (t.accumulator.raised (t.bank.get slot) value).withBaseline a.baseline := by
    rw [← Accumulator.raised_withBaseline, ← hacc]
  rw [report, Accumulator.raise_done hlt, Outcome.map_done, Outcome.andThen_done, hraised]
  exact congrArg (Outcome.map _) hput

/-- **A raise** of a register is a raise of the bank. -/
theorem Encodes.raise (h : s.Encodes e t) (hs : slot < p.slots) (hv : value ≤ maxRegister)
    (hlt : t.bank.get slot < value) :
    ∃ s', s.raise slot (t.bank.get slot) value = .done s' ∧
      s'.Encodes e (t.raise slot value hv) := by
  have hprec : (t.raise slot value hv).accumulator.precision = p :=
    (t.accumulator.precision_raised _ _).trans h.precision_eq
  obtain ⟨r', hwrite, rfl, hreg⟩ := h.report_write hs hv hlt
  rw [h.baseline_eq] at hwrite hreg
  rw [Sketch.raise, hwrite, Outcome.andThen_done, baseline, Accumulator.baseline_withBaseline]
  split
  case isTrue he =>
    -- settling finds the baseline of the bank after the raise
    rw [Bank.baseline_of_get_eq _ hv hs hlt he]
    obtain ⟨r₁, hleave, henc₁, hreg₁⟩ :=
      leaveBaseline_done hreg (t.accumulator.raised (t.bank.get slot) value)
    exact ⟨_, hleave, henc₁, hprec, rfl, hreg₁⟩
  case isFalse hne =>
    -- nothing settles, and the old baseline is the one of the bank after the raise
    have hsame := Bank.baseline_set_of_ne r'.encoding hv hs hlt hne
    refine ⟨_, rfl, rfl, hprec, ?_, ?_⟩
    · exact congrArg (Accumulator.withBaseline _) hsame.symm
    · exact congrArg Baseline.value hsame ▸ hreg

/-! ### Steps and runs -/

theorem encodes_empty (p : Precision) (e : Encoding) :
    (empty p e : Sketch α).Encodes e (Plain.empty p) where
  encoding_eq := Registers.encoding_zeros p.lg e
  precision_eq := rfl
  accumulator_eq := by
    rw [Plain.empty, Bank.baseline_zeros]
    rfl
  registers := by
    rw [Plain.empty, Bank.baseline_zeros]
    exact Registers.holds_zeros p e

/-- **A valid update** is done, and is the update of the plain sketch. -/
theorem Encodes.update (h : s.Encodes e t) (hs : slot < p.slots) (hv : value ≤ maxRegister) :
    ∃ s', s.update slot value = .done s' ∧ s'.Encodes e (t.update slot value) := by
  rw [Sketch.update, if_neg hv.not_gt, h.slots_eq, if_neg hs.not_ge, h.registers_get hs]
  by_cases hle : value ≤ t.bank.get slot
  · rw [Plain.update_of_not_raise fun ⟨_, _, hlt⟩ => hle.not_gt hlt]
    exact ⟨s, if_pos hle, h⟩
  · rw [Plain.update_of_raise hs hv (not_le.mp hle)]
    obtain ⟨s', hs', h'⟩ := h.raise hs hv (not_le.mp hle)
    exact ⟨s', (if_neg hle).trans hs', h'⟩

/-- An update that raises a register leaves the statistics of the raise, on the new baseline. -/
theorem Encodes.update_raised (h : s.Encodes e t) {old : Nat} (hget : s.get slot = .ok old)
    (hlt : old < value) (hv : value ≤ maxRegister) :
    ∃ s', s.update slot value = .done s' ∧
      s'.accumulator = (s.accumulator.raised old value).withBaseline s'.baseline := by
  obtain ⟨hs, rfl⟩ := h.get_eq_ok_iff.mp hget
  obtain ⟨s', hs', h'⟩ := h.update hs hv
  rw [Plain.update_of_raise hs hv hlt] at h'
  refine ⟨s', hs', ?_⟩
  rw [h'.baseline_eq, h'.accumulator_eq, h.accumulator_eq, Accumulator.raised_withBaseline]
  rfl

/-- The fault of an update that no caller may ask for. -/
def refusal (s : Sketch α) (slot value : Nat) : Fault :=
  if maxRegister < value then .valueTooLarge value else .slotOutOfRange s.slots slot

/-- **An update that no caller may ask for** is refused, and the sketch is as it was. -/
theorem update_refused (s : Sketch α) (h : ¬ (slot < s.slots ∧ value ≤ maxRegister)) :
    s.update slot value = .faulted (s.refusal slot value) s := by
  rw [Sketch.update, refusal]
  split
  · rfl
  · rename_i hv
    exact if_pos (not_lt.mp fun hs => h ⟨hs, not_lt.mp hv⟩)

theorem Encodes.markOutOfOrder (h : s.Encodes e t) :
    s.markOutOfOrder.Encodes e (t.apply .mark) where
  encoding_eq := h.encoding_eq
  precision_eq := h.precision_eq
  accumulator_eq := congrArg Accumulator.markOutOfOrder h.accumulator_eq
  registers := h.registers

/-- **A valid step** is done, and is the step of the plain sketch. -/
theorem Encodes.apply (h : s.Encodes e t) {st : Step} (hv : st.Valid p.lg) :
    ∃ s', s.apply st = .done s' ∧ s'.Encodes (st.encoding e) (t.apply st) := by
  cases st with
  | update slot value => exact h.update hv.1 hv.2
  | mark => exact ⟨_, rfl, h.markOutOfOrder⟩
  | convert e' =>
      obtain ⟨s', hs', h'⟩ := h.convert e'
      exact ⟨s', by rw [Sketch.apply, hs'], h'⟩

/-- **Any step**, valid or not, leaves behind the sketch that encodes the step of the plain
sketch. -/
theorem Encodes.apply_state (h : s.Encodes e t) (st : Step) :
    (s.apply st).state.Encodes (st.encoding e) (t.apply st) := by
  by_cases hv : st.Valid p.lg
  · obtain ⟨s', hs', h'⟩ := h.apply hv
    rw [hs']
    exact h'
  · cases st with
    | update slot value =>
        have hf := s.update_refused fun ⟨hs, hle⟩ => hv ⟨hs.trans_eq h.slots_eq, hle⟩
        have hsame : t.update slot value = t :=
          Plain.update_of_not_raise fun ⟨hs, hle, _⟩ => hv ⟨hs, hle⟩
        rw [Sketch.apply, hf, Outcome.state_faulted, Plain.apply, hsame]
        exact h
    | mark | convert e' => exact absurd trivial hv

/-- **A run of valid steps** is done, and is the run of the plain sketch. -/
theorem Encodes.run (h : s.Encodes e t) {steps : List Step}
    (hv : ∀ st ∈ steps, st.Valid p.lg) :
    ∃ s', s.run steps = .done s' ∧ s'.Encodes (steps.foldl Step.encoding e) (t.run steps) := by
  induction steps generalizing s e t with
  | nil => exact ⟨s, rfl, h⟩
  | cons st steps ih =>
      obtain ⟨s₁, hs₁, h₁⟩ := h.apply (hv st List.mem_cons_self)
      obtain ⟨s', hs', h'⟩ := ih h₁ fun st' hst => hv st' (List.mem_cons_of_mem st hst)
      exact ⟨s', by rw [Sketch.run, Outcome.forEach, hs₁]; exact hs', h'⟩

/-! ### Equality -/

omit [Arith α] in
/-- **Two sketches of one encoding and baseline** have equal registers exactly when they encode one
bank. -/
theorem Encodes.registers_beq_iff {s' : Sketch α} {t' : Plain α p} (h : s.Encodes e t)
    (h' : s'.Encodes e t') (hbase : s.baseline = s'.baseline) :
    (s.registers == s'.registers) = true ↔ t.bank = t'.bank := by
  have hreg := h'.registers
  rw [← h'.baseline_eq, ← hbase, h.baseline_eq] at hreg
  exact h.registers.beq_iff hreg (h.encoding_eq.trans h'.encoding_eq.symm)

omit [Arith α] in
/-- Two sketches that encode one plain sketch in one encoding have the same statistics and equal
registers. -/
theorem Encodes.registers_beq {s' : Sketch α} (h : s.Encodes e t) (h' : s'.Encodes e t) :
    s.accumulator = s'.accumulator ∧ (s.registers == s'.registers) = true :=
  ⟨h.accumulator_eq.trans h'.accumulator_eq.symm,
    (h.registers_beq_iff h' (h.baseline_eq.trans h'.baseline_eq.symm)).mpr rfl⟩

end HyperLogLog.Sketch
