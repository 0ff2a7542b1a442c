import HyperLogLog.Proofs.Registers.Basic
import HyperLogLog.Proofs.Registers.Exceptions

/-!
# Registers — re-encoding

Registers are *reachable* on a base when they have been built from values, written one at a time, or
had their base raised (`Reachable`).  A write may lower a register as well as raise it, and need not
leave one on the base, so the base of reachable registers is below all values but may not be the
least of them.  Reachable registers hold a bank on their base (`Reachable.holds`), and re-encoding
them is building the registers of that bank, whatever the encoding and the base have been:

* `Reachable.convert_spec`: the values stay, the baseline becomes the one the new encoding keeps,
  and what comes of a second conversion is what it would have made of the registers directly.
-/

namespace HyperLogLog.Registers

variable {p : Precision} {b : Bank p} {r r' : Registers} {base slot value : Nat} {e : Encoding}

/-! ### Reachable registers -/

/-- Registers that are new or built from values, or that a write or a rise of the base has left,
with the base they are stored on. -/
inductive Reachable : Registers → Nat → Prop where
  | zeros (p : Precision) (e : Encoding) : Reachable (zeros p.lg e) 0
  | ofValues {lgK : Nat} {values : Array Nat} {e : Encoding} {r : Registers} {c : Baseline}
      (hk : minLgK ≤ lgK ∧ lgK ≤ maxLgK) (hle : ∀ v ∈ values, v ≤ maxRegister)
      (h : ofValues lgK values e = .ok (r, c)) : Reachable r c.value
  | put {r r' : Registers} {base slot value : Nat} (h : Reachable r base) (hs : slot < 2 ^ r.lgK)
      (hv : value ≤ maxRegister) (h' : r.put base slot value = .done r') : Reachable r' base
  | rise {a a' : OffsetArray} {base count : Nat} (h : Reachable (offsets a) base)
      (h' : a.rise base = .ok (a', count)) : Reachable (offsets a') (base + 1)

theorem Holds.slots_eq (h : r.Holds base b) : 2 ^ r.lgK = p.slots := by
  rw [h.lgK_eq, p.slots_eq]

/-- A write that is done is the write of the bank. -/
theorem Holds.of_put_eq_done (h : r.Holds base b) (hs : slot < p.slots) (hv : value ≤ maxRegister)
    (hput : r.put base slot value = .done r') : r'.Holds base (b.set slot value hv) := by
  cases r with
  | offsets a =>
      obtain ⟨a', ha', rfl⟩ := Outcome.of_map_eq_done hput
      exact OffsetArray.Holds.of_put_eq_done h hs hv ha'
  | sixBit a =>
      obtain ⟨a', ha', rfl⟩ := Outcome.of_map_eq_done hput
      obtain ⟨a₁, ha₁, h'⟩ := h.2.put hs hv
      obtain rfl := Outcome.done.inj (ha₁.symm.trans ha')
      exact ⟨h.1, h'⟩
  | octets a =>
      obtain ⟨a', ha', rfl⟩ := Outcome.of_map_eq_done hput
      obtain ⟨a₁, ha₁, h'⟩ := h.2.put hs hv
      obtain rfl := Outcome.done.inj (ha₁.symm.trans ha')
      exact ⟨h.1, h'⟩

/-- Values that registers have been built from are one for each register. -/
theorem size_of_ofValues_eq_ok {lgK : Nat} {values : Array Nat} {c : Baseline}
    (h : ofValues lgK values e = .ok (r, c)) : values.size = 2 ^ lgK := by
  by_cases hne : values.size ≠ Nat.pow 2 lgK
  · rw [ofValues.eq_def, if_pos hne] at h
    cases h
  · exact not_not.mp hne

/-- **Reachable registers hold a bank** on their base. -/
theorem Reachable.holds (h : r.Reachable base) :
    ∃ (p : Precision) (b : Bank p), r.Holds base b := by
  induction h with
  | zeros p e => exact ⟨p, .zeros p, holds_zeros p e⟩
  | @ofValues lgK values e r c hk hle h =>
      obtain ⟨b, rfl⟩ : ∃ b : Bank ⟨lgK, hk.1, hk.2⟩, b.values = values :=
        ⟨⟨values, size_of_ofValues_eq_ok h, hle⟩, rfl⟩
      obtain ⟨r', hr', -, h'⟩ := ofValues_done b e
      obtain ⟨rfl, rfl⟩ := Prod.ext_iff.mp (Except.ok.inj (hr'.symm.trans h))
      exact ⟨_, b, h'⟩
  | put h hs hv h' ih =>
      obtain ⟨p, b, hb⟩ := ih
      exact ⟨p, _, hb.of_put_eq_done (hs.trans_eq hb.slots_eq) hv h'⟩
  | rise h h' ih =>
      obtain ⟨p, b, hb⟩ := ih
      exact ⟨p, b, OffsetArray.Holds.of_rise_eq_ok hb h'⟩

/-! ### Conversions -/

/-- What a conversion makes of registers with the values: the registers `r'` with the baseline
`c`. -/
structure Reencodes (r : Registers) (base : Nat) (values : Array Nat) (e : Encoding)
    (r' : Registers) (c : Baseline) : Prop where
  encoding_eq : r'.encoding = e
  lgK_eq : r'.lgK = r.lgK
  size_eq : values.size = 2 ^ r.lgK
  get : ∀ slot < 2 ^ r.lgK, ∃ v ≤ maxRegister, values[slot]? = some v ∧
    r.get base slot = .ok v ∧ r'.get c.value slot = .ok v
  count_eq : c.count = values.count c.value
  /-- Offsets are from the minimum, and the overflow map has what does not fit. -/
  offsets : e = .hll4 → (c.value ∈ values ∧ ∀ v ∈ values, c.value ≤ v) ∧ 1 ≤ c.count ∧
    ∃ a, r' = .offsets a ∧ a.Represents c.value values
  zeros : e ≠ .hll4 → c.value = 0

theorem Holds.reencodes (h : r.Holds base b) (henc : r'.encoding = e)
    (h' : r'.Holds (e.baseline b.values).value b) :
    r.Reencodes base b.values e r' (e.baseline b.values) where
  encoding_eq := henc
  lgK_eq := h'.lgK_eq.trans h.lgK_eq.symm
  size_eq := b.size_values.trans h.slots_eq.symm
  get slot hs := by
    rw [h.slots_eq] at hs
    exact ⟨b.get slot, b.get_le slot, b.getElem?_of_lt hs, h.get hs, h'.get hs⟩
  count_eq := e.baseline_count b.values
  offsets he := by
    subst he
    have hmem : (Baseline.ofMinimum b.values).value ∈ b.values :=
      Baseline.ofMinimum_value_mem (b.size_values ▸ p.slots_pos)
    refine ⟨⟨hmem, fun v hv => Baseline.ofMinimum_value_le hv⟩, Array.count_pos_iff.mpr hmem, ?_⟩
    cases r' with
    | offsets a => exact ⟨a, rfl, OffsetArray.Holds.represents h'⟩
    | sixBit a | octets a => cases henc
  zeros he := by
    cases e with
    | hll4 => exact absurd rfl he
    | hll6 | hll8 => rfl

/-- **Re-encoding is faithful.**  Of all reachable registers, in any encoding and whether or not
their base is the least value, a conversion keeps every value and takes the baseline to the one the
new encoding keeps.  A second conversion has the result it would have had of the registers
themselves. -/
theorem Reachable.convert_spec (h : r.Reachable base) (e : Encoding) :
    ∃ values r' c, r.values base = .ok values ∧ r.convert base e = .ok (r', c) ∧
      r.Reencodes base values e r' c ∧
      ∀ e', ∃ r₁ r₂ c', r'.convert c.value e' = .ok (r₁, c') ∧
        r.convert base e' = .ok (r₂, c') ∧ (r₁ == r₂) = true := by
  obtain ⟨p, b, hb⟩ := h.holds
  obtain ⟨r', hr', henc, h'⟩ := hb.convert e
  refine ⟨b.values, r', _, hb.values, hr', hb.reencodes henc h', fun e' => ?_⟩
  obtain ⟨r₁, hr₁, henc₁, h₁⟩ := h'.convert e'
  obtain ⟨r₂, hr₂, henc₂, h₂⟩ := hb.convert e'
  exact ⟨r₁, r₂, _, hr₁, hr₂, (h₁.beq_iff h₂ (henc₁.trans henc₂.symm)).mpr rfl⟩

/-- Sixteen registers on base 1, of which only slot 0 was, and which slot 0 has left for 40: the
least value is 3 now, and 17 fits a nibble on that. -/
theorem convert_spec_above_base :
    ∃ r c r₁, ofValues 4 #[1, 20, 3, 17, 3, 3, 3, 3, 3, 3, 3, 3, 3, 3, 3, 5] .hll4 = .ok (r, c) ∧
      c = ⟨1, 1⟩ ∧ r.put 1 0 40 = .done r₁ ∧ r₁.Reachable 1 ∧
      ∃ values r' c', r₁.values 1 = .ok values ∧ r₁.convert 1 .hll4 = .ok (r', c') ∧
        r₁.Reencodes 1 values .hll4 r' c' ∧
        ∀ e', ∃ r₂ r₃ c₂, r'.convert c'.value e' = .ok (r₂, c₂) ∧
          r₁.convert 1 e' = .ok (r₃, c₂) ∧ (r₂ == r₃) = true := by
  let b : Bank ⟨4, by decide, by decide⟩ :=
    ⟨#[1, 20, 3, 17, 3, 3, 3, 3, 3, 3, 3, 3, 3, 3, 3, 5], by decide, by decide⟩
  have hbase : Encoding.hll4.baseline b.values = ⟨1, 1⟩ := by decide +kernel
  obtain ⟨r, hr, -, h⟩ := ofValues_done b .hll4
  rw [hbase] at hr h
  obtain ⟨r₁, hr₁, -, -⟩ := h.put (by decide : 0 < 16) (by decide : 40 ≤ maxRegister)
    (by decide +kernel)
  have hreach : r.Reachable 1 := Reachable.ofValues (c := ⟨1, 1⟩) (by decide) (by decide) hr
  have hreach₁ := hreach.put (h.slots_eq.symm ▸ (by decide : 0 < 16)) (by decide) hr₁
  exact ⟨r, ⟨1, 1⟩, r₁, hr, rfl, hr₁, hreach₁, hreach₁.convert_spec .hll4⟩

end HyperLogLog.Registers
