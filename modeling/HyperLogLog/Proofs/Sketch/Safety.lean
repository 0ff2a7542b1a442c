import HyperLogLog.Proofs.OverflowMap.Refinement
import HyperLogLog.Proofs.Sketch.Overflow

/-!
# Reachable sketches are safe

No call breaks a reachable sketch (`Reachable.stays_safe`).  An update is refused if its value or
its slot is out of range, before anything has been changed, and is done otherwise: it raises a plain
sketch, so no step of it finds a state that valid calls never lead to, reads outside an array, or
leaves the range of a byte.  The baseline it settles on is a register value, and the search for a
slot in an overflow map ends within the cells of the table.
-/

namespace HyperLogLog

/-! ### Sizes -/

namespace Registers

variable {p : Precision} {b : Bank p} {r : Registers} {base : Nat}

/-- No encoding needs more than a byte a register. -/
theorem Holds.byteLength_le (h : r.Holds base b) : r.byteLength ≤ p.slots := by
  cases r with
  | offsets a =>
      have hlen : 2 * a.nibbles.bytes.size = p.slots := OffsetArray.Holds.size_bytes h
      rw [byteLength]
      omega
  | sixBit a =>
      have hmul : p.slots = 2 ^ 4 * 2 ^ (p.lg - 4) := p.slots_eq_mul p.minLgK_le
      have hpos := Nat.two_pow_pos (p.lg - 4)
      rw [byteLength, h.2.size_eq, SixBitArray.byteCount]
      omega
  | octets a =>
      rw [byteLength, h.2, OctetArray.ofValues, Array.size_map, b.size_values]

/-- An overflow map of registers holds exceptions, of the slots of their precision. -/
theorem Holds.overflow_holds (h : r.Holds base b) {m : OverflowMap} (hm : r.overflow? = some m) :
    m.lgK = p.lg ∧ m.Holds (b.exceptions base) := by
  cases r with
  | offsets a =>
      have hov : OffsetArray.Overflows p.lg (b.exceptions base) (some m) :=
        hm ▸ OffsetArray.Holds.overflow h
      exact ⟨hov.1, hov.2.1⟩
  | sixBit a | octets a => cases hm

theorem Holds.overflowCount_le (h : r.Holds base b) : r.overflowCount ≤ p.slots := by
  rw [overflowCount]
  cases hm : r.overflow? with
  | none => exact Nat.zero_le _
  | some m =>
      obtain ⟨hk, hh⟩ := h.overflow_holds hm
      exact hh.count_le.trans_eq (by rw [hk]; rfl)

/-- An entry is a register with its value. -/
theorem Holds.mem_entries (h : r.Holds base b) {e : Nat × Nat} (he : e ∈ r.entries) :
    e.1 < p.slots ∧ b.get e.1 = e.2 := by
  cases r with
  | offsets a =>
      have hoff : a.Holds base b := h
      have hf : b.exceptions base e.1 = some e.2 := hoff.keeps.mem_entries.mp he
      have hlt := (hoff.keeps.lt_and_le hf).1
      rw [hoff.lgK_eq] at hlt
      exact ⟨hlt, (Bank.exceptions_eq_some.mp hf).2⟩
  | sixBit a | octets a => cases he

end Registers

namespace Sketch

variable {α : Type} {p : Precision} {s : Sketch α} {t : Plain α p} {e : Encoding}
  {slot value : Nat}

/-- A sketch that no call breaks. -/
structure Safe [Arith α] (s : Sketch α) : Prop where
  /-- An update faults if and only if its value or its slot is out of range. -/
  update_faults_iff : ∀ slot value,
    (∃ f u, s.update slot value = .faulted f u) ↔ maxRegister < value ∨ s.slots ≤ slot
  /-- An update that faults says which, and leaves the sketch as it was. -/
  update_faulted : ∀ slot value f u, s.update slot value = .faulted f u →
    f = s.refusal slot value ∧ u = s
  /-- An update that is done has settled the baseline on a register value, with a register on it
  where the registers are offsets. -/
  update_done : ∀ slot value u, s.update slot value = .done u →
    u.baseline.value ≤ maxRegister ∧ (u.encoding = .hll4 → 0 < u.baseline.count)
  get : ∀ slot < s.slots, ∃ v ≤ maxRegister, s.get slot = .ok v
  values : ∃ vs, s.values = .ok vs
  convert : ∀ e, ∃ u, s.convert e = .ok u
  entries : ∀ x ∈ s.entries, x.1 < s.slots ∧ x.2 ≤ maxRegister
  overflowEntries : ∀ x ∈ s.overflowEntries, x.1 < s.slots ∧ x.2 ≤ maxRegister
  serializedSize : s.serializedSize ≤ 40 + 5 * s.slots
  /-- The search for a slot ends, at one of the first cells of its path. -/
  search : ∀ m, s.registers.overflow? = some m → ∀ slot, ∃ t < m.size,
    m.find slot = .ok (.found (m.probeAt slot t)) ∨ m.find slot = .ok (.vacant (m.probeAt slot t))
  /-- The numbers a table computes with are far below the range of a word. -/
  table : ∀ m, s.registers.overflow? = some m → m.count ≤ 2 ^ 21 ∧ m.size ≤ 2 ^ 22

/-- The baseline is a register value, and some offset is zero. -/
theorem Encodes.baseline_le (h : s.Encodes e t) :
    s.baseline.value ≤ maxRegister ∧ (s.encoding = .hll4 → 0 < s.baseline.count) := by
  have hspec := h.baselineOf
  have hmem := t.bank.get_mem p.slots_pos
  exact ⟨(hspec.value_le _ hmem).trans (t.bank.get_le 0), fun he => (hspec.offsets he).2⟩

theorem Encodes.entries_le (h : s.Encodes e t) {x : Nat × Nat} (hx : x ∈ s.entries) :
    x.1 < s.slots ∧ x.2 ≤ maxRegister := by
  obtain ⟨hlt, hv⟩ := h.registers.mem_entries hx
  exact ⟨h.slots_eq ▸ hlt, hv ▸ t.bank.get_le x.1⟩

/-- Arguments in range are the ones an update is not refused for. -/
theorem Encodes.valid_iff (h : s.Encodes e t) :
    ¬ (maxRegister < value ∨ s.slots ≤ slot) ↔ slot < p.slots ∧ value ≤ maxRegister := by
  rw [not_or, not_lt, not_le, h.slots_eq, and_comm]

variable [Arith α]

/-- **An update faults exactly when it is refused**, and a refused update changes nothing. -/
theorem Encodes.update_faulted_iff (h : s.Encodes e t) {f : Fault} {u : Sketch α} :
    s.update slot value = .faulted f u ↔
      (maxRegister < value ∨ s.slots ≤ slot) ∧ f = s.refusal slot value ∧ u = s := by
  by_cases hv : maxRegister < value ∨ s.slots ≤ slot
  · have hrefused : s.update slot value = .faulted (s.refusal slot value) s :=
      s.update_refused fun ⟨hs, hle⟩ => hv.elim hle.not_gt hs.not_ge
    rw [hrefused, Outcome.faulted.injEq, and_iff_right hv, eq_comm (a := f), eq_comm (a := u)]
  · obtain ⟨hs, hle⟩ := h.valid_iff.mp hv
    obtain ⟨s', hs', -⟩ := h.update hs hle
    rw [hs']
    exact iff_of_false nofun fun hf => hv hf.1

/-- **The sketch of a plain sketch is safe.** -/
theorem Encodes.safe (h : s.Encodes e t) : Safe s where
  update_faults_iff slot value := by
    simp only [h.update_faulted_iff]
    exact ⟨fun ⟨_, _, hv, _⟩ => hv, fun hv => ⟨_, _, hv, rfl, rfl⟩⟩
  update_faulted slot value f u hu := (h.update_faulted_iff.mp hu).2
  update_done slot value u hu := by
    have hv : ¬ (maxRegister < value ∨ s.slots ≤ slot) := fun hv => by
      rw [h.update_faulted_iff.mpr ⟨hv, rfl, rfl⟩] at hu
      cases hu
    obtain ⟨hs, hle⟩ := h.valid_iff.mp hv
    obtain ⟨s', hs', h'⟩ := h.update hs hle
    obtain rfl := Outcome.done.inj (hs'.symm.trans hu)
    exact h'.baseline_le
  get slot hs := ⟨_, t.bank.get_le slot, h.get (h.slots_eq ▸ hs)⟩
  values := ⟨_, h.values⟩
  convert e' := by
    obtain ⟨u, hu, -⟩ := h.convert e'
    exact ⟨u, hu⟩
  entries _ hx := h.entries_le hx
  overflowEntries _ hx := h.entries_le (s.overflowEntries_perm.mem_iff.mp hx)
  serializedSize := by
    have hbytes := h.registers.byteLength_le
    have hcount : s.overflowCount ≤ p.slots := h.registers.overflowCount_le
    rw [Sketch.serializedSize, h.slots_eq, registersOffset, entrySize]
    omega
  search m hm := (h.registers.overflow_holds hm).2.find_ends
  table m hm := by
    obtain ⟨hk, hh⟩ := h.registers.overflow_holds hm
    have hcount := hh.count_le
    have hsize := hh.size_le
    have hslots : 2 ^ m.lgK ≤ 2 ^ 21 := hk ▸ p.slots_le
    omega

/-- **A reachable sketch is safe.** -/
theorem Reachable.stays_safe (h : Reachable s) : Safe s := by
  obtain ⟨p, steps, ht⟩ := h.encodes
  exact ht.safe

/-- Sixteen registers as offsets, after an exception, a refused update and a conversion there and
back, with every other register raised so that the baseline jumps. -/
theorem safe_jump :
    let s := (((empty ⟨4, by decide, by decide⟩ .hll4 : Sketch Float).run
      [.update 3 20, .convert .hll6, .convert .hll4, .update 16 1]).state.run
        ((List.range 16).map fun i => .update i (if i = 15 then 7 else 30))).state
    s.baseline = ⟨7, 1⟩ ∧ Safe s :=
  ⟨by decide +kernel, (((reachable_empty _ .hll4).run _).run _).stays_safe⟩

end Sketch

end HyperLogLog
