import HyperLogLog.Proofs.Sketch.Conversion
import HyperLogLog.Proofs.Sketch.OutOfOrder

/-!
# Equality is observational

Equality of sketches compares the registers as they are stored, with the baseline and its count.
For reachable sketches of one encoding that comes to what a caller can ask for: the registers, the
statistics and the mode (`Reachable.beq_iff_alike`).  Each encoding has one form for a bank, up to
where the entries of an overflow map lie, and equality of overflow maps does not see that
(`Registers.Holds.beq_iff`); and the baseline is the one the encoding keeps for the bank.
-/

namespace HyperLogLog.Sketch

variable {p : Precision} {s u : Sketch Float} {t t' : Plain Float p} {e : Encoding}

/-- Two sketches of one precision answer alike at every slot, and have related statistics and one
mode. -/
structure Alike (R : Float → Float → Prop) (s u : Sketch Float) : Prop where
  lgK : s.lgK = u.lgK
  get : ∀ slot < s.slots, s.get slot = u.get slot
  hip : R s.accumulator.hip u.accumulator.hip
  lowSum : R s.accumulator.lowSum u.accumulator.lowSum
  highSum : R s.accumulator.highSum u.accumulator.highSum
  outOfOrder : s.accumulator.outOfOrder = u.accumulator.outOfOrder

theorem Reachable.numeric (h : Reachable s) : s.accumulator.Numeric := by
  obtain ⟨p, steps, ht⟩ := h.encodes
  exact ht.numeric (Plain.numeric_run p steps)

/-- Equal statistics are the same statistics, since they are nonnegative numbers. -/
theorem Reachable.alike_iff (h : Reachable s) (h' : Reachable u) :
    Alike (fun x y => (x == y) = true) s u ↔ Alike Eq s u := by
  have hn := h.numeric
  have hn' := h'.numeric
  constructor
  · rintro ⟨hk, hget, hip, hlow, hhigh, ho⟩
    exact ⟨hk, hget, (hn.hip.beq_iff hn'.hip).mp hip, (hn.lowSum.beq_iff hn'.lowSum).mp hlow,
      (hn.highSum.beq_iff hn'.highSum).mp hhigh, ho⟩
  · rintro ⟨hk, hget, hip, hlow, hhigh, ho⟩
    exact ⟨hk, hget, (hn.hip.beq_iff hn'.hip).mpr hip, (hn.lowSum.beq_iff hn'.lowSum).mpr hlow,
      (hn.highSum.beq_iff hn'.highSum).mpr hhigh, ho⟩

/-- **Two sketches of one encoding are equal** exactly when they have the same statistics and
encode one bank. -/
theorem Encodes.beq_iff (h : s.Encodes e t) (h' : u.Encodes e t') (hn : s.accumulator.Numeric)
    (hn' : u.accumulator.Numeric) :
    (s == u) = true ↔ s.accumulator = u.accumulator ∧ t.bank = t'.bank := by
  show (s.accumulator == u.accumulator && s.registers == u.registers) = true ↔ _
  rw [Bool.and_eq_true, hn.beq_iff hn']
  exact and_congr_right fun hacc => h.registers_beq_iff h' (congrArg Accumulator.baseline hacc)

/-- The statistics are the three doubles and the mode; what else there is goes with the bank, and
the bank is what the sketch answers. -/
theorem Encodes.alike_iff (h : s.Encodes e t) (h' : u.Encodes e t') :
    s.accumulator = u.accumulator ∧ t.bank = t'.bank ↔ Alike Eq s u := by
  have hk : s.lgK = u.lgK := h.lgK_eq.trans h'.lgK_eq.symm
  constructor
  · rintro ⟨hacc, hb⟩
    refine ⟨hk, fun slot hs => ?_, by rw [hacc], by rw [hacc], by rw [hacc], by rw [hacc]⟩
    rw [h.slots_eq] at hs
    rw [h.get hs, h'.get hs, hb]
  · intro halike
    have hb := h.bank_eq h' halike.get
    have hprec : s.accumulator.precision = u.accumulator.precision :=
      Precision.eq_of_lg (h.lg_precision.trans (hk.trans h'.lg_precision.symm))
    have hbase : s.accumulator.baseline = u.accumulator.baseline :=
      h.baseline_eq.trans (hb ▸ h'.baseline_eq.symm)
    obtain ⟨-, -, hip, hlow, hhigh, ho⟩ := halike
    refine ⟨?_, hb⟩
    revert hprec hbase hip hlow hhigh ho
    cases s.accumulator
    cases u.accumulator
    rintro rfl rfl rfl rfl rfl rfl
    rfl

/-- **Equality is observational.**  Reachable sketches of one encoding are equal exactly when they
have one precision, answer alike at every slot, and have the same historic estimate, the same sums
and the same mode, where the same doubles are those that are equal.  Nothing else that the sketches
store can tell them apart. -/
theorem Reachable.beq_iff_alike (h : Reachable s) (h' : Reachable u)
    (he : s.encoding = u.encoding) :
    ((s == u) = true ↔ Alike Eq s u) ∧
      ((s == u) = true ↔ Alike (fun x y => (x == y) = true) s u) := by
  rw [h.alike_iff h', and_self]
  have hn := h.numeric
  have hn' := h'.numeric
  obtain ⟨p, steps, ht⟩ := h.encodes
  obtain ⟨p', steps', ht'⟩ := h'.encodes
  rw [← he] at ht'
  constructor
  · intro heq
    have hacc : s.accumulator = u.accumulator :=
      (hn.beq_iff hn').mp (Bool.and_eq_true_iff.mp heq).1
    obtain rfl : p = p' := Precision.eq_of_lg (by
      rw [← ht.lgK_eq, ← ht'.lgK_eq, ← ht.lg_precision, ← ht'.lg_precision, hacc])
    exact (ht.alike_iff ht').mp ((ht.beq_iff ht' hn hn').mp heq)
  · intro halike
    obtain rfl : p = p' :=
      Precision.eq_of_lg (ht.lgK_eq.symm.trans (halike.lgK.trans ht'.lgK_eq))
    exact (ht.beq_iff ht' hn hn').mpr ((ht.alike_iff ht').mpr halike)

/-- Two exceptions whose searches start at one cell, in either order and with a conversion there and
back between them: they lie in different cells, and the sketches are equal. -/
theorem beq_iff_alike_reordered :
    let s := ((empty ⟨4, by decide, by decide⟩ .hll4 : Sketch Float).run
      [.update 0 20, .update 4 20, .mark]).state
    let u := ((empty ⟨4, by decide, by decide⟩ .hll4 : Sketch Float).run
      [.mark, .update 4 20, .convert .hll6, .convert .hll4, .update 0 20]).state
    s.registers.overflow?.map OverflowMap.entries ≠ u.registers.overflow?.map OverflowMap.entries ∧
      (s == u) = true := by
  intro s u
  have halike : Alike Eq s u :=
    ⟨by decide +kernel, by decide +kernel, by decide +kernel, by decide +kernel,
      by decide +kernel, by decide +kernel⟩
  have hs : Reachable s := (reachable_empty _ .hll4).run _
  have hu : Reachable u := (reachable_empty _ .hll4).run _
  exact ⟨by decide +kernel, (hs.beq_iff_alike hu (by decide +kernel)).1.mpr halike⟩

end HyperLogLog.Sketch
