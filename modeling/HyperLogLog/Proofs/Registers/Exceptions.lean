import HyperLogLog.Proofs.Registers.OffsetArray
import Mathlib.Data.List.Count

/-!
# Offsets and their exceptions

What an offset array that holds a bank looks like from outside.  The *exceptions* are the values
whose offset does not fit a nibble.  `Represents` says of nibbles and overflow map what they are in
terms of the values alone: the map answers at the exceptions, lists them, and is there only if
there are some.

* `Holds.represents`: an array that holds a bank represents its values.
-/

namespace HyperLogLog.OffsetArray

variable {p : Precision} {b : Bank p} {a : OffsetArray} {base slot v : Nat} {values : Array Nat}

/-- The slots and values whose offset from a base does not fit a nibble, in slot order. -/
def exceptions (base : Nat) (values : Array Nat) : List (Nat × Nat) :=
  (values.toList.zipIdx.map Prod.swap).filter fun e => marker ≤ e.2 - base

theorem mem_exceptions :
    (slot, v) ∈ exceptions base values ↔ values[slot]? = some v ∧ marker ≤ v - base := by
  rw [exceptions, List.mem_filter, mem_indexed, decide_eq_true_eq]

theorem pairwise_exceptions (base : Nat) (values : Array Nat) :
    (exceptions base values).Pairwise fun x y => x.1 < y.1 :=
  (pairwise_indexed values).filter _

theorem nodup_exceptions (base : Nat) (values : Array Nat) :
    ((exceptions base values).map Prod.fst).Nodup :=
  List.nodup_iff_pairwise_ne.mpr
    (List.pairwise_map.mpr ((pairwise_exceptions base values).imp fun hlt => hlt.ne))

/-- The number of exceptions. -/
theorem length_exceptions (base : Nat) (values : Array Nat) :
    (exceptions base values).length = values.countP fun v => marker ≤ v - base := by
  rw [exceptions, ← List.countP_eq_length_filter, List.countP_map, ← Array.countP_toList]
  conv_rhs => rw [← List.zipIdx_map_fst 0 values.toList, List.countP_map]
  rfl

/-- Nibbles and overflow map, in terms of the values. -/
structure Represents (a : OffsetArray) (base : Nat) (values : Array Nat) : Prop where
  base_le : ∀ v ∈ values, base ≤ v
  /-- A nibble is the offset of its value, or the marker if that does not fit. -/
  nibble : ∀ slot v, values[slot]? = some v →
    a.nibbles.get slot = .ok (if v - base < marker then v - base else marker)
  /-- The overflow map is there if and only if there are exceptions. -/
  absent_iff : a.overflow = none ↔ exceptions base values = []
  /-- The overflow map answers the value at an exception, and nothing at any other slot. -/
  get : ∀ m, a.overflow = some m → ∀ slot,
    m.get slot = .ok (values[slot]?.filter fun v => marker ≤ v - base)
  /-- The overflow map lists the exceptions, in some order, and nothing else. -/
  entries : ∀ m, a.overflow = some m → m.entries.Perm (exceptions base values)

theorem bank_exceptions_eq (b : Bank p) (base slot : Nat) :
    b.exceptions base slot = b.values[slot]?.filter fun v => marker ≤ v - base := by
  rw [b.getElem?_values]
  split
  · rw [Bank.exceptions, exceptionOf, Option.filter_some]
    simp only [decide_eq_true_eq]
  · rename_i hs
    rw [Bank.exceptions_eq_none.mpr (by rw [b.get_of_not_lt hs, Nat.zero_sub]; decide)]
    rfl

theorem mem_bank_exceptions :
    (slot, v) ∈ exceptions base b.values ↔ b.exceptions base slot = some v := by
  rw [mem_exceptions, bank_exceptions_eq, Option.filter_eq_some_iff, decide_eq_true_eq]

theorem Holds.overflow_holds (h : a.Holds base b) {m : OverflowMap} (hm : a.overflow = some m) :
    m.Holds (b.exceptions base) ∧ ∃ e, e ∈ exceptions base b.values := by
  obtain ⟨-, hh, s, v, hs⟩ : Overflows p.lg (b.exceptions base) (some m) := hm ▸ h.overflow
  exact ⟨hh, (s, v), mem_bank_exceptions.mpr hs⟩

/-- The entries are the exceptions, in the order of the cells they lie in. -/
theorem Holds.perm_entries (h : a.Holds base b) : a.entries.Perm (exceptions base b.values) :=
  (List.perm_ext_iff_of_nodup h.keeps.nodup_entries.of_map (nodup_exceptions _ _).of_map).mpr
    fun _ => h.keeps.mem_entries.trans mem_bank_exceptions.symm

/-- **An array that holds a bank represents its values.** -/
theorem Holds.represents (h : a.Holds base b) : a.Represents base b.values where
  base_le := h.base_le
  nibble slot v hv := by
    rw [b.getElem?_values] at hv
    split at hv
    · rename_i hs
      rw [h.nibble hs, ← Option.some.inj hv]
      split
      · rename_i hlt
        exact congrArg Except.ok (min_eq_left hlt.le)
      · rename_i hle
        exact congrArg Except.ok (min_eq_right (not_lt.mp hle))
    · cases hv
  absent_iff := by
    cases hm : a.overflow with
    | none =>
        have hno : ∀ s, b.exceptions base s = none := by
          have hov := h.overflow
          rw [hm] at hov
          exact hov
        refine iff_of_true rfl (List.eq_nil_iff_forall_not_mem.mpr fun ⟨s, v⟩ he => ?_)
        have hsome := mem_bank_exceptions.mp he
        rw [hno s] at hsome
        cases hsome
    | some m =>
        obtain ⟨-, e, he⟩ := h.overflow_holds hm
        exact iff_of_false nofun (List.ne_nil_of_mem he)
  get m hm slot := by
    rw [(h.overflow_holds hm).1.get, bank_exceptions_eq]
  entries m hm := by
    have hperm := h.perm_entries
    rw [OffsetArray.entries, hm] at hperm
    exact hperm

end HyperLogLog.OffsetArray
