import HyperLogLog.Proofs.OverflowMap.Contents

/-!
# The overflow map — sorted entries and equality

The entries in cell order are a permutation of any list of the graph of the held function
(`Holds.perm_entries`), and a sort of a permutation of a list in slot order is that list
(`mergeSort_entryLe`).  So the sorted entries depend on the held function alone, and two maps are
equal under `==` exactly when they are for the same slots and hold the same function, wherever their
coupons lie (`Holds.beq_iff`).
-/

namespace HyperLogLog.OverflowMap

variable {m m' : OverflowMap} {f f' : Nat → Option Nat}

/-! ### The order of entries -/

theorem entryLe_iff {a b : Nat × Nat} :
    entryLe a b = true ↔ a.1 < b.1 ∨ a.1 = b.1 ∧ a.2 ≤ b.2 := by
  simp [entryLe]

theorem entryLe_trans (a b c : Nat × Nat) :
    entryLe a b = true → entryLe b c = true → entryLe a c = true := by
  simp only [entryLe_iff]
  omega

theorem entryLe_total (a b : Nat × Nat) : (entryLe a b || entryLe b a) = true := by
  simp only [Bool.or_eq_true, entryLe_iff]
  omega

theorem entryLe_antisymm {a b : Nat × Nat} (h : entryLe a b = true) (h' : entryLe b a = true) :
    a = b := by
  rw [entryLe_iff] at h h'
  exact Prod.ext (by omega) (by omega)

/-- Sorting brings a permutation of a list in slot order back to that list. -/
theorem mergeSort_entryLe {l l' : List (Nat × Nat)} (h : l.Perm l')
    (hl : l'.Pairwise fun a b => a.1 < b.1) : l.mergeSort entryLe = l' :=
  List.Perm.eq_of_pairwise (fun _ _ _ _ => entryLe_antisymm)
    (List.pairwise_mergeSort entryLe_trans entryLe_total l)
    (hl.imp fun hlt => entryLe_iff.mpr (.inl hlt)) ((List.mergeSort_perm l entryLe).trans h)

theorem pairwise_sortedEntries (m : OverflowMap) :
    m.sortedEntries.Pairwise fun a b => entryLe a b = true :=
  List.pairwise_mergeSort entryLe_trans entryLe_total _

theorem perm_sortedEntries (m : OverflowMap) : m.sortedEntries.Perm m.entries :=
  List.mergeSort_perm _ _

/-! ### The graph in slot order -/

/-- A list of the graph of `f`, each slot once, is the entries up to their order. -/
theorem Holds.perm_entries (h : m.Holds f) {l : List (Nat × Nat)} (hl : (l.map Prod.fst).Nodup)
    (hmem : ∀ s v, (s, v) ∈ l ↔ f s = some v) : m.entries.Perm l :=
  (List.perm_ext_iff_of_nodup h.nodup_entries.of_map hl.of_map).mpr fun e =>
    h.mem_entries.trans (hmem e.1 e.2).symm

theorem Holds.sortedEntries_congr (h : m.Holds f) (h' : m'.Holds f) :
    m.sortedEntries = m'.sortedEntries := by
  refine List.Perm.eq_of_pairwise (fun a b _ _ => entryLe_antisymm) m.pairwise_sortedEntries
    m'.pairwise_sortedEntries ?_
  exact (m.perm_sortedEntries.trans (h.perm_entries h'.nodup_entries fun _ _ =>
    h'.mem_entries)).trans m'.perm_sortedEntries.symm

theorem Holds.count_congr (h : m.Holds f) (h' : m'.Holds f) : m.count = m'.count := by
  rw [h.count_eq_length, h'.count_eq_length]
  exact (h.perm_entries h'.nodup_entries fun _ _ => h'.mem_entries).length_eq

theorem beq_iff_sortedEntries :
    (m == m') = true ↔
      m.lgK = m'.lgK ∧ m.count = m'.count ∧ m.sortedEntries = m'.sortedEntries := by
  show (m.lgK == m'.lgK && m.count == m'.count && m.sortedEntries == m'.sortedEntries) = true ↔ _
  simp only [Bool.and_eq_true, beq_iff_eq, and_assoc]

/-- **Equality is equality of contents.** -/
theorem Holds.beq_iff (h : m.Holds f) (h' : m'.Holds f') :
    (m == m') = true ↔ m.lgK = m'.lgK ∧ f = f' := by
  rw [beq_iff_sortedEntries]
  constructor
  · rintro ⟨hk, -, he⟩
    refine ⟨hk, funext fun s => Option.ext fun v => ?_⟩
    rw [← h.mem_entries, ← h'.mem_entries, ← m.perm_sortedEntries.mem_iff, he,
      m'.perm_sortedEntries.mem_iff]
  · rintro ⟨hk, rfl⟩
    exact ⟨hk, h.count_congr h', h.sortedEntries_congr h'⟩

end HyperLogLog.OverflowMap
