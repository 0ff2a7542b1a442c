import HyperLogLog.OverflowMap.Basic
import HyperLogLog.Proofs.Coupon
import Mathlib.Data.Fintype.EquivFin
import Mathlib.Data.Nat.ModEq
import Mathlib.Data.Nat.Prime.Basic

/-!
# The overflow map — searches

The search for a slot looks at the cells `probeAt slot 0`, `probeAt slot 1`, …, one odd stride
apart.  The table size is a power of two, so the first `size` of them are all the cells, each once
(`probeAt_inj`, `exists_probeAt`).

A table is *sound* when each taken cell can be found: it lies on the probe path of its slot, and
the cells before it on that path are taken by other slots.  In a sound table

* `find_found`: the search for a slot some cell holds ends at that cell;
* `find_vacant`: the search for a slot no cell holds ends at a vacant cell of its path, behind
  taken ones only, as long as some cell is vacant;
* `Sound.write`: a coupon written where the search for its slot ends keeps the table sound.

Soundness does not speak of `count`, so it also holds while a table is being rebuilt.
-/

namespace HyperLogLog.OverflowMap

variable {m : OverflowMap} {slot value i : Nat} {c : Coupon}

/-! ### The cells of a search -/

/-- The cell the search for a slot looks at after `j` steps. -/
def probeAt (m : OverflowMap) (slot j : Nat) : Nat :=
  (m.start slot + j * m.stride slot) % m.size

theorem size_eq (m : OverflowMap) : m.size = 2 ^ m.lgSize := rfl

theorem size_pos (m : OverflowMap) : 0 < m.size := Nat.two_pow_pos _

theorem probeAt_lt (m : OverflowMap) (slot j : Nat) : m.probeAt slot j < m.size :=
  Nat.mod_lt _ m.size_pos

theorem probeAt_zero (m : OverflowMap) (slot : Nat) : m.probeAt slot 0 = m.start slot := by
  simp [probeAt, start]

theorem probeAt_succ (m : OverflowMap) (slot j : Nat) :
    m.probeAt slot (j + 1) = (m.probeAt slot j + m.stride slot) % m.size := by
  simp only [probeAt, Nat.mod_add_mod, Nat.succ_mul, Nat.add_assoc]

/-- The stride is odd, so it has no factor in common with the table size. -/
theorem coprime_size_stride (m : OverflowMap) (slot : Nat) :
    Nat.gcd m.size (m.stride slot) = 1 := by
  have hodd : Nat.Coprime 2 (m.stride slot) := by
    rw [Nat.coprime_two_left]
    exact ⟨slot / m.size / 2, by rw [stride]; omega⟩
  exact Nat.Coprime.pow_left _ hodd

/-- A search looks at no cell twice in its first `size` steps. -/
theorem probeAt_inj {j k : Nat} (hj : j < m.size) (hk : k < m.size)
    (h : m.probeAt slot j = m.probeAt slot k) : j = k := by
  have hmod : j * m.stride slot ≡ k * m.stride slot [MOD m.size] :=
    Nat.ModEq.add_left_cancel' (m.start slot) h
  have hjk : j ≡ k [MOD m.size] :=
    Nat.ModEq.cancel_right_of_coprime (m.coprime_size_stride slot) hmod
  rwa [Nat.ModEq, Nat.mod_eq_of_lt hj, Nat.mod_eq_of_lt hk] at hjk

/-- A search looks at every cell in its first `size` steps. -/
theorem exists_probeAt (slot : Nat) (hi : i < m.size) : ∃ j < m.size, m.probeAt slot j = i := by
  let g : Fin m.size → Fin m.size := fun j => ⟨m.probeAt slot j, m.probeAt_lt slot j⟩
  have hg : Function.Injective g := fun j k e =>
    Fin.ext (probeAt_inj j.2 k.2 (congrArg Fin.val e))
  obtain ⟨j, hj⟩ := Finite.injective_iff_surjective.mp hg ⟨i, hi⟩
  exact ⟨j, j.2, congrArg Fin.val hj⟩

/-! ### Taken cells -/

/-- Cell `i` is taken by the coupon `c`. -/
def Takes (m : OverflowMap) (i : Nat) (c : Coupon) : Prop :=
  m.cells[i]? = some c ∧ c.isVacant = false

/-- The search for a slot goes on past cell `i`: another slot has taken it. -/
def Passes (m : OverflowMap) (slot i : Nat) : Prop :=
  ∃ c, m.Takes i c ∧ m.slotOf c ≠ slot

/-- The search for a slot passes its first `t` cells. -/
def Reaches (m : OverflowMap) (slot t : Nat) : Prop :=
  ∀ j < t, m.Passes slot (m.probeAt slot j)

/-- Every taken cell can be found: it is on the probe path of its slot, behind cells of other
slots only. -/
structure Sound (m : OverflowMap) : Prop where
  size_cells : m.cells.size = m.size
  lgK_le : m.lgK ≤ Coupon.slotBits
  slot_lt : ∀ {i c}, m.Takes i c → c.slot < 2 ^ m.lgK
  reached : ∀ {i c}, m.Takes i c →
    ∃ t < m.size, m.probeAt (m.slotOf c) t = i ∧ m.Reaches (m.slotOf c) t

theorem slotOf_eq (h : c.slot < 2 ^ m.lgK) : m.slotOf c = c.slot := Nat.mod_eq_of_lt h

theorem Takes.lt (h : m.Takes i c) : i < m.cells.size := by
  obtain ⟨hlt, -⟩ := Array.getElem?_eq_some_iff.mp h.1
  exact hlt

theorem Takes.ne_vacant (h : m.Takes i c) : m.cells[i]? ≠ some .vacant := by
  intro hv
  have hc : c = .vacant := Option.some.inj (h.1.symm.trans hv)
  exact absurd h.2 (by rw [hc]; decide)

/-! ### Where a search ends -/

theorem probe_of_vacant {n : Nat} (h : m.cells[i]? = some .vacant) :
    m.probe slot (n + 1) i = .ok (.vacant i) := by
  simp only [probe, probeCells, h, Coupon.isVacant_vacant, if_true]

theorem probe_of_takes {n : Nat} (h : m.Takes i c) (hs : m.slotOf c = slot) :
    m.probe slot (n + 1) i = .ok (.found i) := by
  rw [slotOf] at hs
  simp only [probe, probeCells, h.1, h.2, hs, if_true, if_false, Bool.false_eq_true]

/-- A search that passes a cell goes on at the next. -/
theorem probe_of_passes {n : Nat} (h : m.Passes slot i) :
    m.probe slot (n + 1) i = m.probe slot n ((i + m.stride slot) % m.size) := by
  obtain ⟨c, ⟨hc, hv⟩, hs⟩ := h
  rw [slotOf] at hs
  simp only [probe, probeCells, hc, hv, hs, if_false, Bool.false_eq_true]

theorem find_of_reaches {t : Nat} (ht : t ≤ m.size) (h : m.Reaches slot t) :
    m.find slot = m.probe slot (m.size - t) (m.probeAt slot t) := by
  induction t with
  | zero => rw [probeAt_zero]; rfl
  | succ t ih =>
      rw [ih (Nat.le_of_succ_le ht) fun j hj => h j (Nat.lt_succ_of_lt hj)]
      have e : m.size - t = m.size - (t + 1) + 1 := by omega
      rw [e, probe_of_passes (h t (Nat.lt_succ_self t)), probeAt_succ]

/-- **The search for a slot that is there.**  It ends at the cell that holds the slot. -/
theorem find_found (hm : m.Sound) (h : m.Takes i c) : m.find (m.slotOf c) = .ok (.found i) := by
  obtain ⟨t, ht, rfl, hr⟩ := hm.reached h
  rw [find_of_reaches ht.le hr]
  have e : m.size - t = m.size - t - 1 + 1 := by omega
  rw [e, probe_of_takes h rfl]

/-- No two cells hold the same slot. -/
theorem Sound.takes_unique (hm : m.Sound) {j : Nat} {d : Coupon} (hi : m.Takes i c)
    (hj : m.Takes j d) (e : m.slotOf c = m.slotOf d) : i = j := by
  have h := find_found hm hi
  rw [e, find_found hm hj] at h
  cases h
  rfl

/-- **The search for a slot that is not there.**  It ends at the first vacant cell of its path. -/
theorem find_vacant (hm : m.Sound) (hno : ∀ i c, m.Takes i c → m.slotOf c ≠ slot)
    (hv : ∃ i : Nat, m.cells[i]? = some Coupon.vacant) :
    ∃ t < m.size, m.find slot = .ok (.vacant (m.probeAt slot t)) ∧
      m.cells[m.probeAt slot t]? = some Coupon.vacant ∧ m.Reaches slot t := by
  classical
  have hex : ∃ t, t < m.size ∧ m.cells[m.probeAt slot t]? = some Coupon.vacant := by
    obtain ⟨i, hi⟩ := hv
    obtain ⟨hlt, -⟩ := Array.getElem?_eq_some_iff.mp hi
    obtain ⟨t, ht, rfl⟩ := exists_probeAt slot (hm.size_cells ▸ hlt)
    exact ⟨t, ht, hi⟩
  -- the first vacant cell of the path is behind taken ones only
  obtain ⟨ht, hvac⟩ := Nat.find_spec hex
  have hr : m.Reaches slot (Nat.find hex) := by
    intro j hj
    have hlt : m.probeAt slot j < m.cells.size := hm.size_cells ▸ m.probeAt_lt slot j
    have hget : m.cells[m.probeAt slot j]? = some m.cells[m.probeAt slot j] :=
      Array.getElem?_eq_getElem hlt
    have htaken : (m.cells[m.probeAt slot j]).isVacant = false := by
      by_contra hne
      have hz : m.cells[m.probeAt slot j] = Coupon.vacant := by
        rw [Bool.not_eq_false, Coupon.isVacant_iff] at hne
        exact hne
      exact Nat.find_min hex hj ⟨hj.trans ht, hz ▸ hget⟩
    exact ⟨_, ⟨hget, htaken⟩, hno _ _ ⟨hget, htaken⟩⟩
  refine ⟨Nat.find hex, ht, ?_, hvac, hr⟩
  rw [find_of_reaches ht.le hr]
  have e : m.size - Nat.find hex = m.size - Nat.find hex - 1 + 1 := by omega
  rw [e, probe_of_vacant hvac]

/-! ### Writing a cell -/

theorem takes_write {j : Nat} {d : Coupon} (hi : i < m.cells.size) (hc : c.isVacant = false) :
    (m.write i c).Takes j d ↔ (j = i ∧ d = c) ∨ (j ≠ i ∧ m.Takes j d) := by
  simp only [Takes, write, Array.getElem?_setIfInBounds]
  by_cases e : i = j
  · subst e
    simp only [hi, if_true, Option.some.injEq, true_and, ne_eq, not_true, false_and, or_false]
    exact ⟨fun h => h.1.symm, fun h => ⟨h.symm, h ▸ hc⟩⟩
  · simp [e, Ne.symm e]

/-- **A write where the search for its slot ends.**  The cell is on the path of the new coupon's
slot, behind passed cells, and was vacant or held that slot already. -/
theorem Sound.write (hm : m.Sound) {t : Nat} (hc : c.isVacant = false) (hs : c.slot < 2 ^ m.lgK)
    (ht : t < m.size) (hr : m.Reaches (m.slotOf c) t)
    (hold : ∀ d, m.Takes (m.probeAt (m.slotOf c) t) d → m.slotOf d = m.slotOf c) :
    (m.write (m.probeAt (m.slotOf c) t) c).Sound := by
  have hi : m.probeAt (m.slotOf c) t < m.cells.size := hm.size_cells ▸ m.probeAt_lt _ t
  -- a write frees no cell and changes no slot, so what a search passed it still passes
  have hpass : ∀ s j, m.Passes s j → (m.write (m.probeAt (m.slotOf c) t) c).Passes s j := by
    rintro s j ⟨d, hd, hne⟩
    by_cases e : j = m.probeAt (m.slotOf c) t
    · subst e
      exact ⟨c, (takes_write hi hc).mpr (.inl ⟨rfl, rfl⟩), hold d hd ▸ hne⟩
    · exact ⟨d, (takes_write hi hc).mpr (.inr ⟨e, hd⟩), hne⟩
  refine ⟨?_, hm.lgK_le, fun {j d} h => ?_, fun {j d} h => ?_⟩
  · rw [OverflowMap.write, Array.size_setIfInBounds]; exact hm.size_cells
  · rcases (takes_write hi hc).mp h with ⟨rfl, rfl⟩ | ⟨-, h⟩
    · exact hs
    · exact hm.slot_lt h
  · rcases (takes_write hi hc).mp h with ⟨rfl, rfl⟩ | ⟨-, h⟩
    · exact ⟨t, ht, rfl, fun j hj => hpass _ _ (hr j hj)⟩
    · obtain ⟨u, hu, e, hru⟩ := hm.reached h
      exact ⟨u, hu, e, fun j hj => hpass _ _ (hru j hj)⟩

end HyperLogLog.OverflowMap
