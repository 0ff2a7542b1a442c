import HyperLogLog.Proofs.OverflowMap.Refinement
import Mathlib.Order.Bounds.Basic

/-!
# The overflow map — load and searches

As it is made, a search is a walk over cells that nothing counts: it ends at a vacant cell or at a
cell of its slot, and gives up only where it would begin again (`Walk`).  The stride is odd, so that
is after as many steps as there are cells and no earlier.  Hence the limit of `find` is never what
ends a search: in every table, a full one too, the walk ends as `find` does, after no more cells
than there are (`walk_find`).

A table is *searchable* when some cell of it is vacant and every search ends where it should, at the
one cell of its slot or else at the first vacant cell of its path.  Every sound table with room is:
the maps between two operations, and each table that a growing map is moved into coupon by coupon
(`grow_searchable`).  In the table between the two, whose last vacant cell the new coupon may have
taken, a search still ends, and still finds what is held.

* `searchable_after`: the load of a map after any history of writes, the searches in it, and those
  in the tables of the next insertion.
-/

namespace HyperLogLog.OverflowMap

variable {m : OverflowMap} {lgK slot value i n : Nat} {c : Coupon} {f : Nat → Option Nat}

/-! ### Walks -/

/-- A walk in search of a slot from cell `i` on, which looks at `n` cells and ends with `r`. -/
inductive Walk (m : OverflowMap) (slot : Nat) : (i n : Nat) → (r : Except Fault Probe) → Prop where
  | vacant {i : Nat} (h : m.cells[i]? = some .vacant) : Walk m slot i 1 (.ok (.vacant i))
  | found {i : Nat} {c : Coupon} (h : m.Takes i c) (hs : m.slotOf c = slot) :
      Walk m slot i 1 (.ok (.found i))
  /-- Another slot has taken the cell, and the next one is not the first. -/
  | next {i n : Nat} {r : Except Fault Probe} (h : m.Passes slot i)
      (hne : (i + m.stride slot) % m.size ≠ m.start slot)
      (t : Walk m slot ((i + m.stride slot) % m.size) n r) : Walk m slot i (n + 1) r
  /-- The walk is back at its first cell. -/
  | full {i : Nat} (h : m.Passes slot i) (he : (i + m.stride slot) % m.size = m.start slot) :
      Walk m slot i 1 (.error .mapFull)

/-- A cell inside the table is vacant, or taken by the slot, or passed. -/
theorem cell_cases (slot : Nat) (hi : i < m.cells.size) :
    m.cells[i]? = some .vacant ∨ (∃ c, m.Takes i c ∧ m.slotOf c = slot) ∨ m.Passes slot i := by
  have hget : m.cells[i]? = some m.cells[i] := Array.getElem?_eq_getElem hi
  by_cases hv : m.cells[i].isVacant = true
  · exact .inl (Coupon.isVacant_iff.mp hv ▸ hget)
  · have htakes : m.Takes i m.cells[i] := ⟨hget, by simpa using hv⟩
    by_cases hs : m.slotOf m.cells[i] = slot
    · exact .inr (.inl ⟨_, htakes, hs⟩)
    · exact .inr (.inr ⟨_, htakes, hs⟩)

theorem Passes.ne_vacant (h : m.Passes slot i) : m.cells[i]? ≠ some .vacant := by
  obtain ⟨c, hc, -⟩ := h
  exact hc.ne_vacant

theorem Takes.not_passes (h : m.Takes i c) (hs : m.slotOf c = slot) : ¬ m.Passes slot i := by
  rintro ⟨d, hd, hne⟩
  exact hne (Option.some.inj (hd.1.symm.trans h.1) ▸ hs)

/-- A walk has one course. -/
theorem Walk.unique {r r' : Except Fault Probe} {n' : Nat} (h : m.Walk slot i n r)
    (h' : m.Walk slot i n' r') : n' = n ∧ r' = r := by
  induction h generalizing n' with
  | vacant hv =>
      cases h' with
      | vacant => exact ⟨rfl, rfl⟩
      | found ht => exact absurd hv ht.ne_vacant
      | next hp | full hp => exact absurd hv hp.ne_vacant
  | found ht hs =>
      cases h' with
      | vacant hv => exact absurd hv ht.ne_vacant
      | found => exact ⟨rfl, rfl⟩
      | next hp | full hp => exact absurd hp (ht.not_passes hs)
  | next hp hne _ ih =>
      cases h' with
      | vacant hv => exact absurd hv hp.ne_vacant
      | found ht hs => exact absurd hp (ht.not_passes hs)
      | next _ _ t' =>
          obtain ⟨rfl, rfl⟩ := ih t'
          exact ⟨rfl, rfl⟩
      | full _ he => exact absurd he hne
  | full hp he =>
      cases h' with
      | vacant hv => exact absurd hv hp.ne_vacant
      | found ht hs => exact absurd hp (ht.not_passes hs)
      | next _ hne => exact absurd he hne
      | full => exact ⟨rfl, rfl⟩

/-- A search comes back to its first cell after as many steps as there are cells. -/
theorem probeAt_size (m : OverflowMap) (slot : Nat) : m.probeAt slot m.size = m.start slot := by
  rw [probeAt, Nat.add_mul_mod_self_left, start, Nat.mod_mod]

/-- A walk on from a cell of the path ends as the search does that is left as many cells as there
are from that one to the end of the path. -/
theorem walk_probe (hcells : m.cells.size = m.size) (slot : Nat) :
    ∀ (n : Nat) {t : Nat}, t + (n + 1) = m.size →
      ∃ k ≤ n + 1, m.Walk slot (m.probeAt slot t) k (m.probe slot (n + 1) (m.probeAt slot t))
  | n, t, ht => by
      rcases cell_cases slot (hcells ▸ m.probeAt_lt slot t) with hv | ⟨c, hc, hs⟩ | hp
      · exact ⟨1, Nat.succ_pos n, by rw [probe_of_vacant hv]; exact .vacant hv⟩
      · exact ⟨1, Nat.succ_pos n, by rw [probe_of_takes hc hs]; exact .found hc hs⟩
      · rw [probe_of_passes hp]
        have hnext := m.probeAt_succ slot t
        cases n with
        | zero => exact ⟨1, Nat.le_refl 1, .full hp (by rw [← hnext, ht, probeAt_size])⟩
        | succ n =>
            obtain ⟨k, hk, hw⟩ := walk_probe hcells slot n (t := t + 1) (by omega)
            -- a cell before the last is not the first again
            have hne : m.probeAt slot (t + 1) ≠ m.start slot := by
              rw [← probeAt_zero]
              exact fun e => absurd (probeAt_inj (by omega) m.size_pos e) (Nat.succ_ne_zero t)
            rw [hnext] at hne hw
            exact ⟨k + 1, Nat.succ_le_succ hk, .next hp hne hw⟩

/-- **A search that is not counted** ends as the counted one, after no more cells than there are. -/
theorem walk_find (hcells : m.cells.size = m.size) (slot : Nat) :
    ∃ n ≤ m.size, m.Walk slot (m.start slot) n (m.find slot) := by
  have hsize : m.size - 1 + 1 = m.size := Nat.sub_add_cancel m.size_pos
  obtain ⟨n, hn, hw⟩ := walk_probe hcells slot (m.size - 1) ((Nat.zero_add _).trans hsize)
  rw [hsize] at hn hw
  rw [probeAt_zero] at hw
  exact ⟨n, hn, hw⟩

/-! ### Searchable tables -/

/-- How the search for a slot goes. -/
structure Searches (m : OverflowMap) (slot : Nat) : Prop where
  /-- Its path is the one a walk takes. -/
  path : m.probeAt slot 0 = m.start slot ∧
    ∀ j, m.probeAt slot (j + 1) = (m.probeAt slot j + m.stride slot) % m.size
  /-- The first cells of its path are all the cells, each once. -/
  visits : ∀ i < m.size, ∃! j, j < m.size ∧ m.probeAt slot j = i
  /-- Not counted, it takes one course, which ends. -/
  ends : ∃ n ≤ m.size, m.Walk slot (m.start slot) n (m.find slot) ∧
    ∀ n' r, m.Walk slot (m.start slot) n' r → n' = n ∧ r = m.find slot
  /-- A slot that is held is found, at the one cell that holds it. -/
  found : ∀ i c, m.Takes i c → m.slotOf c = slot →
    m.find slot = .ok (.found i) ∧ ∀ j d, m.Takes j d → m.slotOf d = slot → j = i
  /-- A slot that is not held would be at the first vacant cell of the path, if some cell is
  vacant. -/
  vacant : (∀ i c, m.Takes i c → m.slotOf c ≠ slot) →
    (∃ i : Nat, m.cells[i]? = some .vacant) → ∃ t < m.size,
      m.find slot = .ok (.vacant (m.probeAt slot t)) ∧
        m.cells[m.probeAt slot t]? = some .vacant ∧
          ∀ j < t, m.cells[m.probeAt slot j]? ≠ some .vacant

/-- Some cell is vacant, and every search ends where it should. -/
structure Searchable (m : OverflowMap) : Prop where
  exists_vacant : ∃ i : Nat, m.cells[i]? = some .vacant
  searches : ∀ slot, m.Searches slot

/-- **Searches in a sound table**, which may be full. -/
theorem Sound.searches (hm : m.Sound) (slot : Nat) : m.Searches slot where
  path := ⟨m.probeAt_zero slot, m.probeAt_succ slot⟩
  visits i hi := by
    obtain ⟨j, hj, he⟩ := exists_probeAt slot hi
    exact ⟨j, ⟨hj, he⟩, fun k ⟨hk, he'⟩ => probeAt_inj hk hj (he'.trans he.symm)⟩
  ends := by
    obtain ⟨n, hn, hw⟩ := walk_find hm.size_cells slot
    exact ⟨n, hn, hw, fun _ _ => hw.unique⟩
  found i c hc hs :=
    ⟨hs ▸ find_found hm hc, fun j d hd hs' => hm.takes_unique hd hc (hs'.trans hs.symm)⟩
  vacant hno hv := by
    obtain ⟨t, ht, hfind, hvac, hr⟩ := find_vacant hm hno hv
    exact ⟨t, ht, hfind, hvac, fun j hj => (hr j hj).ne_vacant⟩

theorem Sound.searchable (hm : m.Sound) (hroom : m.coupons.length < m.size) : m.Searchable :=
  ⟨OverflowMap.exists_vacant hm hroom, hm.searches⟩

/-! ### Growing -/

/-- **Every table a growing map goes through** is searchable. -/
theorem grow_searchable (hm : m.Sound) {moved rest : List Coupon} (e : m.coupons = moved ++ rest) :
    ∃ t, Outcome.forEach rehash moved m.doubled = .done t ∧ t.Searchable := by
  obtain ⟨t, ht, h⟩ := forEach_rehash hm e
  exact ⟨t, ht, h.sound.searchable (h.room hm e)⟩

/-- The searches of the insertion of a slot that is not held; `m'` is the map with the new coupon,
before it may grow. -/
structure InsertionSearches (m : OverflowMap) (slot value : Nat) (m' : OverflowMap) : Prop where
  find_eq : ∃ i, m.find slot = .ok (.vacant i) ∧ m' = m.add i (.pack slot value)
  insert_eq : m.insert slot value =
    if m'.isCrowded then Outcome.forEach rehash m'.coupons m'.doubled else .done m'
  /-- These may be searches in a table without a vacant cell. -/
  searches : ∀ s, m'.Searches s
  grow : ∀ moved rest, m'.coupons = moved ++ rest →
    ∃ t, Outcome.forEach rehash moved m'.doubled = .done t ∧ t.Searchable

theorem Holds.insertionSearches (h : m.Holds f) (hs : slot < 2 ^ m.lgK) (h₀ : 0 < value)
    (hv : value ≤ maxRegister) (hf : f slot = none) : ∃ m', m.InsertionSearches slot value m' := by
  obtain ⟨i, c, hp, rfl, rfl, hfind, hadd⟩ := h.find_and_add hs h₀ hv hf
  refine ⟨m.add i c, ⟨i, hfind, by rw [hp]⟩, ?_, hadd.sound.searches,
    fun _ _ => grow_searchable hadd.sound⟩
  simp only [OverflowMap.insert, h₀.ne', if_false, hfind, hp, grow_eq]

/-! ### Load -/

/-- How full a map between two operations is. -/
structure Loaded (m : OverflowMap) (lgK : Nat) : Prop where
  load_le : 4 * m.count ≤ 3 * 2 ^ m.lgSize
  /-- A quarter of the cells is vacant, at least. -/
  vacant_ge : 2 ^ m.lgSize ≤ 4 * m.cells.countP Coupon.isVacant
  /-- No smaller table would do. -/
  isLeast : IsLeast {l | initialLgSize lgK ≤ l ∧ 4 * m.count ≤ 3 * 2 ^ l} m.lgSize

theorem countP_isVacant (hm : m.Sound) :
    m.cells.countP Coupon.isVacant + m.coupons.length = m.size := by
  have hsum := List.length_eq_countP_add_countP (l := m.cells.toList) Coupon.isVacant
  rw [Array.length_toList, hm.size_cells, Array.countP_toList] at hsum
  simp only [decide_not, Bool.decide_eq_true] at hsum
  rw [length_coupons, hsum]

theorem WellFormed.loaded (h : m.WellFormed) : m.Loaded m.lgK where
  load_le := h.load_le
  vacant_ge := by
    have hcells := countP_isVacant h.toSound
    have hcount := h.count_eq
    have hload := h.load_le
    rw [← size_eq]
    omega
  isLeast := ⟨⟨h.initial_le, h.load_le⟩, fun l ⟨hl, hle⟩ => h.least l hl hle⟩

/-! ### After a history -/

/-- **Load and searches.**  After any history of valid writes from a new map, no more than three
quarters of the cells are taken, and no smaller table would do.  The path of a search has every cell
once, and the search ends at the one cell of its slot or, if the slot is not held, at the first
vacant cell; and so it does in every table of a further insertion. -/
theorem searchable_after (hk : lgK ≤ Coupon.slotBits) (ws : List Write)
    (hws : ∀ w ∈ ws, w.Valid lgK) :
    ∃ m, new lgK = .ok m ∧ (m.after ws).Loaded lgK ∧ (m.after ws).Searchable ∧
      (∀ slot value, (m.after ws).Stores slot value ↔ contents ws slot = some value) ∧
      ∀ slot value, (Write.insert slot value).Valid lgK → contents ws slot = none →
        ∃ m', (m.after ws).InsertionSearches slot value m' := by
  have hempty := holds_empty hk
  have h := hempty.after hws
  have hlgK := lgK_after hempty hws
  have hloaded := h.loaded
  rw [hlgK] at hloaded
  refine ⟨empty lgK, new_eq_ok hk, hloaded, h.toSound.searchable h.room, h.stores_iff, ?_⟩
  rintro slot value ⟨hs, h₀, hv⟩ hf
  exact h.insertionSearches (hlgK.symm ▸ hs) h₀ hv hf

/-- Four slots whose searches all begin at the first of four cells: the fourth takes the last cell
that is vacant. -/
theorem searchable_after_filling :
    ∃ m, new 4 = .ok m ∧
      (m.after [.insert 0 15, .insert 4 16, .insert 8 17]).Searchable ∧
      ∃ m', (m.after [.insert 0 15, .insert 4 16, .insert 8 17]).InsertionSearches 12 18 m' ∧
        m'.cells.countP Coupon.isVacant = 0 := by
  obtain ⟨m, hm, -, hsearch, -, hinsert⟩ := searchable_after (by decide : 4 ≤ Coupon.slotBits)
    [.insert 0 15, .insert 4 16, .insert 8 17] (by decide)
  cases hm
  obtain ⟨m', h⟩ := hinsert 12 18 (by decide) (by decide)
  obtain ⟨i, hi, hm'⟩ := h.find_eq
  have hlast : ((empty 4).after [.insert 0 15, .insert 4 16, .insert 8 17]).find 12 =
      .ok (.vacant 2) := by decide +kernel
  cases hlast.symm.trans hi
  refine ⟨empty 4, rfl, hsearch, m', h, ?_⟩
  rw [hm']
  decide +kernel

end HyperLogLog.OverflowMap
