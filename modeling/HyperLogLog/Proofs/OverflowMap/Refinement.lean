import HyperLogLog.Proofs.OverflowMap.Equality
import Mathlib.Data.Finset.Card
import Mathlib.Data.Finset.Range

/-!
# The overflow map — a finite map

A history of a map is a list of *writes*, insertions and replacements, in which a write that is
refused may be followed by another.  `contents` reads a history as a finite map: an insertion adds
a slot that is absent, a replacement changes one that is present, and neither does anything else.

* `Holds.apply`: a write that finds `f` in the table leaves what the write makes of `f`.
* `Holds.count_eq_card`: the count is the number of slots `f` is defined at.
* `refines_contents`: after any history the map answers as `contents` of it.  The table behind it
  may have grown any number of times; no search has failed and no slot has been met twice, since
  the only faults are the two refusals.
* `after_beq_iff`: the maps after two histories are equal exactly when they are for the same slots
  and answer alike at each of them.  The order of the insertions, the values since replaced and
  the cells of the coupons leave no trace that equality sees.
-/

namespace HyperLogLog.OverflowMap

variable {m m' : OverflowMap} {lgK lgK' slot value : Nat} {f f' : Nat → Option Nat}

/-! ### Histories -/

/-- A write to a map. -/
inductive Write where
  | insert (slot value : Nat)
  | replace (slot value : Nat)
deriving DecidableEq, Repr

namespace Write

/-- Whether a write is one its caller may ask for, of a slot below `2 ^ lgK` and a positive
register value. -/
def Valid (lgK : Nat) : Write → Prop
  | insert slot value | replace slot value => slot < 2 ^ lgK ∧ 0 < value ∧ value ≤ maxRegister

instance (lgK : Nat) : DecidablePred (Valid lgK)
  | insert slot value | replace slot value =>
      inferInstanceAs (Decidable (slot < 2 ^ lgK ∧ 0 < value ∧ value ≤ maxRegister))

/-- What a write makes of a finite map. -/
def onto (f : Nat → Option Nat) : Write → Nat → Option Nat
  | insert slot value => if f slot = none then Function.update f slot (some value) else f
  | replace slot value => if f slot = none then f else Function.update f slot (some value)

end Write

/-- Performs a write. -/
def apply (m : OverflowMap) : Write → Outcome OverflowMap
  | .insert slot value => m.insert slot value
  | .replace slot value => m.replace slot value

/-- The map after a history. -/
def after (m : OverflowMap) (ws : List Write) : OverflowMap :=
  ws.foldl (fun m w => (m.apply w).state) m

/-- The finite map after a history, from the empty one. -/
def contents (ws : List Write) : Nat → Option Nat := ws.foldl Write.onto fun _ => none

/-! ### One write -/

/-- **A write** that its caller may ask for, done or refused, leaves what it makes of the finite
map. -/
theorem Holds.apply (h : m.Holds f) {w : Write} (hw : w.Valid m.lgK) :
    (m.apply w).state.Holds (w.onto f) ∧ (m.apply w).state.lgK = m.lgK := by
  cases w with
  | insert slot value =>
      obtain ⟨hs, h₀, hv⟩ := hw
      rw [OverflowMap.apply, Write.onto]
      cases hf : f slot with
      | none =>
          obtain ⟨m', hm', hk, hh⟩ := h.insert hs h₀ hv hf
          rw [hm', if_pos rfl]
          exact ⟨hh, hk⟩
      | some old =>
          rw [h.insert_present h₀ hf, if_neg (Option.some_ne_none old)]
          exact ⟨h, rfl⟩
  | replace slot value =>
      obtain ⟨-, h₀, hv⟩ := hw
      rw [OverflowMap.apply, Write.onto]
      cases hf : f slot with
      | none =>
          rw [h.replace_absent hf, if_pos rfl]
          exact ⟨h, rfl⟩
      | some old =>
          obtain ⟨m', hm', hk, hh⟩ := h.replace h₀ hv hf
          rw [hm', if_neg (Option.some_ne_none old)]
          exact ⟨hh, hk⟩

/-- **A history.** -/
theorem Holds.after (h : m.Holds f) {ws : List Write} (hws : ∀ w ∈ ws, w.Valid m.lgK) :
    (m.after ws).Holds (ws.foldl Write.onto f) := by
  induction ws generalizing m f with
  | nil => exact h
  | cons w ws ih =>
      obtain ⟨hw, hk⟩ := h.apply (hws w List.mem_cons_self)
      exact ih hw fun w' hw' => hk.symm ▸ hws w' (List.mem_cons_of_mem w hw')

theorem lgK_after (h : m.Holds f) {ws : List Write} (hws : ∀ w ∈ ws, w.Valid m.lgK) :
    (m.after ws).lgK = m.lgK := by
  induction ws generalizing m f with
  | nil => rfl
  | cons w ws ih =>
      obtain ⟨hw, hk⟩ := h.apply (hws w List.mem_cons_self)
      exact (ih hw fun w' hw' => hk.symm ▸ hws w' (List.mem_cons_of_mem w hw')).trans hk

/-! ### The number of slots -/

/-- The slots of the entries are those the function is defined at. -/
theorem Holds.toFinset_entries (h : m.Holds f) :
    (m.entries.map Prod.fst).toFinset =
      (Finset.range (2 ^ m.lgK)).filter fun s => (f s).isSome := by
  ext s
  simp only [List.mem_toFinset, List.mem_map, Prod.exists, exists_and_right, exists_eq_right,
    h.mem_entries, Finset.mem_filter, Finset.mem_range, Option.isSome_iff_exists]
  exact ⟨fun ⟨v, hv⟩ => ⟨h.slot_lt' hv, v, hv⟩, fun ⟨_, hv⟩ => hv⟩

/-- **The count** is the number of slots the function is defined at. -/
theorem Holds.count_eq_card (h : m.Holds f) :
    m.count = ((Finset.range (2 ^ m.lgK)).filter fun s => (f s).isSome).card := by
  rw [← h.toFinset_entries, List.toFinset_card_of_nodup h.nodup_entries, List.length_map]
  exact h.count_eq_length

theorem Holds.count_le (h : m.Holds f) : m.count ≤ 2 ^ m.lgK := by
  rw [h.count_eq_card]
  exact (Finset.card_filter_le _ _).trans_eq (Finset.card_range _)

/-- The initial sizes, for slots that fit a coupon. -/
theorem initialLgSize_eq : ∀ lgK ≤ Coupon.slotBits, initialLgSize lgK =
    if lgK = 0 then 0
    else if lgK ≤ 6 then 2
    else if lgK ≤ 9 then 3
    else if lgK ≤ 11 then 4
    else if lgK ≤ 13 then 5
    else lgK - 8 := by
  decide

/-- A table has no more than twice as many cells as there are slots: half of those would still
not be crowded. -/
theorem Holds.size_le (h : m.Holds f) : m.size ≤ 2 * 2 ^ m.lgK := by
  have hcount := h.count_le
  have hpow : 2 ^ (m.lgK + 1) = 2 * 2 ^ m.lgK := pow_succ' 2 m.lgK
  have hinit : initialLgSize m.lgK ≤ m.lgK + 1 := by
    rw [initialLgSize_eq _ h.lgK_le]
    split_ifs <;> omega
  have hlg : m.lgSize ≤ m.lgK + 1 := h.least _ hinit (by omega)
  exact (Nat.pow_le_pow_right (by decide) hlg).trans_eq hpow

/-! ### Refinement -/

/-- The map answers as the finite map `f` over the slots below `2 ^ lgK`. -/
structure Refines (m : OverflowMap) (lgK : Nat) (f : Nat → Option Nat) : Prop where
  get : ∀ slot, m.get slot = .ok (f slot)
  insert_absent : ∀ slot value, (Write.insert slot value).Valid lgK → f slot = none →
    ∃ m', m.insert slot value = .done m'
  insert_present : ∀ slot value, (Write.insert slot value).Valid lgK → f slot ≠ none →
    m.insert slot value = .faulted (.slotPresent slot) m
  replace_present : ∀ slot value, (Write.replace slot value).Valid lgK → f slot ≠ none →
    ∃ m', m.replace slot value = .done m'
  replace_absent : ∀ slot value, (Write.replace slot value).Valid lgK → f slot = none →
    m.replace slot value = .faulted (.slotAbsent slot) m
  count : m.count = ((Finset.range (2 ^ lgK)).filter fun s => (f s).isSome).card
  entries_nodup : m.entries.Nodup
  mem_entries : ∀ slot value, (slot, value) ∈ m.entries ↔ f slot = some value

/-- A map that holds a function answers as it. -/
theorem Holds.refines (h : m.Holds f) : m.Refines m.lgK f where
  get := h.get
  insert_absent := fun _ _ ⟨hs, h₀, hv⟩ hf =>
    let ⟨m', hm', _⟩ := h.insert hs h₀ hv hf
    ⟨m', hm'⟩
  insert_present := fun _ _ ⟨_, h₀, _⟩ hf =>
    let ⟨_, hold⟩ := Option.ne_none_iff_exists'.mp hf
    h.insert_present h₀ hold
  replace_present := fun _ _ ⟨_, h₀, hv⟩ hf =>
    let ⟨_, hold⟩ := Option.ne_none_iff_exists'.mp hf
    let ⟨m', hm', _⟩ := h.replace h₀ hv hold
    ⟨m', hm'⟩
  replace_absent := fun _ _ _ hf => h.replace_absent hf
  count := h.count_eq_card
  entries_nodup := h.nodup_entries.of_map
  mem_entries := fun _ _ => h.mem_entries

/-- **An overflow map is a finite map.**  After any history of valid writes from a new map, every
look-up answers the finite map of the history; an insertion is done exactly at an absent slot and a
replacement exactly at a present one, and is refused otherwise with the map as it was; the count is
the number of slots; and the entries are the slots with their values, each once. -/
theorem refines_contents (hk : lgK ≤ Coupon.slotBits) (ws : List Write)
    (hws : ∀ w ∈ ws, w.Valid lgK) :
    ∃ m, new lgK = .ok m ∧ (m.after ws).Refines lgK (contents ws) := by
  have hempty := holds_empty hk
  refine ⟨empty lgK, new_eq_ok hk, ?_⟩
  have hafter := (hempty.after hws).refines
  rwa [lgK_after hempty hws] at hafter

/-- Four slots fill the table of four cells that a map for sixteen slots starts with, slot 0 among
them, so that it grows; one slot is inserted again and one is replaced. -/
theorem refines_contents_grown :
    ∃ m, new 4 = .ok m ∧
      (m.after [.insert 0 15, .insert 4 16, .insert 8 17, .insert 12 18, .insert 4 60,
        .replace 8 63]).Refines 4
          (contents [.insert 0 15, .insert 4 16, .insert 8 17, .insert 12 18, .insert 4 60,
            .replace 8 63]) :=
  refines_contents (by decide) _ (by decide)

/-- The slot that is inserted again keeps its value. -/
example : (contents [.insert 0 15, .insert 4 16, .insert 4 60, .replace 0 63] 4,
    contents [.insert 0 15, .insert 4 16, .insert 4 60, .replace 0 63] 0) = (some 16, some 63) := by
  decide

/-! ### Equality -/

/-- Equal maps are maps for the same slots that answer alike at every slot. -/
theorem Holds.beq_iff_get (h : m.Holds f) (h' : m'.Holds f') :
    (m == m') = true ↔ m.lgK = m'.lgK ∧ ∀ slot, m.get slot = m'.get slot := by
  rw [h.beq_iff h', funext_iff]
  refine and_congr_right fun _ => forall_congr' fun slot => ?_
  rw [h.get slot, h'.get slot, Except.ok.injEq]

theorem Holds.eq_none (h : m.Holds f) (hs : ¬ slot < 2 ^ m.lgK) : f slot = none :=
  Option.eq_none_iff_forall_not_mem.mpr fun _ hv => hs (h.slot_lt' hv)

/-- It is enough to ask at the slots the maps are for: they hold no others. -/
theorem Holds.beq_iff_get_lt (h : m.Holds f) (h' : m'.Holds f') :
    (m == m') = true ↔ m.lgK = m'.lgK ∧ ∀ slot < 2 ^ m.lgK, m.get slot = m'.get slot := by
  rw [h.beq_iff_get h']
  refine and_congr_right fun hk => ⟨fun hget slot _ => hget slot, fun hget slot => ?_⟩
  by_cases hs : slot < 2 ^ m.lgK
  · exact hget slot hs
  · rw [h.get slot, h'.get slot, h.eq_none hs, h'.eq_none (hk ▸ hs)]

/-- **Equality is equality of contents.**  The maps after any two histories of valid writes have an
answer at every slot, the one of the finite map of the history, and they are equal exactly when
they are for the same slots and the answers agree, at every slot or just at those they are for. -/
theorem after_beq_iff (hk : lgK ≤ Coupon.slotBits) (hk' : lgK' ≤ Coupon.slotBits)
    (ws ws' : List Write) (hws : ∀ w ∈ ws, w.Valid lgK) (hws' : ∀ w ∈ ws', w.Valid lgK') :
    ∃ m m', new lgK = .ok m ∧ new lgK' = .ok m' ∧
      (∀ slot, (m.after ws).get slot = .ok (contents ws slot)) ∧
      (∀ slot, (m'.after ws').get slot = .ok (contents ws' slot)) ∧
      ((m.after ws == m'.after ws') = true ↔
        lgK = lgK' ∧ ∀ slot, (m.after ws).get slot = (m'.after ws').get slot) ∧
      ((m.after ws == m'.after ws') = true ↔
        lgK = lgK' ∧ ∀ slot < 2 ^ lgK, (m.after ws).get slot = (m'.after ws').get slot) := by
  have hempty := holds_empty hk
  have hempty' := holds_empty hk'
  have h := hempty.after hws
  have h' := hempty'.after hws'
  refine ⟨empty lgK, empty lgK', new_eq_ok hk, new_eq_ok hk', h.get, h'.get, ?_, ?_⟩
  · rw [h.beq_iff_get h', lgK_after hempty hws, lgK_after hempty' hws']
    rfl
  · rw [h.beq_iff_get_lt h', lgK_after hempty hws, lgK_after hempty' hws']
    rfl

/-- Four slots that collide in the table of four cells, inserted in opposite orders and one of them
with a value since replaced: the table grows in both histories, the coupons lie in different cells
of it, and the maps are equal.  A map for twice as many slots is not equal to either. -/
theorem after_beq_iff_collisions :
    ((empty 4).after [.insert 0 15, .insert 4 16, .insert 8 17, .insert 12 18]).entries ≠
        ((empty 4).after
          [.insert 12 18, .insert 8 63, .insert 4 16, .replace 8 17, .insert 0 15]).entries ∧
      ((empty 4).after [.insert 0 15, .insert 4 16, .insert 8 17, .insert 12 18] ==
        (empty 4).after
          [.insert 12 18, .insert 8 63, .insert 4 16, .replace 8 17, .insert 0 15]) = true ∧
      ((empty 4).after [.insert 0 15] == (empty 5).after [.insert 0 15]) = false := by
  refine ⟨by decide +kernel, ?_, ?_⟩
  · obtain ⟨_, _, hm, hm', -, -, -, hiff⟩ :=
      after_beq_iff (by decide : 4 ≤ Coupon.slotBits) (by decide : 4 ≤ Coupon.slotBits)
        [.insert 0 15, .insert 4 16, .insert 8 17, .insert 12 18]
        [.insert 12 18, .insert 8 63, .insert 4 16, .replace 8 17, .insert 0 15]
        (by decide) (by decide)
    cases hm
    cases hm'
    exact hiff.mpr ⟨rfl, by decide +kernel⟩
  · obtain ⟨_, _, hm, hm', -, -, hiff, -⟩ :=
      after_beq_iff (by decide : 4 ≤ Coupon.slotBits) (by decide : 5 ≤ Coupon.slotBits)
        [.insert 0 15] [.insert 0 15] (by decide) (by decide)
    cases hm
    cases hm'
    exact Bool.eq_false_iff.mpr fun heq => absurd (hiff.mp heq).1 (by decide)

end HyperLogLog.OverflowMap
