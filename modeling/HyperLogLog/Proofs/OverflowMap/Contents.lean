import HyperLogLog.Proofs.Outcome
import HyperLogLog.Proofs.OverflowMap.Probe
import Mathlib.Logic.Function.Basic

/-!
# The overflow map — contents

A map *holds* a partial function `f` from slots to values when its table is sound, no more than
three quarters full, no larger than that asks for, and its taken cells are the graph of `f`
(`Holds`).  Each operation is then an operation on `f`:

* `Holds.get`: a look-up answers `f`;
* `Holds.insert`, `Holds.replace`: a write at a fresh or a present slot updates `f`, through any
  growth of the table;
* `Holds.mem_entries`, `Holds.nodup_entries`: the entries are the graph of `f`, each slot once.

Growing rebuilds the table coupon by coupon (`grow_done`): the invariant of that loop is that the
new table is sound and stores the coupons moved so far.
-/

namespace HyperLogLog.OverflowMap

variable {m : OverflowMap} {slot value i : Nat} {c : Coupon} {f : Nat → Option Nat}

/-! ### What a table stores -/

/-- Some cell holds the slot with the value. -/
def Stores (m : OverflowMap) (slot value : Nat) : Prop :=
  ∃ i c, m.Takes i c ∧ m.slotOf c = slot ∧ c.value = value

theorem mem_coupons : c ∈ m.coupons ↔ ∃ i, m.Takes i c := by
  simp only [coupons, List.mem_filter, Array.mem_toList_iff, Array.mem_iff_getElem?, Takes,
    Bool.not_eq_true', exists_and_right]

theorem mem_entries : (slot, value) ∈ m.entries ↔ m.Stores slot value := by
  simp only [entries, List.mem_map, mem_coupons, Prod.mk.injEq, Stores]
  constructor
  · rintro ⟨c, ⟨i, hc⟩, hs, hv⟩
    exact ⟨i, c, hc, hs, hv⟩
  · rintro ⟨i, c, hc, hs, hv⟩
    exact ⟨c, ⟨i, hc⟩, hs, hv⟩

/-- The coupons of a sound table have different slots. -/
theorem Sound.pairwise_coupons (hm : m.Sound) :
    m.coupons.Pairwise fun c d => m.slotOf c ≠ m.slotOf d := by
  rw [coupons, List.pairwise_filter, List.pairwise_iff_getElem]
  intro i j hi hj hij hc hd e
  have takes : ∀ k (hk : k < m.cells.toList.length), (!(m.cells.toList[k]).isVacant) = true →
      m.Takes k m.cells.toList[k] := fun k hk hv =>
    ⟨by rw [← Array.getElem?_toList]; exact List.getElem?_eq_getElem hk, by simpa using hv⟩
  exact hij.ne (hm.takes_unique (takes i hi hc) (takes j hj hd) e)

theorem Sound.nodup_entries (hm : m.Sound) : (m.entries.map Prod.fst).Nodup := by
  rw [entries, List.map_map, List.nodup_iff_pairwise_ne, List.pairwise_map]
  exact hm.pairwise_coupons

/-- A sound table stores one value a slot. -/
theorem Sound.stores_unique (hm : m.Sound) {v w : Nat} (hv : m.Stores slot v)
    (hw : m.Stores slot w) : v = w := by
  obtain ⟨i, c, hc, hs, rfl⟩ := hv
  obtain ⟨j, d, hd, hs', rfl⟩ := hw
  obtain rfl := hm.takes_unique hc hd (hs.trans hs'.symm)
  rw [Option.some.inj (hc.1.symm.trans hd.1)]

theorem length_entries (m : OverflowMap) : m.entries.length = m.coupons.length :=
  List.length_map _

/-- A write leaves every other slot alone, when its slot is in no other cell. -/
theorem stores_write (hi : i < m.cells.size) (hc : c.isVacant = false)
    (hat : ∀ j d, m.Takes j d → (m.slotOf d = m.slotOf c ↔ j = i)) :
    (m.write i c).Stores slot value ↔
      if slot = m.slotOf c then c.value = value else m.Stores slot value := by
  split
  · subst slot
    constructor
    · rintro ⟨j, d, hd, hs, hv⟩
      rcases (takes_write hi hc).mp hd with ⟨rfl, rfl⟩ | ⟨hne, hd⟩
      · exact hv
      · exact absurd ((hat j d hd).mp hs) hne
    · exact fun hv => ⟨i, c, (takes_write hi hc).mpr (.inl ⟨rfl, rfl⟩), rfl, hv⟩
  · rename_i hne
    constructor
    · rintro ⟨j, d, hd, hs, hv⟩
      rcases (takes_write hi hc).mp hd with ⟨rfl, rfl⟩ | ⟨-, hd⟩
      · exact absurd hs.symm hne
      · exact ⟨j, d, hd, hs, hv⟩
    · rintro ⟨j, d, hd, hs, hv⟩
      have hj : j ≠ i := fun e => hne (hs ▸ (hat j d hd).mpr e)
      exact ⟨j, d, (takes_write hi hc).mpr (.inr ⟨hj, hd⟩), hs, hv⟩

/-! ### The number of taken cells -/

theorem length_coupons (m : OverflowMap) :
    m.coupons.length = m.cells.toList.countP (!·.isVacant) :=
  List.countP_eq_length_filter.symm

theorem length_coupons_le (hm : m.Sound) : m.coupons.length ≤ m.size := by
  rw [length_coupons, ← hm.size_cells, ← Array.length_toList]
  exact List.countP_le_length

/-- A table with fewer coupons than cells has a vacant cell. -/
theorem exists_vacant (hm : m.Sound) (h : m.coupons.length < m.size) :
    ∃ i : Nat, m.cells[i]? = some Coupon.vacant := by
  by_contra hno
  rw [length_coupons, ← hm.size_cells, ← Array.length_toList] at h
  refine h.ne (List.countP_eq_length.mpr fun c hc => ?_)
  rw [Array.mem_toList_iff, Array.mem_iff_getElem?] at hc
  obtain ⟨i, hi⟩ := hc
  rw [Bool.not_eq_true', ← Bool.not_eq_true, Coupon.isVacant_iff]
  exact fun e => hno ⟨i, e ▸ hi⟩

theorem length_coupons_write {d : Coupon} (hd : m.cells[i]? = some d) (hc : c.isVacant = false) :
    (m.write i c).coupons.length = m.coupons.length + if d.isVacant then 1 else 0 := by
  obtain ⟨hi, rfl⟩ := Array.getElem?_eq_some_iff.mp hd
  have hl : i < m.cells.toList.length := by simpa using hi
  simp only [length_coupons, write, Array.toList_setIfInBounds, List.countP_set hl,
    Array.getElem_toList, hc, Bool.not_false, if_true]
  by_cases hv : (m.cells[i]).isVacant = true
  · simp [hv]
  · have hpos : 0 < m.cells.toList.countP (!·.isVacant) :=
      List.countP_pos_iff.mpr ⟨m.cells[i], by simp, by simp [hv]⟩
    simp only [Bool.not_eq_true] at hv
    simp only [hv, Bool.not_false, if_true, Bool.false_eq_true, if_false]
    omega

/-! ### Rebuilding -/

theorem not_takes_ofLgSize (lgK lgSize : Nat) : ¬ (ofLgSize lgK lgSize).Takes i c := by
  rintro ⟨h, hv⟩
  rw [ofLgSize, Array.getElem?_replicate] at h
  split at h
  · cases h; cases hv
  · cases h

theorem sound_ofLgSize {lgK lgSize : Nat} (h : lgK ≤ Coupon.slotBits) :
    (ofLgSize lgK lgSize).Sound :=
  ⟨by simp [ofLgSize, size], h, fun ht => absurd ht (not_takes_ofLgSize _ _),
    fun ht => absurd ht (not_takes_ofLgSize _ _)⟩

theorem length_coupons_ofLgSize (lgK lgSize : Nat) :
    (ofLgSize lgK lgSize).coupons.length = 0 := by
  simp [coupons, ofLgSize]

/-- What a write at the end of a fruitless search does to a sound table. -/
structure Adds (m : OverflowMap) (c : Coupon) (m' : OverflowMap) : Prop where
  sound : m'.Sound
  length : m'.coupons.length = m.coupons.length + 1
  stores : ∀ s v, m'.Stores s v ↔ if s = m.slotOf c then c.value = v else m.Stores s v

/-- **A fresh coupon is written.**  The search for its slot ends at a vacant cell, and the table
with the coupon there is sound. -/
theorem find_and_write (hm : m.Sound) (hc : c.isVacant = false) (hs : c.slot < 2 ^ m.lgK)
    (hno : ∀ v, ¬ m.Stores (m.slotOf c) v) (hroom : m.coupons.length < m.size) :
    ∃ i, m.find (m.slotOf c) = .ok (.vacant i) ∧ Adds m c (m.write i c) := by
  have hfree : ∀ j d, m.Takes j d → m.slotOf d ≠ m.slotOf c := fun j d hd e =>
    hno d.value ⟨j, d, hd, e, rfl⟩
  obtain ⟨t, ht, hfind, hvac, hr⟩ := find_vacant hm hfree (exists_vacant hm hroom)
  obtain ⟨hi, -⟩ := Array.getElem?_eq_some_iff.mp hvac
  refine ⟨_, hfind, hm.write hc hs ht hr fun d hd => absurd hvac hd.ne_vacant, ?_, fun s v => ?_⟩
  · rw [length_coupons_write hvac hc]; simp
  · refine stores_write hi hc fun j d hd => ⟨fun e => absurd e (hfree j d hd), ?_⟩
    rintro rfl
    exact absurd hvac hd.ne_vacant

/-- The table that is rebuilt from `m` at twice the size, when the coupons of a list are moved. -/
structure Rebuilding (m : OverflowMap) (moved : List Coupon) (t : OverflowMap) : Prop where
  sound : t.Sound
  lgK : t.lgK = m.lgK
  lgSize : t.lgSize = m.lgSize + 1
  count : t.count = m.count
  length : t.coupons.length = moved.length
  stores : ∀ s v, t.Stores s v ↔ ∃ c ∈ moved, m.slotOf c = s ∧ c.value = v

/-- The table a map is moved into when it grows, before any coupon is. -/
def doubled (m : OverflowMap) : OverflowMap :=
  { ofLgSize m.lgK (m.lgSize + 1) with count := m.count }

theorem grow_eq (m : OverflowMap) : m.grow = Outcome.forEach rehash m.coupons m.doubled := rfl

theorem Rebuilding.start (hm : m.Sound) : Rebuilding m [] m.doubled := by
  have hs : (ofLgSize m.lgK (m.lgSize + 1)).Sound := sound_ofLgSize hm.lgK_le
  refine ⟨⟨hs.size_cells, hs.lgK_le, hs.slot_lt, hs.reached⟩, rfl, rfl, rfl,
    length_coupons_ofLgSize m.lgK (m.lgSize + 1), fun s v => ⟨?_, by simp⟩⟩
  rintro ⟨i, c, hc, -⟩
  exact absurd hc (not_takes_ofLgSize m.lgK (m.lgSize + 1))

/-- The slot of the next coupon is new to the table, since no coupon before it has that slot. -/
theorem Rebuilding.fresh {pre post : List Coupon} {t : OverflowMap} (hm : m.Sound)
    (e : m.coupons = pre ++ c :: post) (h : Rebuilding m pre t) (v : Nat) :
    ¬ t.Stores (m.slotOf c) v := by
  intro hv
  obtain ⟨d, hd, hsd, -⟩ := (h.stores _ _).mp hv
  have hp := hm.pairwise_coupons
  rw [e, List.pairwise_append] at hp
  exact hp.2.2 d hd c List.mem_cons_self hsd

/-- There is room left: the old table had a cell for each coupon, and the new one has twice as
many. -/
theorem Rebuilding.room {pre post : List Coupon} {t : OverflowMap} (hm : m.Sound)
    (e : m.coupons = pre ++ post) (h : Rebuilding m pre t) : t.coupons.length < t.size := by
  have hle : m.coupons.length ≤ m.size := length_coupons_le hm
  have hsize : t.size = m.size * 2 := by rw [size_eq, h.lgSize, size_eq, pow_succ]
  have hlen : m.coupons.length = pre.length + post.length := by rw [e, List.length_append]
  have hmoved := h.length
  have hpos := m.size_pos
  omega

/-- One coupon is moved. -/
theorem Rebuilding.rehash {pre post : List Coupon} {t : OverflowMap} (hm : m.Sound)
    (e : m.coupons = pre ++ c :: post) (h : Rebuilding m pre t) :
    ∃ t', t.rehash c = .done t' ∧ Rebuilding m (pre ++ [c]) t' := by
  obtain ⟨i, hc⟩ := mem_coupons.mp (show c ∈ m.coupons by rw [e]; simp)
  have hno := h.fresh hm e
  have hslot : t.slotOf c = m.slotOf c := by rw [slotOf, h.lgK, slotOf]
  have hlt : c.slot < 2 ^ t.lgK := h.lgK ▸ hm.slot_lt hc
  obtain ⟨j, hfind, hadd⟩ := find_and_write h.sound hc.2 hlt (hslot ▸ hno) (h.room hm e)
  rw [slotOf_eq hlt] at hfind
  have hlen : (t.write j c).coupons.length = (pre ++ [c]).length := by
    rw [hadd.length, h.length, List.length_append, List.length_singleton]
  refine ⟨t.write j c, by rw [OverflowMap.rehash, hfind],
    hadd.sound, h.lgK, h.lgSize, h.count, hlen, fun s v => ?_⟩
  -- the coupon that is moved stores its value, and those before it what they stored
  have hmoved : (∃ d ∈ pre ++ [c], m.slotOf d = s ∧ d.value = v) ↔
      t.Stores s v ∨ m.slotOf c = s ∧ c.value = v := by
    simp only [List.mem_append, List.mem_singleton, or_and_right, exists_or, exists_eq_left,
      h.stores]
  rw [hadd.stores, hslot, hmoved]
  split
  · subst s
    refine ⟨fun hv => .inr ⟨rfl, hv⟩, ?_⟩
    rintro (hst | ⟨-, hv⟩)
    · exact absurd hst (hno v)
    · exact hv
  · rename_i hne
    refine ⟨.inl, ?_⟩
    rintro (hst | ⟨hs, -⟩)
    · exact hst
    · exact absurd hs.symm hne

/-- The first coupons are moved. -/
theorem forEach_rehash (hm : m.Sound) {pre post : List Coupon} (e : m.coupons = pre ++ post) :
    ∃ t, Outcome.forEach rehash pre m.doubled = .done t ∧ Rebuilding m pre t := by
  refine Outcome.forEach_done (Rebuilding.start hm) fun pre' c post' t e' h => ?_
  have hsplit : m.coupons = pre' ++ c :: (post' ++ post) := by
    rw [e, e', List.append_assoc, List.cons_append]
  exact h.rehash hm hsplit

/-- **Growing.**  A sound table is moved into one of twice the size. -/
theorem grow_done (hm : m.Sound) : ∃ m', m.grow = .done m' ∧ Rebuilding m m.coupons m' :=
  forEach_rehash hm (List.append_nil m.coupons).symm

/-- A table that is rebuilt in full stores what the old one stored. -/
theorem Rebuilding.stores_iff {t : OverflowMap} (h : Rebuilding m m.coupons t) :
    t.Stores slot value ↔ m.Stores slot value := by
  rw [h.stores]
  constructor
  · rintro ⟨c, hc, h₁, h₂⟩
    obtain ⟨i, hi⟩ := mem_coupons.mp hc
    exact ⟨i, c, hi, h₁, h₂⟩
  · rintro ⟨i, c, hc, h₁, h₂⟩
    exact ⟨c, mem_coupons.mpr ⟨i, hc⟩, h₁, h₂⟩

/-! ### Maps that hold a function -/

/-- A map between two operations: the table is sound, the count is right, and the table is the
smallest one from its initial size on that is no more than three quarters full. -/
structure WellFormed (m : OverflowMap) : Prop extends m.Sound where
  count_eq : m.count = m.coupons.length
  initial_le : initialLgSize m.lgK ≤ m.lgSize
  load_le : 4 * m.count ≤ 3 * m.size
  least : ∀ l, initialLgSize m.lgK ≤ l → 4 * m.count ≤ 3 * 2 ^ l → m.lgSize ≤ l

/-- The map holds the values `f` gives, at the slots where it gives one. -/
structure Holds (m : OverflowMap) (f : Nat → Option Nat) : Prop extends m.WellFormed where
  stores_iff : ∀ s v, m.Stores s v ↔ f s = some v

theorem holds_empty {lgK : Nat} (h : lgK ≤ Coupon.slotBits) :
    (empty lgK).Holds fun _ => none where
  toSound := sound_ofLgSize h
  count_eq := (length_coupons_ofLgSize _ _).symm
  initial_le := Nat.le_refl _
  load_le := Nat.zero_le _
  least := fun _ hl _ => hl
  stores_iff := fun s v => by
    refine ⟨?_, by simp⟩
    rintro ⟨i, c, hc, -⟩
    exact absurd hc (not_takes_ofLgSize _ _)

/-- A map between two operations holds some function. -/
theorem WellFormed.exists_holds (h : m.WellFormed) : ∃ f, m.Holds f := by
  classical
  refine ⟨fun s => if hs : ∃ v, m.Stores s v then some hs.choose else none, h, fun s v => ?_⟩
  by_cases hs : ∃ v, m.Stores s v
  · rw [dif_pos hs, Option.some.injEq]
    exact ⟨h.stores_unique hs.choose_spec, fun e => e ▸ hs.choose_spec⟩
  · rw [dif_neg hs]
    exact iff_of_false (fun hv => hs ⟨v, hv⟩) nofun

theorem WellFormed.entries_eq_nil_iff (h : m.WellFormed) : m.entries = [] ↔ m.count = 0 := by
  rw [← List.length_eq_zero_iff, length_entries, h.count_eq]

/-- Three quarters of the cells are not all of them. -/
theorem WellFormed.room (h : m.WellFormed) : m.coupons.length < m.size := by
  have h₁ := h.count_eq
  have h₂ := h.load_le
  have h₃ := m.size_pos
  omega

/-- An addition that does not crowd the table. -/
theorem WellFormed.add (h : m.WellFormed) (hs : (m.add i c).Sound)
    (hlen : (m.add i c).coupons.length = m.count + 1) (hcr : (m.add i c).isCrowded = false) :
    (m.add i c).WellFormed := by
  have hload : 4 * (m.count + 1) ≤ 3 * m.size := by
    rw [isCrowded, decide_eq_false_iff_not, not_lt] at hcr
    exact hcr
  refine ⟨hs, hlen.symm, h.initial_le, hload, fun l hl hle => h.least l hl ?_⟩
  have hle' : 4 * (m.count + 1) ≤ 3 * 2 ^ l := hle
  omega

/-- An addition that crowds the table, after the table has grown.  Doubling is enough, because the
table was not crowded before, and the old size would not do. -/
theorem WellFormed.grow (h : m.WellFormed) {m' : OverflowMap}
    (hlen : (m.add i c).coupons.length = m.count + 1) (hcr : (m.add i c).isCrowded = true)
    (hr : Rebuilding (m.add i c) (m.add i c).coupons m') : m'.WellFormed := by
  have hk : m'.lgK = m.lgK := hr.lgK
  have hz : m'.lgSize = m.lgSize + 1 := hr.lgSize
  have hn : m'.count = m.count + 1 := hr.count
  have hload : 3 * 2 ^ m.lgSize < 4 * (m.count + 1) := by
    rw [isCrowded, decide_eq_true_eq] at hcr
    exact hcr
  refine ⟨hr.sound, ?_, ?_, ?_, fun l hl hle => ?_⟩
  · rw [hn, hr.length, hlen]
  · rw [hk, hz]
    exact Nat.le_succ_of_le h.initial_le
  · have hsize : m'.size = m.size * 2 := by rw [size_eq, hz, size_eq, pow_succ]
    have hold := h.load_le
    have hpos := m.size_pos
    omega
  · rw [hk] at hl
    rw [hn] at hle
    have hge : m.lgSize ≤ l := h.least l hl (by omega)
    have hne : m.lgSize ≠ l := by
      rintro rfl
      exact absurd hle hload.not_ge
    exact hz ▸ Nat.lt_of_le_of_ne hge hne

/-- The slots a map holds are slots of its range. -/
theorem Holds.slot_lt' (h : m.Holds f) (hf : f slot = some value) : slot < 2 ^ m.lgK := by
  obtain ⟨i, c, hc, rfl, -⟩ := (h.stores_iff slot value).mpr hf
  exact Nat.mod_lt _ (Nat.two_pow_pos _)

/-- The values a map holds fit a coupon. -/
theorem Holds.value_le (h : m.Holds f) (hf : f slot = some value) : value ≤ maxRegister := by
  obtain ⟨i, c, -, -, rfl⟩ := (h.stores_iff slot value).mpr hf
  exact c.value_le

/-- A held slot is in a cell, and a search ends there. -/
theorem Holds.exists_takes (h : m.Holds f) (hf : f slot = some value) :
    ∃ i c, m.Takes i c ∧ m.slotOf c = slot ∧ c.value = value ∧
      m.find slot = .ok (.found i) := by
  obtain ⟨i, c, hc, rfl, hv⟩ := (h.stores_iff slot value).mpr hf
  exact ⟨i, c, hc, rfl, hv, find_found h.toSound hc⟩

/-- A slot that is not held is in no cell, and a search ends at a vacant one. -/
theorem Holds.exists_vacant (h : m.Holds f) (hf : f slot = none) :
    ∃ t < m.size, m.find slot = .ok (.vacant (m.probeAt slot t)) := by
  have hno : ∀ i c, m.Takes i c → m.slotOf c ≠ slot := by
    intro i c hc e
    have hst := (h.stores_iff slot c.value).mp ⟨i, c, hc, e, rfl⟩
    rw [hf] at hst
    cases hst
  obtain ⟨t, ht, hfind, -⟩ :=
    find_vacant h.toSound hno (OverflowMap.exists_vacant h.toSound h.room)
  exact ⟨t, ht, hfind⟩

/-- **Every search ends**, after no more steps than there are cells. -/
theorem Holds.find_ends (h : m.Holds f) (slot : Nat) :
    ∃ t < m.size, m.find slot = .ok (.found (m.probeAt slot t)) ∨
      m.find slot = .ok (.vacant (m.probeAt slot t)) := by
  cases hf : f slot with
  | some value =>
      obtain ⟨i, c, hc, rfl, -, hfind⟩ := h.exists_takes hf
      obtain ⟨t, ht, rfl, -⟩ := h.reached hc
      exact ⟨t, ht, .inl hfind⟩
  | none =>
      obtain ⟨t, ht, hfind⟩ := h.exists_vacant hf
      exact ⟨t, ht, .inr hfind⟩

/-- **Look-up.** -/
theorem Holds.get (h : m.Holds f) (slot : Nat) : m.get slot = .ok (f slot) := by
  cases hf : f slot with
  | some value =>
      obtain ⟨i, c, hc, -, hv, hfind⟩ := h.exists_takes hf
      simp [OverflowMap.get, hfind, hc.1, hv]
  | none =>
      obtain ⟨t, -, hfind⟩ := h.exists_vacant hf
      simp [OverflowMap.get, hfind]

/-- The coupon of a slot in range and a positive value. -/
theorem Sound.exists_pack (hm : m.Sound) (hs : slot < 2 ^ m.lgK) (h₀ : 0 < value)
    (hv : value ≤ maxRegister) :
    ∃ c, Coupon.pack slot value = c ∧ c.isVacant = false ∧ c.slot < 2 ^ m.lgK ∧
      m.slotOf c = slot ∧ c.value = value := by
  have hcs : (Coupon.pack slot value).slot = slot :=
    Coupon.slot_pack (hs.trans_le (Nat.pow_le_pow_right (by decide) hm.lgK_le))
  have hlt : (Coupon.pack slot value).slot < 2 ^ m.lgK := hcs.symm ▸ hs
  exact ⟨_, rfl, Coupon.isVacant_pack h₀ hv, hlt, (slotOf_eq hlt).trans hcs,
    Coupon.value_pack hv⟩

/-- A fresh coupon is added where the search for its slot ends. -/
theorem Holds.find_and_add (h : m.Holds f) (hs : slot < 2 ^ m.lgK) (h₀ : 0 < value)
    (hv : value ≤ maxRegister) (hf : f slot = none) :
    ∃ i c, Coupon.pack slot value = c ∧ m.slotOf c = slot ∧ c.value = value ∧
      m.find slot = .ok (.vacant i) ∧ Adds m c (m.add i c) := by
  obtain ⟨c, hp, hc, hcs, rfl, rfl⟩ := h.exists_pack hs h₀ hv
  have hno : ∀ v, ¬ m.Stores (m.slotOf c) v := by
    intro v hst
    rw [h.stores_iff, hf] at hst
    cases hst
  obtain ⟨i, hfind, hadd⟩ := find_and_write h.toSound hc hcs hno h.room
  -- the count is no part of what a table stores
  have hsound : (m.add i c).Sound :=
    ⟨hadd.sound.size_cells, hadd.sound.lgK_le, hadd.sound.slot_lt, hadd.sound.reached⟩
  exact ⟨i, c, hp, rfl, rfl, hfind, hsound, hadd.length, hadd.stores⟩

/-- **Insertion.**  A fresh slot is added, and the table grows if it has become crowded. -/
theorem Holds.insert (h : m.Holds f) (hs : slot < 2 ^ m.lgK) (h₀ : 0 < value)
    (hv : value ≤ maxRegister) (hf : f slot = none) :
    ∃ m', m.insert slot value = .done m' ∧ m'.lgK = m.lgK ∧
      m'.Holds (Function.update f slot (some value)) := by
  obtain ⟨i, c, hp, rfl, rfl, hfind, hadd⟩ := h.find_and_add hs h₀ hv hf
  have hlen : (m.add i c).coupons.length = m.count + 1 := hadd.length.trans (by rw [h.count_eq])
  have hst : ∀ s v, (m.add i c).Stores s v ↔
      Function.update f (m.slotOf c) (some c.value) s = some v := by
    intro s v
    refine (hadd.stores s v).trans ?_
    rw [Function.update_apply]
    split
    · rw [Option.some.injEq]
    · exact h.stores_iff s v
  simp only [OverflowMap.insert, h₀.ne', if_false, hfind, hp]
  cases hcr : (m.add i c).isCrowded with
  | false => exact ⟨_, rfl, rfl, h.toWellFormed.add hadd.sound hlen hcr, hst⟩
  | true =>
      obtain ⟨m', hgrow, hr⟩ := grow_done hadd.sound
      refine ⟨m', hgrow, hr.lgK, h.toWellFormed.grow hlen hcr hr, fun s v => ?_⟩
      rw [hr.stores_iff, hst]

/-- **Replacement.**  The value of a held slot changes in place. -/
theorem Holds.replace (h : m.Holds f) {old : Nat} (h₀ : 0 < value) (hv : value ≤ maxRegister)
    (hf : f slot = some old) :
    ∃ m', m.replace slot value = .done m' ∧ m'.lgK = m.lgK ∧
      m'.Holds (Function.update f slot (some value)) := by
  obtain ⟨c, hp, hc, hcs, rfl, rfl⟩ := h.exists_pack (h.slot_lt' hf) h₀ hv
  obtain ⟨i, d, hd, hds, -, hfind⟩ := h.exists_takes hf
  obtain ⟨t, ht, rfl, hr⟩ := h.reached hd
  simp only [hds] at hd hfind hr
  -- the coupon is written over the one of its own slot
  have hat : ∀ j b, m.Takes j b →
      (m.slotOf b = m.slotOf c ↔ j = m.probeAt (m.slotOf c) t) := by
    refine fun j b hb => ⟨fun e => h.takes_unique hb hd (e.trans hds.symm), ?_⟩
    rintro rfl
    rw [Option.some.inj (hb.1.symm.trans hd.1), hds]
  have hsound := h.toSound.write hc hcs ht hr fun b hb => (hat _ b hb).mpr rfl
  refine ⟨m.write (m.probeAt (m.slotOf c) t) c, by simp only [OverflowMap.replace, hfind, hp], rfl,
    ⟨hsound, ?_, h.initial_le, h.load_le, h.least⟩, fun s v => ?_⟩
  · rw [length_coupons_write hd.1 hc, hd.2]
    exact h.count_eq
  · rw [stores_write hd.lt hc hat, Function.update_apply]
    split
    · rw [Option.some.injEq]
    · exact h.stores_iff s v

/-- An insertion at a held slot is refused, and the map is as it was. -/
theorem Holds.insert_present (h : m.Holds f) {old : Nat} (h₀ : 0 < value)
    (hf : f slot = some old) : m.insert slot value = .faulted (.slotPresent slot) m := by
  obtain ⟨i, c, -, -, -, hfind⟩ := h.exists_takes hf
  rw [OverflowMap.insert, if_neg h₀.ne', hfind]

/-- A replacement at a slot that is not held is refused, and the map is as it was. -/
theorem Holds.replace_absent (h : m.Holds f) (hf : f slot = none) :
    m.replace slot value = .faulted (.slotAbsent slot) m := by
  obtain ⟨t, -, hfind⟩ := h.exists_vacant hf
  rw [OverflowMap.replace, hfind]

/-- The entries are the graph of the function. -/
theorem Holds.mem_entries (h : m.Holds f) : (slot, value) ∈ m.entries ↔ f slot = some value :=
  OverflowMap.mem_entries.trans (h.stores_iff slot value)

theorem Holds.count_eq_length (h : m.Holds f) : m.count = m.entries.length := by
  rw [length_entries, h.count_eq]

end HyperLogLog.OverflowMap
