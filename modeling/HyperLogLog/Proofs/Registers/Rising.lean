import HyperLogLog.Proofs.Registers.WellFormed

/-!
# Registers as offsets — a rise of any well-formed array

`Holds.rise` is about arrays that hold a bank, which have no overflow map without entries.  A
well-formed array may have one, and a rise drops it: the array rises as the one without that map
does (`WellFormed.rise_trim`), and that one holds the bank of the values it shows
(`Shows.holds_trim`).

* `WellFormed.rise_spec`: a rise of the base changes no register, and takes out of the overflow map
  exactly the values that fit a nibble on the next base.
-/

namespace HyperLogLog

variable {p : Precision} {b : Bank p}

/-- The number of registers with a value. -/
theorem Bank.count_values (b : Bank p) (v : Nat) :
    b.values.count v = ((Finset.range p.slots).filter fun s => b.get s = v).card := by
  have hlist : b.values.toList = (List.range p.slots).map b.get := by
    refine List.ext_getElem? fun s => ?_
    rw [b.getElem?_toList_values, List.getElem?_map]
    split
    · rename_i hs
      rw [List.getElem?_range hs, Option.map_some]
    · rename_i hs
      rw [List.getElem?_eq_none (by simpa using hs), Option.map_none]
  rw [← Array.count_toList, hlist, List.count, List.countP_map, List.countP_eq_length_filter]
  exact congrArg List.length (List.filter_congr fun s _ => beq_eq_decide _ _)

namespace OffsetArray

variable {a a' : OffsetArray} {base v lgK : Nat} {f : Nat → Option Nat} {o : Option OverflowMap}
  {w : Nat → Nat}

/-! ### Overflow maps without entries -/

/-- The array without its overflow map, if that has no entries. -/
def trim (a : OffsetArray) : OffsetArray :=
  ⟨a.lgK, a.nibbles, a.overflow.filter fun m => m.count ≠ 0⟩

theorem Keeps.trim (h : Keeps lgK f o) : Overflows lgK f (o.filter fun m => m.count ≠ 0) := by
  cases o with
  | none => exact h
  | some m =>
      obtain ⟨hk, hh⟩ := h
      by_cases hzero : m.count = 0
      · rw [Option.filter_some, if_neg (by simp [hzero])]
        intro s
        refine Option.eq_none_iff_forall_ne_some.mpr fun v hf => ?_
        have he := hh.mem_entries.mpr hf
        rw [hh.entries_eq_nil_iff.mpr hzero] at he
        cases he
      · rw [Option.filter_some, if_pos (by simp [hzero])]
        obtain ⟨⟨s, v⟩, he⟩ := List.exists_mem_of_ne_nil _ (mt hh.entries_eq_nil_iff.mp hzero)
        exact ⟨hk, hh, s, v, hh.mem_entries.mp he⟩

theorem WellFormed.entries_trim (h : a.WellFormed base) : a.trim.entries = a.entries := by
  rw [OffsetArray.entries, OffsetArray.entries, OffsetArray.trim]
  cases ho : a.overflow with
  | none => rfl
  | some m =>
      by_cases hzero : m.count = 0
      · rw [Option.filter_some, if_neg (by simp [hzero])]
        exact ((h.map m ho).2.entries_eq_nil_iff.mpr hzero).symm
      · rw [Option.filter_some, if_pos (by simp [hzero])]

/-- A rise drops an overflow map without entries, since it asks for nothing but the entries. -/
theorem WellFormed.rise_trim (h : a.WellFormed base) : a.trim.rise base = a.rise base := by
  rw [OffsetArray.rise, OffsetArray.rise, h.entries_trim]
  rfl

/-! ### Banks -/

/-- An array that holds a bank shows its values. -/
theorem Holds.shows (h : a.Holds base b) : a.Shows base b.get (b.exceptions base) where
  lgK_le := h.lgK_eq ▸ p.lg_le_slotBits
  length := h.lgK_eq ▸ h.length_nibbles
  keeps := h.keeps
  shown s hs := by
    rw [h.lgK_eq] at hs
    exact ⟨h.base_le_get hs, h.getElem?_nibbles hs, rfl⟩

/-- **An array that shows the values of a bank** holds it, but for an overflow map without
entries. -/
theorem Shows.holds_trim (h : a.Shows base w f) (hk : a.lgK = p.lg)
    (hb : ∀ s < p.slots, b.get s = w s) : a.trim.Holds base b where
  lgK_eq := hk
  base_le v hv := by
    obtain ⟨s, hs, rfl⟩ := Bank.mem_values.mp hv
    rw [hb s hs]
    exact (h.shown s (hk ▸ hs)).base_le
  nibbles := by
    refine List.ext_getElem? fun s => ?_
    rw [List.getElem?_map, b.getElem?_toList_values]
    split
    · rename_i hs
      rw [Option.map_some, hb s hs]
      exact (h.shown s (hk ▸ hs)).nibble
    · rename_i hs
      exact List.getElem?_eq_none ((h.length.trans (by rw [hk]; rfl)).trans_le (not_lt.mp hs))
  overflow := by
    have hf : f = b.exceptions base := by
      funext s
      by_cases hs : s < p.slots
      · rw [(h.shown s (hk ▸ hs)).entry, Bank.exceptions, hb s hs]
      · rw [Bank.exceptions_eq_none.mpr (by rw [b.get_of_not_lt hs, Nat.zero_sub]; decide)]
        refine Option.eq_none_iff_forall_ne_some.mpr fun v hv => hs ?_
        exact (h.keeps.lt_and_le hv).1.trans_eq (by rw [hk]; rfl)
    rw [← hf, ← hk]
    exact h.keeps.trim

/-! ### A rise -/

/-- **The base rises by one** when every value that is shown is above it. -/
theorem Shows.rise (h : a.Shows base w f) (hk : minLgK ≤ a.lgK ∧ a.lgK ≤ maxLgK)
    (hw : ∀ s < 2 ^ a.lgK, base < w s ∧ w s ≤ maxRegister) :
    ∃ a' f', a.rise base =
        .ok (a', ((Finset.range (2 ^ a.lgK)).filter fun s => w s = base + 1).card) ∧
      a'.lgK = a.lgK ∧ a'.Shows (base + 1) w f' ∧ Overflows a'.lgK f' a'.overflow := by
  let p : Precision := ⟨a.lgK, hk.1, hk.2⟩
  let b : Bank p := .ofFn p w fun s hs => (hw s hs).2
  have hb : ∀ s < p.slots, b.get s = w s := fun s hs => Bank.get_ofFn _ hs
  have hno : ∀ v ∈ b.values, base < v := by
    intro v hv
    obtain ⟨s, hs, rfl⟩ := Bank.mem_values.mp hv
    rw [hb s hs]
    exact (hw s hs).1
  obtain ⟨a', hrise, hhold⟩ := (h.holds_trim rfl hb).rise hno
  have hk' : a'.lgK = a.lgK := hhold.lgK_eq
  have hcount : b.values.count (base + 1) =
      ((Finset.range (2 ^ a.lgK)).filter fun s => w s = base + 1).card := by
    rw [b.count_values]
    refine congrArg Finset.card (Finset.filter_congr fun s hs => ?_)
    rw [hb s (Finset.mem_range.mp hs)]
  refine ⟨a', b.exceptions (base + 1), ?_, hk', ?_, by rw [hk']; exact hhold.overflow⟩
  · rw [← h.wellFormed.rise_trim, hrise, hcount]
  · obtain ⟨hle, hlen, hkeeps, hshown⟩ := hhold.shows
    refine ⟨hle, hlen, hkeeps, fun s hs => ?_⟩
    rw [← hb s (hs.trans_eq (by rw [hk']; rfl))]
    exact hshown s hs

/-- The same values on the next base have those of the entries that do not fit a nibble there. -/
theorem Shows.perm_entries {f' : Nat → Option Nat} (h : a.Shows base w f)
    (h' : a'.Shows (base + 1) w f') (hk : a'.lgK = a.lgK) :
    a'.entries.Perm (a.entries.filter fun e => base + 1 + marker ≤ e.2) := by
  have hnd := h.keeps.nodup_entries.of_map.filter fun e => base + 1 + marker ≤ e.2
  refine (List.perm_ext_iff_of_nodup h'.keeps.nodup_entries.of_map hnd).mpr fun ⟨s, v⟩ => ?_
  rw [List.mem_filter, h'.mem_entries, h.mem_entries, hk, decide_eq_true_eq]
  constructor
  · rintro ⟨hs, hle, rfl⟩
    exact ⟨⟨hs, by omega, rfl⟩, hle⟩
  · rintro ⟨⟨hs, -, rfl⟩, hle⟩
    exact ⟨hs, hle, rfl⟩

/-- What a rise leaves of a well-formed array, and the number of registers it finds on the next
base. -/
structure Rises (a : OffsetArray) (base : Nat) (a' : OffsetArray) (count : Nat) : Prop where
  lgK_eq : a'.lgK = a.lgK
  wellFormed : a'.WellFormed (base + 1)
  /-- No register changes. -/
  get_eq : ∀ s < 2 ^ a.lgK, ∃ v, a.get base s = .ok v ∧ a'.get (base + 1) s = .ok v
  count_eq : count =
    ((Finset.range (2 ^ a.lgK)).filter fun s => a.get base s = .ok (base + 1)).card
  /-- The entries that stay are those that do not fit a nibble on the next base. -/
  entries_perm : a'.entries.Perm (a.entries.filter fun e => base + 1 + marker ≤ e.2)
  nodup_entries : (a'.entries.map Prod.fst).Nodup
  absent_iff : a'.overflow = none ↔ ∀ e ∈ a.entries, e.2 < base + 1 + marker
  /-- Settling goes on from the next base and its count. -/
  settle_eq : a.settle ⟨base, 0⟩ = a'.settle ⟨base + 1, count⟩

/-- **A well-formed array rises.**  If every register is a register value and none is on the base,
the base rises by one: no register changes, the array is well-formed on the next base, the count is
that of the registers on it, and the overflow map has the entries that still do not fit, each once,
and is absent if there are none. -/
theorem WellFormed.rise_spec (h : a.WellFormed base) (hk : minLgK ≤ a.lgK ∧ a.lgK ≤ maxLgK)
    (hget : ∀ s < 2 ^ a.lgK, ∃ v ≤ maxRegister, v ≠ base ∧ a.get base s = .ok v) :
    ∃ a' count, a.rise base = .ok (a', count) ∧ Rises a base a' count := by
  obtain ⟨w, f, hw⟩ := h.exists_shows
  have hbase : base ≤ maxRegister := by
    obtain ⟨v, hv, -, h₀⟩ := hget 0 (Nat.two_pow_pos _)
    exact (hw.base_le_of_get (Nat.two_pow_pos _) h₀).trans hv
  have hread : ∀ s < 2 ^ a.lgK, a.get base s = .ok (w s) := fun s hs => hw.get hbase hs
  have hval : ∀ s < 2 ^ a.lgK, base < w s ∧ w s ≤ maxRegister := by
    intro s hs
    obtain ⟨v, hv, hne, hs'⟩ := hget s hs
    obtain rfl := Except.ok.inj ((hread s hs).symm.trans hs')
    exact ⟨Nat.lt_of_le_of_ne (hw.shown s hs).base_le hne.symm, hv⟩
  have hnext : base + 1 ≤ maxRegister := by
    obtain ⟨hlt, hle⟩ := hval 0 (Nat.two_pow_pos _)
    exact hlt.trans_le hle
  obtain ⟨a', f', hrise, hk', hw', hov⟩ := hw.rise hk hval
  have hperm := hw.perm_entries hw' hk'
  refine ⟨a', _, hrise, hk', hw'.wellFormed, ?get, ?count, hperm, hw'.keeps.nodup_entries, ?absent,
    ?settle⟩
  case get => exact fun s hs => ⟨w s, hread s hs, hw'.get hnext (hk' ▸ hs)⟩
  case count =>
    refine congrArg Finset.card (Finset.filter_congr fun s hs => ?_)
    rw [hread s (Finset.mem_range.mp hs), Except.ok.injEq]
  case absent =>
    rw [hov.eq_none_iff, ← List.length_eq_zero_iff, hperm.length_eq, List.length_eq_zero_iff,
      List.filter_eq_nil_iff]
    simp only [decide_eq_true_eq, not_le]
  case settle =>
    have h255 : ¬ 255 ≤ base := by
      have hmax : maxRegister = 63 := rfl
      omega
    conv_lhs => rw [OffsetArray.settle]
    simp only [ne_eq, not_true_eq_false, if_false, h255, hrise]

/-- The 15 comes back to its nibble, beside the 40, and twelve registers are on the next base. -/
theorem rise_spec_threeExceptions :
    ∃ a', threeExceptions.rise 0 = .ok (a', 12) ∧ Rises threeExceptions 0 a' 12 := by
  obtain ⟨a', count, hrise, h⟩ :=
    wellFormed_threeExceptions.rise_spec (by decide) (by decide +kernel)
  obtain rfl : count = 12 := h.count_eq.trans (by decide +kernel)
  exact ⟨a', hrise, h⟩

/-- An overflow map without entries does not outlast a rise. -/
example : (rise ⟨4, ⟨.replicate 8 0x11⟩, some (.empty 4)⟩ 0).map
    (fun r => (r.1.overflow.isNone, r.2)) = .ok (true, 16) := by
  decide +kernel

end OffsetArray

end HyperLogLog
