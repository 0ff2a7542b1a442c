import HyperLogLog.Proofs.OverflowMap.Refinement
import HyperLogLog.Proofs.Registers.OffsetArray
import HyperLogLog.Registers.Basic

/-!
# Registers as offsets — every well-formed array

An offset array is *well-formed* on a base when the slots marked in its nibbles are the slots of its
overflow map, and every value in the map is one whose offset does not fit (`WellFormed`).  That
leaves room for arrays that hold no bank: a register may be above 63, as long as its offset fits,
and the overflow map may be there without entries.  Such an array *shows* a value at each slot
(`Shows`), and reading and writing act on these values.

* `Shows.get`, `Shows.put`: a read answers what is shown, and a write changes what is shown at its
  slot.
* `WellFormed.put_spec`: a write is refused where it would take a value out of the overflow map, and
  otherwise changes the one register.
-/

namespace HyperLogLog.OffsetArray

variable {a a' : OffsetArray} {base slot value s v lgK : Nat} {f : Nat → Option Nat}
  {o : Option OverflowMap} {w : Nat → Nat}

/-! ### Entries -/

/-- The value of the register is in the overflow map. -/
def Excepts (a : OffsetArray) (slot : Nat) : Prop := slot ∈ a.entries.map Prod.fst

instance (a : OffsetArray) : DecidablePred a.Excepts := fun slot =>
  inferInstanceAs (Decidable (slot ∈ a.entries.map Prod.fst))

/-- The marked slots are those of the overflow map, whose values have offsets of 15 or more.  The
map is as writes leave it, whatever they were. -/
structure WellFormed (a : OffsetArray) (base : Nat) : Prop where
  lgK_le : a.lgK ≤ Coupon.slotBits
  size_bytes : 2 * a.nibbles.bytes.size = 2 ^ a.lgK
  map : ∀ m, a.overflow = some m → m.lgK = a.lgK ∧ m.WellFormed
  marked_iff : ∀ slot < 2 ^ a.lgK, a.nibbles.get slot = .ok marker ↔ a.Excepts slot
  entry_le : ∀ e ∈ a.entries, base + marker ≤ e.2

theorem Keeps.excepts_iff (h : Keeps a.lgK f a.overflow) : a.Excepts slot ↔ f slot ≠ none := by
  simp only [Excepts, List.mem_map, Prod.exists, exists_and_right, exists_eq_right, h.mem_entries,
    Option.ne_none_iff_exists']

/-- The overflow map is absent exactly when there are no entries. -/
theorem Overflows.eq_none_iff (h : Overflows a.lgK f a.overflow) :
    a.overflow = none ↔ a.entries = [] := by
  have hmem : ∀ s v, (s, v) ∈ a.entries ↔ f s = some v := fun _ _ => h.keeps.mem_entries
  rw [entries] at hmem ⊢
  cases ho : a.overflow with
  | none => exact iff_of_true rfl rfl
  | some m =>
      rw [ho] at h hmem
      obtain ⟨-, -, s, v, hf⟩ := h
      exact iff_of_false (Option.some_ne_none m) (List.ne_nil_of_mem ((hmem s v).mpr hf))

/-- The number of entries is the number of slots that have one. -/
theorem Keeps.count_eq_card (h : Keeps a.lgK f a.overflow) :
    (Registers.offsets a).overflowCount =
      ((Finset.range (2 ^ a.lgK)).filter fun s => (f s).isSome).card := by
  rw [Registers.overflowCount, Registers.overflow?]
  cases ho : a.overflow with
  | none =>
      rw [ho] at h
      simp only [h _, Option.isSome_none, Bool.false_eq_true, Finset.filter_false,
        Finset.card_empty, Option.map_none, Option.getD_none]
  | some m =>
      rw [ho] at h
      obtain ⟨hk, hh⟩ := h
      rw [← hk]
      exact hh.count_eq_card

/-! ### The values an array shows -/

/-- On the base the array has the nibble and the entry of the value at the slot. -/
structure ShowsAt (a : OffsetArray) (base : Nat) (f : Nat → Option Nat) (slot value : Nat) :
    Prop where
  base_le : base ≤ value
  nibble : a.nibbles.toList[slot]? = some (nibbleOf base value)
  entry : f slot = exceptionOf base value

/-- On the base the array has the nibbles and the entries of the values `w`. -/
structure Shows (a : OffsetArray) (base : Nat) (w : Nat → Nat) (f : Nat → Option Nat) : Prop where
  lgK_le : a.lgK ≤ Coupon.slotBits
  length : a.nibbles.toList.length = 2 ^ a.lgK
  keeps : Keeps a.lgK f a.overflow
  shown : ∀ s < 2 ^ a.lgK, a.ShowsAt base f s (w s)

theorem ShowsAt.excepts_iff (h : a.ShowsAt base f slot v) :
    nibbleOf base v = marker ↔ f slot ≠ none := by
  rw [h.entry]
  exact nibbleOf_eq_marker_iff_exceptionOf

/-- The overflow map of a well-formed array holds some function. -/
theorem WellFormed.exists_keeps (h : a.WellFormed base) : ∃ f, Keeps a.lgK f a.overflow := by
  cases ho : a.overflow with
  | none => exact ⟨fun _ => none, fun _ => rfl⟩
  | some m =>
      obtain ⟨hk, hm⟩ := h.map m ho
      obtain ⟨f, hf⟩ := hm.exists_holds
      exact ⟨f, hk, hf⟩

theorem WellFormed.length_nibbles (h : a.WellFormed base) :
    a.nibbles.toList.length = 2 ^ a.lgK :=
  a.nibbles.length_toList.trans h.size_bytes

/-- A slot shows the value of its entry if it has one, and else that of its nibble. -/
theorem WellFormed.exists_showsAt (h : a.WellFormed base) (hf : Keeps a.lgK f a.overflow)
    (hs : slot < 2 ^ a.lgK) : ∃ v, a.ShowsAt base f slot v := by
  obtain ⟨n, hn⟩ : ∃ n, a.nibbles.toList[slot]? = some n :=
    ⟨_, List.getElem?_eq_getElem (h.length_nibbles ▸ hs)⟩
  have hmark : n = marker ↔ f slot ≠ none := by
    rw [← hf.excepts_iff, ← h.marked_iff slot hs, Nibbles.get_eq_ok hn, Except.ok.injEq]
  cases he : f slot with
  | none =>
      have hne : n ≠ marker := fun e => hmark.mp e he
      have hlt : n < marker :=
        Nat.lt_of_le_of_ne (Nat.le_of_lt_succ (Nibbles.lt_of_getElem?_toList hn)) hne
      refine ⟨base + n, Nat.le_add_right _ _, ?_, ?_⟩
      · rw [hn, nibbleOf, Nat.add_sub_cancel_left, min_eq_left hlt.le]
      · rw [he, eq_comm, exceptionOf_eq_none, Nat.add_sub_cancel_left]
        exact hlt
  | some v =>
      have hv : base + marker ≤ v := h.entry_le _ (hf.mem_entries.mpr he)
      have hbig : marker ≤ v - base := Nat.le_sub_of_add_le' hv
      have hn' : n = marker := hmark.mpr (he ▸ Option.some_ne_none v)
      refine ⟨v, (Nat.le_add_right _ _).trans hv, ?_, ?_⟩
      · rw [hn, hn', nibbleOf_eq_marker_iff.mpr hbig]
      · rw [he, eq_comm, exceptionOf_eq_some]
        exact ⟨hbig, rfl⟩

/-- **A well-formed array shows values.** -/
theorem WellFormed.exists_shows (h : a.WellFormed base) : ∃ w f, a.Shows base w f := by
  obtain ⟨f, hf⟩ := h.exists_keeps
  have hat : ∀ s, ∃ v, s < 2 ^ a.lgK → a.ShowsAt base f s v := fun s => by
    by_cases hs : s < 2 ^ a.lgK
    · obtain ⟨v, hv⟩ := h.exists_showsAt hf hs
      exact ⟨v, fun _ => hv⟩
    · exact ⟨0, fun hlt => absurd hlt hs⟩
  choose w hw using hat
  exact ⟨w, f, h.lgK_le, h.length_nibbles, hf, hw⟩

/-- A value that does not fit a nibble is an entry, and so a register value. -/
theorem Shows.le_maxRegister (h : a.Shows base w f) (hs : s < 2 ^ a.lgK)
    (hbig : marker ≤ w s - base) : w s ≤ maxRegister := by
  have hf : f s = some (w s) := (h.shown s hs).entry.trans (exceptionOf_eq_some.mpr ⟨hbig, rfl⟩)
  exact (h.keeps.lt_and_le hf).2

theorem Shows.get_of_lt (h : a.Shows base w f) (hs : s < 2 ^ a.lgK) (hlt : w s < 256) :
    a.get base s = .ok (w s) := by
  obtain ⟨hle, hn, hf⟩ := h.shown s hs
  exact get_done h.keeps (Nibbles.get_eq_ok hn) hf hle hlt

/-- The entries are the values that do not fit a nibble. -/
theorem Shows.mem_entries (h : a.Shows base w f) :
    (s, v) ∈ a.entries ↔ s < 2 ^ a.lgK ∧ base + marker ≤ v ∧ w s = v := by
  rw [h.keeps.mem_entries]
  constructor
  · intro hf
    have hs := (h.keeps.lt_and_le hf).1
    rw [(h.shown s hs).entry] at hf
    obtain ⟨hbig, rfl⟩ := exceptionOf_eq_some.mp hf
    exact ⟨hs, (Nat.le_sub_iff_add_le' (h.shown s hs).base_le).mp hbig, rfl⟩
  · rintro ⟨hs, hle, rfl⟩
    rw [(h.shown s hs).entry]
    exact exceptionOf_eq_some.mpr ⟨Nat.le_sub_of_add_le' hle, rfl⟩

/-- An array that shows values is well-formed. -/
theorem Shows.wellFormed (h : a.Shows base w f) : a.WellFormed base where
  lgK_le := h.lgK_le
  size_bytes := a.nibbles.length_toList.symm.trans h.length
  map m hm := by
    obtain ⟨hk, hh⟩ : Keeps a.lgK f (some m) := hm ▸ h.keeps
    exact ⟨hk, hh.toWellFormed⟩
  marked_iff s hs := by
    rw [Nibbles.get_eq_ok (h.shown s hs).nibble, Except.ok.injEq, h.keeps.excepts_iff]
    exact (h.shown s hs).excepts_iff
  entry_le := fun ⟨_, _⟩ he => (h.mem_entries.mp he).2.1

/-- **Reading** answers the value that is shown. -/
theorem Shows.get (h : a.Shows base w f) (hb : base ≤ maxRegister) (hs : s < 2 ^ a.lgK) :
    a.get base s = .ok (w s) := by
  refine h.get_of_lt hs ?_
  have hmax : maxRegister = 63 := rfl
  by_cases hbig : marker ≤ w s - base
  · have hle := h.le_maxRegister hs hbig
    omega
  · have hmark : marker = 15 := rfl
    omega

/-- A register that can be read is not below the base. -/
theorem Shows.base_le_of_get (h : a.Shows base w f) (hs : s < 2 ^ a.lgK)
    (hget : a.get base s = .ok v) : base ≤ v := by
  obtain ⟨hle, hn, -⟩ := h.shown s hs
  by_cases hbig : marker ≤ w s - base
  · rw [h.get_of_lt hs ((h.le_maxRegister hs hbig).trans_lt (by decide))] at hget
    exact Except.ok.inj hget ▸ hle
  · have hfit : nibbleOf base (w s) = w s - base := min_eq_left (not_le.mp hbig).le
    rw [OffsetArray.get, Nibbles.get_eq_ok hn, hfit] at hget
    simp only [not_le.mp hbig, if_true] at hget
    split at hget
    · exact Except.ok.inj hget ▸ Nat.le_add_right _ _
    · cases hget

/-! ### Writing -/

/-- **A write**, unless it would take a value out of the overflow map. -/
theorem Shows.put (h : a.Shows base w f) (hs : slot < 2 ^ a.lgK) (hb : base < value)
    (hv : value ≤ maxRegister) (hok : f slot ≠ none → marker ≤ value - base) :
    ∃ a', a.put base slot value = .done a' ∧ a'.lgK = a.lgK ∧
      a'.Shows base (Function.update w slot value)
        (Function.update f slot (exceptionOf base value)) := by
  have hat := h.shown slot hs
  obtain ⟨a', ha', hw⟩ := put_done h.keeps h.lgK_le h.length hs hb hv hat.nibble hat.excepts_iff
    fun hn => hok (hat.excepts_iff.mp hn)
  have hk := hw.lgK_eq
  have hlist : a'.nibbles.toList = a.nibbles.toList.set slot (nibbleOf base value) := by
    rw [hw.nibbles, Nibbles.toList_set, nibbleOf_mod]
  refine ⟨a', ha', hk, by rw [hk]; exact h.lgK_le, ?_, by rw [hk]; exact hw.keeps, ?_⟩
  · rw [hlist, List.length_set, hk, h.length]
  · intro s hs'
    rw [hk] at hs'
    by_cases he : s = slot
    · subst he
      rw [Function.update_self]
      refine ⟨hb.le, ?_, Function.update_self ..⟩
      rw [hlist, List.getElem?_set_self (h.length ▸ hs')]
    · obtain ⟨hle, hn, hf⟩ := h.shown s hs'
      rw [Function.update_of_ne he]
      refine ⟨hle, ?_, (Function.update_of_ne he ..).trans hf⟩
      rw [hlist, List.getElem?_set_ne (Ne.symm he), hn]

/-- The number of slots with an entry after a write. -/
theorem card_update {n : Nat} (hs : slot < n) (hok : f slot ≠ none → marker ≤ value - base) :
    ((Finset.range n).filter fun s =>
        (Function.update f slot (exceptionOf base value) s).isSome).card =
      ((Finset.range n).filter fun s => (f s).isSome).card +
        if f slot = none ∧ marker ≤ value - base then 1 else 0 := by
  split
  · rename_i h
    obtain ⟨hf, hbig⟩ := h
    have hnew : ((Finset.range n).filter fun s =>
        (Function.update f slot (exceptionOf base value) s).isSome) =
        insert slot ((Finset.range n).filter fun s => (f s).isSome) := by
      ext s
      by_cases he : s = slot
      · simp [he, hs, exceptionOf, hbig]
      · simp [he]
    rw [hnew, Finset.card_insert_of_notMem (by simp [hf])]
  · rename_i h
    refine congrArg Finset.card (Finset.filter_congr fun s _ => ?_)
    by_cases he : s = slot
    · subst he
      rw [Function.update_self, ← Option.ne_none_iff_isSome, ← Option.ne_none_iff_isSome, ne_eq,
        exceptionOf_eq_none, not_lt]
      exact ⟨fun hbig hf => h ⟨hf, hbig⟩, hok⟩
    · rw [Function.update_of_ne he]

/-- What a write leaves of a well-formed array. -/
structure Puts (a : OffsetArray) (base slot value : Nat) (a' : OffsetArray) : Prop where
  lgK_eq : a'.lgK = a.lgK
  wellFormed : a'.WellFormed base
  get_self : a'.get base slot = .ok value
  /-- Every other register is as it was. -/
  get_other : ∀ s < 2 ^ a.lgK, s ≠ slot → ∃ v, a.get base s = .ok v ∧ a'.get base s = .ok v
  /-- An entry is added exactly for a slot that has none and a value that does not fit. -/
  count_eq : (Registers.offsets a').overflowCount = (Registers.offsets a).overflowCount +
    if ¬ a.Excepts slot ∧ marker ≤ value - base then 1 else 0

/-- **Writing a well-formed array.**  A value above the base that fits a nibble is refused at a slot
of the overflow map, and the array is as it was.  Every other write is done, whether the value is
above the old one or not: it changes the register of its slot and no other, and the array it leaves
is well-formed. -/
theorem WellFormed.put_spec (h : a.WellFormed base) (hs : slot < 2 ^ a.lgK) (hb : base < value)
    (hv : value ≤ maxRegister) :
    (a.Excepts slot ∧ value - base < marker →
      a.put base slot value = .faulted .exceptionReturns a) ∧
    (¬ (a.Excepts slot ∧ value - base < marker) →
      ∃ a', a.put base slot value = .done a' ∧ Puts a base slot value a') := by
  have hbase : base ≤ maxRegister := hb.le.trans hv
  constructor
  · rintro ⟨he, hlt⟩
    rw [OffsetArray.put, if_neg hb.not_ge, (h.marked_iff slot hs).mpr he]
    simp only [ne_eq, not_true_eq_false, if_false, hlt, if_true]
  · intro hok
    obtain ⟨w, f, hw⟩ := h.exists_shows
    have hbig : f slot ≠ none → marker ≤ value - base := fun hf =>
      not_lt.mp fun hlt => hok ⟨hw.keeps.excepts_iff.mpr hf, hlt⟩
    obtain ⟨a', ha', hk, hw'⟩ := hw.put hs hb hv hbig
    have hget : ∀ s < 2 ^ a.lgK, a'.get base s = .ok (Function.update w slot value s) :=
      fun s hs' => hw'.get hbase (hk ▸ hs')
    refine ⟨a', ha', hk, hw'.wellFormed, ?self, ?other, ?count⟩
    case self => rw [hget slot hs, Function.update_self]
    case other =>
      intro s hs' hne
      refine ⟨w s, hw.get hbase hs', ?_⟩
      rw [hget s hs', Function.update_of_ne hne]
    case count =>
      rw [hw'.keeps.count_eq_card, hk, card_update hs hbig, hw.keeps.count_eq_card]
      simp only [hw.keeps.excepts_iff, not_not]

/-- Sixteen registers on base 0: 15 and 40 in one byte and 17 in the next are in the overflow map,
and the others are 1, but for a 2 at slot 0. -/
def threeExceptions : OffsetArray where
  lgK := 4
  nibbles := ⟨#[0x12, 0xff, 0xf1, 0x11, 0x11, 0x11, 0x11, 0x11]⟩
  overflow := some ((OverflowMap.empty 4).after [.insert 3 40, .insert 5 17, .insert 2 15])

theorem wellFormed_threeExceptions : threeExceptions.WellFormed 0 where
  lgK_le := by decide
  size_bytes := rfl
  map := by
    rintro m hm
    obtain rfl := Option.some.inj hm
    have hempty := OverflowMap.holds_empty (by decide : 4 ≤ Coupon.slotBits)
    exact ⟨OverflowMap.lgK_after hempty (by decide), (hempty.after (by decide)).toWellFormed⟩
  marked_iff := by decide +kernel
  entry_le := by decide +kernel

/-- At the slot of the 40 a value of 14 is refused, and one of 16 is stored although it is smaller;
at its neighbour in the byte before, a value of 63 is a new entry. -/
theorem put_spec_threeExceptions :
    threeExceptions.put 0 3 14 = .faulted .exceptionReturns threeExceptions ∧
    (∃ a', threeExceptions.put 0 3 16 = .done a' ∧ Puts threeExceptions 0 3 16 a') ∧
    ∃ a', threeExceptions.put 0 1 63 = .done a' ∧ Puts threeExceptions 0 1 63 a' :=
  ⟨(wellFormed_threeExceptions.put_spec (by decide) (by decide) (by decide)).1 (by decide +kernel),
    (wellFormed_threeExceptions.put_spec (by decide) (by decide) (by decide)).2 (by decide +kernel),
    (wellFormed_threeExceptions.put_spec (by decide) (by decide) (by decide)).2 (by decide +kernel)⟩

end HyperLogLog.OffsetArray
