import HyperLogLog.Registers.OffsetArray
import HyperLogLog.Proofs.OverflowMap.Equality
import HyperLogLog.Proofs.Registers.Bank
import HyperLogLog.Proofs.Registers.Nibbles

/-!
# Registers as offsets — the representation

An offset array *holds* a bank on a base when no value is below the base, the nibble of each value
is its offset or the marker (`nibbleOf`), and the overflow map holds exactly the values whose
offset does not fit (`Bank.exceptions`), with no map when there is none (`Overflows`).  Reading and
writing one register ask for less, a map that may be there without entries (`Keeps`).

* `Holds.get`, `Holds.put`: reading answers the bank, and a raise is a raise of the bank.
* `Holds.rise`: when no register is on the base, the base rises by one and the bank stays.  The
  lowered nibbles are right but for the entries that come down to offset 14, and storing the entries
  again puts those right (`Holds.rebuilt`).
* `Holds.settle`: any number of rises, up to the minimum of the bank.
* `ofValues_done`: the array built from given values holds them on their minimum.
* `Holds.beq_iff`: two arrays on one base are equal exactly when they hold one bank.

Both `rise` and `ofValues` write a list of slots and values into an array without an overflow map;
`storeAll_done` says what that leaves.
-/

namespace HyperLogLog

variable {p : Precision} {b : Bank p} {base slot value : Nat}

/-- A coupon has room for the slots of every precision. -/
theorem Precision.lg_le_slotBits (p : Precision) : p.lg ≤ Coupon.slotBits :=
  p.le_maxLgK.trans (by decide)

/-! ### Nibbles and exceptions of values -/

/-- The nibble of a value: its offset, or the marker if that does not fit. -/
def nibbleOf (base value : Nat) : Nat := min (value - base) marker

/-- The overflow entry of a value, if its offset does not fit a nibble. -/
def exceptionOf (base value : Nat) : Option Nat :=
  if marker ≤ value - base then some value else none

theorem nibbleOf_mod (base value : Nat) : nibbleOf base value % 16 = nibbleOf base value :=
  Nat.mod_eq_of_lt (by simp only [nibbleOf, marker]; omega)

theorem nibbleOf_eq_marker_iff : nibbleOf base value = marker ↔ marker ≤ value - base :=
  min_eq_right_iff

theorem exceptionOf_eq_some {v : Nat} :
    exceptionOf base value = some v ↔ marker ≤ value - base ∧ value = v := by
  rw [exceptionOf]
  split
  · rename_i h
    simp only [h, true_and, Option.some.injEq]
  · rename_i h
    simp only [h, false_and, reduceCtorEq]

theorem exceptionOf_eq_none : exceptionOf base value = none ↔ value - base < marker := by
  rw [exceptionOf]
  split
  · rename_i h
    simp only [reduceCtorEq, false_iff, not_lt, h]
  · rename_i h
    simp only [not_le.mp h]

/-- A nibble is the marker where the value has an entry. -/
theorem nibbleOf_eq_marker_iff_exceptionOf :
    nibbleOf base value = marker ↔ exceptionOf base value ≠ none := by
  rw [nibbleOf_eq_marker_iff, ne_eq, exceptionOf_eq_none, not_lt]

/-- A value is told by its nibble and its entry. -/
theorem eq_of_nibbleOf {v : Nat} (hb : base ≤ value) (hb' : base ≤ v)
    (hn : nibbleOf base value = nibbleOf base v)
    (he : exceptionOf base value = exceptionOf base v) : value = v := by
  by_cases hbig : marker ≤ value - base
  · have hsome : exceptionOf base v = some value := he ▸ exceptionOf_eq_some.mpr ⟨hbig, rfl⟩
    exact (exceptionOf_eq_some.mp hsome).2.symm
  · have hnone : exceptionOf base v = none := he ▸ exceptionOf_eq_none.mpr (not_le.mp hbig)
    have hlt := exceptionOf_eq_none.mp hnone
    rw [nibbleOf, nibbleOf, min_eq_left (not_le.mp hbig).le, min_eq_left hlt.le] at hn
    omega

/-- Lowering the nibble of a value above the base gives its nibble on the next base, unless the
value comes back from the overflow map. -/
theorem lower_nibbleOf (h : base < value) (hne : value ≠ base + marker) :
    Nibbles.lower (nibbleOf base value) = nibbleOf (base + 1) value := by
  have h₁ : nibbleOf base value = min (value - base) 15 := rfl
  have h₂ : nibbleOf (base + 1) value = min (value - (base + 1)) 15 := rfl
  have h₃ : value ≠ base + 15 := hne
  rw [Nibbles.lower]
  split <;> omega

namespace Bank

/-- The values of a bank whose offset does not fit a nibble. -/
def exceptions (b : Bank p) (base : Nat) : Nat → Option Nat := fun s => exceptionOf base (b.get s)

theorem exceptions_eq_some {v : Nat} :
    b.exceptions base slot = some v ↔ marker ≤ b.get slot - base ∧ b.get slot = v :=
  exceptionOf_eq_some

theorem exceptions_eq_none : b.exceptions base slot = none ↔ b.get slot - base < marker :=
  exceptionOf_eq_none

/-- Only an entry at the first offset that does not fit leaves when the base rises. -/
theorem exceptions_succ (h : b.get slot ≠ base + marker) :
    b.exceptions (base + 1) slot = b.exceptions base slot := by
  have hm : marker = 15 := rfl
  rw [exceptions, exceptions, exceptionOf, exceptionOf]
  by_cases hle : marker ≤ b.get slot - base
  · rw [if_pos hle, if_pos (by omega)]
  · rw [if_neg hle, if_neg (by omega)]

theorem exceptions_set (h : value ≤ maxRegister) (hs : slot < p.slots) :
    (b.set slot value h).exceptions base =
      Function.update (b.exceptions base) slot (exceptionOf base value) := by
  funext s
  rw [exceptions, b.get_set h hs, Function.update_apply]
  split <;> rfl

end Bank

namespace OffsetArray

variable {a : OffsetArray} {lgK : Nat} {f : Nat → Option Nat} {o : Option OverflowMap}

/-! ### Overflow maps that may be absent -/

/-- The overflow map holds `f`.  Without a map, `f` is nowhere defined. -/
def Keeps (lgK : Nat) (f : Nat → Option Nat) : Option OverflowMap → Prop
  | none => ∀ s, f s = none
  | some m => m.lgK = lgK ∧ m.Holds f

/-- The overflow map holds `f`, and is absent exactly when `f` is nowhere defined. -/
def Overflows (lgK : Nat) (f : Nat → Option Nat) : Option OverflowMap → Prop
  | none => ∀ s, f s = none
  | some m => m.lgK = lgK ∧ m.Holds f ∧ ∃ s v, f s = some v

theorem Overflows.keeps (h : Overflows lgK f o) : Keeps lgK f o := by
  cases o with
  | none => exact h
  | some m => exact ⟨h.1, h.2.1⟩

theorem Keeps.insert (h : Keeps lgK f o) (hk : lgK ≤ Coupon.slotBits)
    (hs : slot < 2 ^ lgK) (h₀ : 0 < value) (hv : value ≤ maxRegister) (hf : f slot = none) :
    ∃ m, (o.getD (.empty lgK)).insert slot value = .done m ∧
      Overflows lgK (Function.update f slot (some value)) (some m) := by
  have hnew : ∃ s v, Function.update f slot (some value) s = some v :=
    ⟨slot, value, Function.update_self ..⟩
  cases o with
  | none =>
      obtain rfl : f = fun _ => none := funext h
      obtain ⟨m, hm, hlg, hh⟩ := (OverflowMap.holds_empty hk).insert hs h₀ hv hf
      exact ⟨m, hm, hlg, hh, hnew⟩
  | some m =>
      obtain ⟨rfl, hh⟩ := h
      obtain ⟨m', hm, hlg, hh'⟩ := hh.insert hs h₀ hv hf
      exact ⟨m', hm, hlg, hh', hnew⟩

theorem Keeps.mem_entries (h : Keeps a.lgK f a.overflow) :
    (slot, value) ∈ a.entries ↔ f slot = some value := by
  rw [entries]
  cases ho : a.overflow with
  | none =>
      rw [ho] at h
      exact iff_of_false List.not_mem_nil (by rw [h slot]; nofun)
  | some m =>
      rw [ho] at h
      exact h.2.mem_entries

theorem Keeps.nodup_entries (h : Keeps a.lgK f a.overflow) :
    (a.entries.map Prod.fst).Nodup := by
  rw [entries]
  cases ho : a.overflow with
  | none => exact List.nodup_nil
  | some m =>
      rw [ho] at h
      exact h.2.nodup_entries

/-- The entries are of slots in range, and of register values. -/
theorem Keeps.lt_and_le (h : Keeps lgK f o) (hf : f slot = some value) :
    slot < 2 ^ lgK ∧ value ≤ maxRegister := by
  cases o with
  | none =>
      rw [h slot] at hf
      cases hf
  | some m =>
      obtain ⟨rfl, hh⟩ := h
      exact ⟨hh.slot_lt' hf, hh.value_le hf⟩

/-- Two such maps are equal exactly when they hold one function. -/
theorem Overflows.beq_iff {f' : Nat → Option Nat} {o' : Option OverflowMap}
    (h : Overflows lgK f o) (h' : Overflows lgK f' o') : (o == o') = true ↔ f = f' := by
  match o, o', h, h' with
  | none, none, h, h' => exact iff_of_true rfl (funext fun s => (h s).trans (h' s).symm)
  | some m, some m', ⟨hk, hh, _⟩, ⟨hk', hh', _⟩ =>
      exact (hh.beq_iff hh').trans (and_iff_right (hk.trans hk'.symm))
  | none, some m', h, ⟨_, _, s, v, hs⟩ =>
      refine iff_of_false nofun ?_
      rintro rfl
      rw [h s] at hs
      cases hs
  | some m, none, ⟨_, _, s, v, hs⟩, h' =>
      refine iff_of_false nofun ?_
      rintro rfl
      rw [h' s] at hs
      cases hs

/-! ### Reading and writing -/

/-- **A value is read** from its nibble or from its entry. -/
theorem get_done (h : Keeps a.lgK f a.overflow)
    (hn : a.nibbles.get slot = .ok (nibbleOf base value)) (hf : f slot = exceptionOf base value)
    (hb : base ≤ value) (hv : value < 256) : a.get base slot = .ok value := by
  rw [OffsetArray.get, hn]
  by_cases hlt : value - base < marker
  · have hfit : nibbleOf base value = value - base := min_eq_left hlt.le
    simp only [hfit, hlt, Nat.add_sub_cancel' hb, hv, if_true]
  · have hbig : nibbleOf base value = marker := min_eq_right (not_lt.mp hlt)
    rw [exceptionOf, if_pos (not_lt.mp hlt)] at hf
    simp only [hbig, lt_irrefl, if_false]
    cases hm : a.overflow with
    | none =>
        rw [hm] at h
        rw [h slot] at hf
        cases hf
    | some m =>
        rw [hm] at h
        simp only [h.2.get slot, hf]

/-- What a write leaves: the nibble and the entry of the value at the slot, and everything else as
it was. -/
structure Written (a : OffsetArray) (base slot value : Nat) (f : Nat → Option Nat)
    (a' : OffsetArray) : Prop where
  lgK_eq : a'.lgK = a.lgK
  nibbles : a'.nibbles = a.nibbles.set slot (nibbleOf base value)
  keeps : Keeps a.lgK (Function.update f slot (exceptionOf base value)) a'.overflow
  /-- A write leaves no map without entries where there was none. -/
  overflows : Overflows a.lgK f a.overflow →
    Overflows a.lgK (Function.update f slot (exceptionOf base value)) a'.overflow

/-- **One value is stored.**  The slot has no entry yet. -/
theorem store_done (h : Keeps a.lgK f a.overflow) (hk : a.lgK ≤ Coupon.slotBits)
    (hlen : a.nibbles.toList.length = 2 ^ a.lgK) (hs : slot < 2 ^ a.lgK) (hb : base ≤ value)
    (hv : value ≤ maxRegister) (hf : f slot = none) :
    ∃ a', a.store base slot value = .done a' ∧ Written a base slot value f a' := by
  have hin : ¬ a.nibbles.bytes.size ≤ slot / 2 := by
    rw [Nibbles.length_toList] at hlen
    omega
  obtain ⟨lgK, nibbles, overflow⟩ := a
  simp only [store, not_lt.mpr hb, hin, if_false]
  by_cases hlt : value - base < marker
  · have he : Function.update f slot (exceptionOf base value) = f := by
      rw [exceptionOf, if_neg (not_le.mpr hlt), ← hf, Function.update_eq_self]
    have hn : nibbleOf base value = value - base := min_eq_left hlt.le
    refine ⟨⟨lgK, nibbles.set slot (value - base), overflow⟩, if_pos hlt, rfl, by rw [hn], ?_,
      fun hov => ?_⟩
    · rw [he]
      exact h
    · rw [he]
      exact hov
  · have hle : marker ≤ value - base := not_lt.mp hlt
    have h₀ : 0 < value := by simp only [marker] at hle; omega
    obtain ⟨m, hm, hh⟩ := h.insert hk hs h₀ hv hf
    have he : exceptionOf base value = some value := if_pos hle
    have hn : nibbleOf base value = marker := min_eq_right hle
    refine ⟨⟨lgK, nibbles.set slot marker, some m⟩, by rw [if_neg hlt, hm]; rfl, rfl, by rw [hn],
      ?_, fun _ => ?_⟩
    · rw [he]
      exact hh.keeps
    · rw [he]
      exact hh

/-- **An entry is replaced.**  The nibble of the slot is the marker before and after. -/
theorem restore_done {old : Nat} (h : Keeps a.lgK f a.overflow)
    (hn : a.nibbles.toList[slot]? = some marker) (hle : marker ≤ value - base)
    (hv : value ≤ maxRegister) (hf : f slot = some old) :
    ∃ a', a.restore slot value = .done a' ∧ Written a base slot value f a' := by
  have h₀ : 0 < value := by simp only [marker] at hle; omega
  have he : exceptionOf base value = some value := if_pos hle
  have hmark : nibbleOf base value = marker := min_eq_right hle
  obtain ⟨lgK, nibbles, overflow⟩ := a
  cases overflow with
  | none =>
      rw [h slot] at hf
      cases hf
  | some m =>
      obtain ⟨hmk, hh⟩ := h
      obtain ⟨m', hm', hmk', hh'⟩ := hh.replace h₀ hv hf
      refine ⟨⟨lgK, nibbles, some m'⟩, by rw [restore, hm', Outcome.map_done], rfl, ?_, ?_,
        fun _ => ?_⟩
      · obtain ⟨hlt, hget⟩ := List.getElem?_eq_some_iff.mp hn
        refine Nibbles.toList_inj ?_
        rw [Nibbles.toList_set, nibbleOf_mod, hmark, ← hget, List.set_getElem_self]
      · rw [he]
        exact ⟨hmk'.trans hmk, hh'⟩
      · rw [he]
        exact ⟨hmk'.trans hmk, hh', slot, value, Function.update_self ..⟩

/-- **A value above the base is written**, unless the slot has an entry and the value is to have
none. -/
theorem put_done {n : Nat} (h : Keeps a.lgK f a.overflow) (hk : a.lgK ≤ Coupon.slotBits)
    (hlen : a.nibbles.toList.length = 2 ^ a.lgK) (hs : slot < 2 ^ a.lgK) (hb : base < value)
    (hv : value ≤ maxRegister) (hn : a.nibbles.toList[slot]? = some n)
    (hmark : n = marker ↔ f slot ≠ none) (hok : n = marker → marker ≤ value - base) :
    ∃ a', a.put base slot value = .done a' ∧ Written a base slot value f a' := by
  rw [OffsetArray.put, if_neg (not_le.mpr hb), Nibbles.get_eq_ok hn]
  by_cases he : n = marker
  · obtain ⟨old, hold⟩ := Option.ne_none_iff_exists'.mp (hmark.mp he)
    obtain ⟨a', ha', hw⟩ := restore_done h (he ▸ hn) (hok he) hv hold
    refine ⟨a', ?_, hw⟩
    simp only [he, ne_eq, not_true_eq_false, if_false, not_lt.mpr (hok he), ha']
  · obtain ⟨a', ha', hw⟩ :=
      store_done h hk hlen hs hb.le hv (not_not.mp (mt hmark.mpr he))
    refine ⟨a', ?_, hw⟩
    simp only [he, ne_eq, not_false_eq_true, if_true, ha']

/-! ### Storing a list -/

/-- What storing a list of slots and values leaves: the slots of the list have the nibbles and
entries of their values, and the others have the nibbles they had and no entry. -/
structure Stored (base lgK : Nat) (nibbles : List Nat) (done : List (Nat × Nat))
    (a : OffsetArray) : Prop where
  lgK_eq : a.lgK = lgK
  overflow : ∃ f, Overflows lgK f a.overflow ∧ (∀ e ∈ done, f e.1 = exceptionOf base e.2) ∧
    ∀ s, (∀ e ∈ done, e.1 ≠ s) → f s = none
  length : a.nibbles.toList.length = nibbles.length
  nibble_done : ∀ e ∈ done, e.1 < nibbles.length →
    a.nibbles.toList[e.1]? = some (nibbleOf base e.2)
  nibble_rest : ∀ s, (∀ e ∈ done, e.1 ≠ s) → a.nibbles.toList[s]? = nibbles[s]?

/-- One more value is stored, at a slot that is not in the list yet. -/
theorem Stored.store {nibbles : List Nat} {pre : List (Nat × Nat)} {e : Nat × Nat}
    (h : Stored base lgK nibbles pre a) (hk : lgK ≤ Coupon.slotBits)
    (hsize : nibbles.length = 2 ^ lgK) (hs : e.1 < 2 ^ lgK) (hb : base ≤ e.2)
    (hv : e.2 ≤ maxRegister) (hfresh : ∀ d ∈ pre, d.1 ≠ e.1) :
    ∃ a', a.store base e.1 e.2 = .done a' ∧ Stored base lgK nibbles (pre ++ [e]) a' := by
  obtain ⟨rfl, ⟨f, hov, hdone, hrest⟩, hlen, hnib, hother⟩ := h
  obtain ⟨a', ha', hlg, hn, -, hov'⟩ :=
    store_done hov.keeps hk (hlen.trans hsize) hs hb hv (hrest e.1 hfresh)
  refine ⟨a', ha', hlg, ⟨_, hov' hov, fun d hd => ?_, fun r hr => ?_⟩, ?_, fun d hd hlt => ?_,
    fun r hr => ?_⟩
  · rcases List.mem_append.mp hd with hd | hd
    · rw [Function.update_of_ne (hfresh d hd)]
      exact hdone d hd
    · rw [List.mem_singleton.mp hd]
      exact Function.update_self ..
  · rw [Function.update_of_ne (hr e (by simp)).symm]
    exact hrest r fun d hd => hr d (List.mem_append_left _ hd)
  · rw [hn, Nibbles.toList_set, List.length_set, hlen]
  · rw [hn, Nibbles.toList_set, nibbleOf_mod]
    rcases List.mem_append.mp hd with hd | hd
    · rw [List.getElem?_set_ne (hfresh d hd).symm]
      exact hnib d hd hlt
    · rw [List.mem_singleton.mp hd] at hlt ⊢
      exact List.getElem?_set_self (hlen ▸ hlt)
  · rw [hn, Nibbles.toList_set, List.getElem?_set_ne (hr e (by simp))]
    exact hother r fun d hd => hr d (List.mem_append_left _ hd)

/-- **A list of values is stored**, into an array without an overflow map. -/
theorem storeAll_done {es : List (Nat × Nat)} (hk : a.lgK ≤ Coupon.slotBits)
    (hlen : a.nibbles.toList.length = 2 ^ a.lgK) (ho : a.overflow = none)
    (hnd : (es.map Prod.fst).Nodup)
    (hes : ∀ e ∈ es, e.1 < 2 ^ a.lgK ∧ base ≤ e.2 ∧ e.2 ≤ maxRegister) :
    ∃ a', storeAll base es a = .done a' ∧ Stored base a.lgK a.nibbles.toList es a' := by
  have h₀ : Stored base a.lgK a.nibbles.toList [] a :=
    ⟨rfl, ⟨fun _ => none, by rw [ho]; exact fun _ => rfl, by simp, by simp⟩, rfl, by simp,
      by simp⟩
  refine Outcome.forEach_done h₀ fun pre e post t he hst => ?_
  obtain ⟨hs, hb, hv⟩ := hes e (by rw [he]; simp)
  refine hst.store hk hlen hs hb hv fun d hd => ?_
  rw [he, List.map_append, List.nodup_append] at hnd
  exact hnd.2.2 d.1 (List.mem_map_of_mem hd) e.1 (by simp)

/-! ### Arrays that hold a bank -/

/-- The array holds the values of the bank on a base. -/
structure Holds (a : OffsetArray) (base : Nat) (b : Bank p) : Prop where
  lgK_eq : a.lgK = p.lg
  base_le : ∀ v ∈ b.values, base ≤ v
  nibbles : a.nibbles.toList = b.values.toList.map (nibbleOf base)
  overflow : Overflows p.lg (b.exceptions base) a.overflow

theorem Holds.base_le_get (h : a.Holds base b) (hs : slot < p.slots) : base ≤ b.get slot :=
  h.base_le _ (b.get_mem hs)

theorem Holds.length_nibbles (h : a.Holds base b) : a.nibbles.toList.length = p.slots := by
  rw [h.nibbles, List.length_map, Array.length_toList, b.size_values]

/-- Two nibbles a byte. -/
theorem Holds.size_bytes (h : a.Holds base b) : 2 * a.nibbles.bytes.size = p.slots := by
  rw [← Nibbles.length_toList, h.length_nibbles]

theorem Holds.getElem?_nibbles (h : a.Holds base b) (hs : slot < p.slots) :
    a.nibbles.toList[slot]? = some (nibbleOf base (b.get slot)) := by
  rw [h.nibbles, List.getElem?_map, Array.getElem?_toList, b.getElem?_of_lt hs, Option.map_some]

theorem Holds.nibble (h : a.Holds base b) (hs : slot < p.slots) :
    a.nibbles.get slot = .ok (nibbleOf base (b.get slot)) :=
  Nibbles.get_eq_ok (h.getElem?_nibbles hs)

theorem Holds.keeps (h : a.Holds base b) : Keeps a.lgK (b.exceptions base) a.overflow := by
  rw [h.lgK_eq]
  exact h.overflow.keeps

theorem holds_zeros (p : Precision) : (zeros p.lg).Holds 0 (Bank.zeros p) where
  lgK_eq := rfl
  base_le := fun v _ => Nat.zero_le v
  nibbles := by
    have heven : p.slots % 2 = 0 := by
      rw [p.slots_eq_mul (k := 1) (le_trans (by decide) p.minLgK_le)]
      exact Nat.mul_mod_right 2 _
    show (Nibbles.zeros p.slots).toList = _
    rw [Nibbles.toList_zeros heven, Bank.zeros, Array.toList_replicate, List.map_replicate]
    rfl
  overflow := fun s => by
    rw [Bank.exceptions_eq_none, Bank.get_zeros]
    decide

/-- **Reading.** -/
theorem Holds.get (h : a.Holds base b) (hs : slot < p.slots) :
    a.get base slot = .ok (b.get slot) :=
  get_done h.keeps (h.nibble hs) rfl (h.base_le_get hs) ((b.get_le slot).trans_lt (by decide))

/-- **A write** above the base, unless the value comes back from the overflow map. -/
theorem Holds.overwrite (h : a.Holds base b) (hs : slot < p.slots) (hv : value ≤ maxRegister)
    (hb : base < value) (hok : marker ≤ b.get slot - base → marker ≤ value - base) :
    ∃ a', a.put base slot value = .done a' ∧ a'.Holds base (b.set slot value hv) := by
  have hs' : slot < 2 ^ a.lgK := h.lgK_eq ▸ hs
  have hlen : a.nibbles.toList.length = 2 ^ a.lgK := h.lgK_eq ▸ h.length_nibbles
  have hk : a.lgK ≤ Coupon.slotBits := h.lgK_eq ▸ p.lg_le_slotBits
  obtain ⟨a', ha', hw⟩ := put_done h.keeps hk hlen hs' hb hv (h.getElem?_nibbles hs)
    nibbleOf_eq_marker_iff_exceptionOf (hok ∘ nibbleOf_eq_marker_iff.mp)
  refine ⟨a', ha', hw.lgK_eq.trans h.lgK_eq, Bank.forall_mem_set hv hs h.base_le hb.le, ?_, ?_⟩
  · rw [hw.nibbles, Nibbles.toList_set, nibbleOf_mod, h.nibbles, Bank.set,
      Array.toList_setIfInBounds, List.map_set]
  · rw [Bank.exceptions_set hv hs, ← h.lgK_eq]
    exact hw.overflows (h.lgK_eq ▸ h.overflow)

/-- **A raise.** -/
theorem Holds.put (h : a.Holds base b) (hs : slot < p.slots) (hv : value ≤ maxRegister)
    (hlt : b.get slot < value) :
    ∃ a', a.put base slot value = .done a' ∧ a'.Holds base (b.set slot value hv) :=
  h.overwrite hs hv ((h.base_le_get hs).trans_lt hlt) fun hbig =>
    hbig.trans (Nat.sub_le_sub_right hlt.le _)

/-- A write that is done is the write of the bank. -/
theorem Holds.of_put_eq_done (h : a.Holds base b) (hs : slot < p.slots) (hv : value ≤ maxRegister)
    {a' : OffsetArray} (hput : a.put base slot value = .done a') :
    a'.Holds base (b.set slot value hv) := by
  by_cases hb : base < value
  · by_cases hok : marker ≤ b.get slot - base → marker ≤ value - base
    · obtain ⟨a₁, ha₁, h₁⟩ := h.overwrite hs hv hb hok
      obtain rfl := Outcome.done.inj (ha₁.symm.trans hput)
      exact h₁
    · -- the slot is marked, and the value would fit its nibble
      obtain ⟨hbig, hfit⟩ := Classical.not_imp.mp hok
      rw [OffsetArray.put, if_neg hb.not_ge, h.nibble hs, nibbleOf_eq_marker_iff.mpr hbig] at hput
      simp only [ne_eq, not_true_eq_false, if_false, not_le.mp hfit, if_true] at hput
      cases hput
  · rw [OffsetArray.put, if_pos (not_lt.mp hb)] at hput
    cases hput

/-- An array that was stored is one that holds the bank, if the list says what the bank says and
the slots that are not in it were right already. -/
theorem Stored.holds {nibbles : List Nat} {es : List (Nat × Nat)}
    (h : Stored base p.lg nibbles es a) (hlen : nibbles.length = p.slots)
    (hbase : ∀ v ∈ b.values, base ≤ v) (hin : ∀ e ∈ es, b.get e.1 = e.2)
    (hout : ∀ s, (∀ e ∈ es, e.1 ≠ s) → b.exceptions base s = none ∧
      (s < p.slots → nibbles[s]? = some (nibbleOf base (b.get s)))) :
    a.Holds base b := by
  obtain ⟨hlg, ⟨f, hov, hdone, hrest⟩, hl, hnib, hother⟩ := h
  -- the entries are the exceptions: of the list where it has the slot, and none elsewhere
  have hf : f = b.exceptions base := by
    funext s
    by_cases hs : ∀ e ∈ es, e.1 ≠ s
    · rw [hrest s hs, (hout s hs).1]
    · push Not at hs
      obtain ⟨e, he, rfl⟩ := hs
      rw [hdone e he, Bank.exceptions, hin e he]
  refine ⟨hlg, hbase, List.ext_getElem? fun s => ?_, hf ▸ hov⟩
  rw [List.getElem?_map, b.getElem?_toList_values]
  split
  · rename_i hlt
    by_cases hs : ∀ e ∈ es, e.1 ≠ s
    · rw [hother s hs, (hout s hs).2 hlt, Option.map_some]
    · push Not at hs
      obtain ⟨e, he, rfl⟩ := hs
      rw [hnib e he (hlen ▸ hlt), hin e he, Option.map_some]
  · rename_i hlt
    exact List.getElem?_eq_none (by omega)

/-! ### Equality -/

theorem beq_iff {a' : OffsetArray} :
    (a == a') = true ↔
      a.lgK = a'.lgK ∧ a.nibbles = a'.nibbles ∧ (a.overflow == a'.overflow) = true := by
  show (a.lgK == a'.lgK && a.nibbles == a'.nibbles && a.overflow == a'.overflow) = true ↔ _
  simp only [Bool.and_eq_true, beq_iff_eq, and_assoc]

/-- **Two arrays on one base are equal** exactly when they hold one bank. -/
theorem Holds.beq_iff {a' : OffsetArray} {b' : Bank p} (h : a.Holds base b)
    (h' : a'.Holds base b') : (a == a') = true ↔ b = b' := by
  rw [OffsetArray.beq_iff]
  constructor
  · rintro ⟨-, hn, ho⟩
    have hf := (h.overflow.beq_iff h'.overflow).mp ho
    refine Bank.ext_get fun s hs => ?_
    have hs' := h.getElem?_nibbles hs
    rw [hn, h'.getElem?_nibbles hs, Option.some.injEq] at hs'
    exact eq_of_nibbleOf (h.base_le_get hs) (h'.base_le_get hs) hs'.symm (congrFun hf s)
  · rintro rfl
    have hn : a.nibbles = a'.nibbles := Nibbles.toList_inj (h.nibbles.trans h'.nibbles.symm)
    exact ⟨h.lgK_eq.trans h'.lgK_eq.symm, hn, (h.overflow.beq_iff h'.overflow).mpr rfl⟩

/-! ### Rising -/

theorem count_map_nibbleOf (h : ∀ v ∈ b.values, base ≤ v) :
    (b.values.toList.map (nibbleOf base)).count 0 = b.values.count base := by
  rw [List.count, List.countP_map, ← Array.count_toList, List.count]
  refine List.countP_congr fun v hv => ?_
  have hb := h v (Array.mem_toList_iff.mp hv)
  simp only [Function.comp, nibbleOf, marker, beq_iff_eq]
  omega

theorem count_map_lower (h : ∀ v ∈ b.values, base < v) :
    (b.values.toList.map (Nibbles.lower ∘ nibbleOf base)).count 0 = b.values.count (base + 1) := by
  rw [List.count, List.countP_map, ← Array.count_toList, List.count]
  refine List.countP_congr fun v hv => ?_
  have hb := h v (Array.mem_toList_iff.mp hv)
  have hn : nibbleOf base v = min (v - base) 15 := rfl
  simp only [Function.comp, beq_iff_eq, Nibbles.lower]
  split <;> omega

theorem Holds.toList_lowerAll (h : a.Holds base b) :
    a.nibbles.lowerAll.toList = b.values.toList.map (Nibbles.lower ∘ nibbleOf base) := by
  rw [Nibbles.toList_lowerAll, h.nibbles, List.map_map]

/-- **The entries are stored again** over the lowered nibbles.  Those are right where there is no
entry. -/
theorem Holds.rebuilt (h : a.Holds base b) (hno : ∀ v ∈ b.values, base < v) :
    ∃ a', storeAll (base + 1) a.entries ⟨a.lgK, a.nibbles.lowerAll, none⟩ = .done a' ∧
      a'.Holds (base + 1) b := by
  have hentry : ∀ e ∈ a.entries, b.exceptions base e.1 = some e.2 :=
    fun _ => h.keeps.mem_entries.mp
  have hmem : ∀ e ∈ a.entries, marker ≤ b.get e.1 - base ∧ b.get e.1 = e.2 :=
    fun e he => Bank.exceptions_eq_some.mp (hentry e he)
  -- an entry is at least 15 above the old base, so it is above the new one
  have hes : ∀ e ∈ a.entries, e.1 < 2 ^ a.lgK ∧ base + 1 ≤ e.2 ∧ e.2 ≤ maxRegister := by
    intro e he
    obtain ⟨hlt, hle⟩ := h.keeps.lt_and_le (hentry e he)
    obtain ⟨hbig, hv⟩ := hmem e he
    have hmark : marker = 15 := rfl
    exact ⟨hlt, by omega, hle⟩
  have hk : a.lgK ≤ Coupon.slotBits := h.lgK_eq ▸ p.lg_le_slotBits
  have hlen : a.nibbles.lowerAll.toList.length = p.slots := by
    rw [h.toList_lowerAll, List.length_map, Array.length_toList, b.size_values]
  obtain ⟨a', ha', hst⟩ :
      ∃ a', storeAll (base + 1) a.entries ⟨a.lgK, a.nibbles.lowerAll, none⟩ = .done a' ∧
        Stored (base + 1) a.lgK a.nibbles.lowerAll.toList a.entries a' :=
    storeAll_done hk (h.lgK_eq ▸ hlen) rfl h.keeps.nodup_entries hes
  refine ⟨a', ha', Stored.holds (h.lgK_eq ▸ hst) hlen hno (fun e he => (hmem e he).2) ?_⟩
  intro s hs
  have hnone : b.exceptions base s = none :=
    Option.eq_none_iff_forall_ne_some.mpr fun v hv => hs (s, v) (h.keeps.mem_entries.mpr hv) rfl
  have hne : b.get s ≠ base + marker := by
    have := Bank.exceptions_eq_none.mp hnone
    omega
  refine ⟨by rw [Bank.exceptions_succ hne, hnone], fun hlt => ?_⟩
  rw [h.toList_lowerAll, List.getElem?_map, Array.getElem?_toList, b.getElem?_of_lt hlt,
    Option.map_some, Function.comp, lower_nibbleOf (hno _ (b.get_mem hlt)) hne]

theorem Holds.countZeros_eq (h : a.Holds base b) :
    a.nibbles.countZeros = b.values.count base := by
  rw [Nibbles.countZeros_eq, h.nibbles, count_map_nibbleOf h.base_le]

/-- **The base rises by one** when no register is on it. -/
theorem Holds.rise (h : a.Holds base b) (hno : ∀ v ∈ b.values, base < v) :
    ∃ a', a.rise base = .ok (a', b.values.count (base + 1)) ∧ a'.Holds (base + 1) b := by
  have hzero : a.nibbles.countZeros = 0 := by
    rw [h.countZeros_eq, Array.count_eq_zero]
    exact fun hb => (hno base hb).false
  have hcount : a.nibbles.lowerAll.countZeros = b.values.count (base + 1) := by
    rw [Nibbles.countZeros_eq, h.toList_lowerAll, count_map_lower hno]
  obtain ⟨a', ha', hh'⟩ := h.rebuilt hno
  exact ⟨a', by simp only [OffsetArray.rise, hzero, hcount, lt_irrefl, if_false, ha'], hh'⟩

/-- A rise that has a result is one of a base no register is on. -/
theorem Holds.of_rise_eq_ok (h : a.Holds base b) {a' : OffsetArray} {count : Nat}
    (hrise : a.rise base = .ok (a', count)) : a'.Holds (base + 1) b := by
  have hzero : b.values.count base = 0 := by
    by_contra hne
    rw [OffsetArray.rise, if_pos (h.countZeros_eq ▸ Nat.pos_of_ne_zero hne)] at hrise
    cases hrise
  have hno : ∀ v ∈ b.values, base < v := fun v hv =>
    Nat.lt_of_le_of_ne (h.base_le v hv) fun e => Array.count_eq_zero.mp hzero (e ▸ hv)
  obtain ⟨a₁, ha₁, h₁⟩ := h.rise hno
  obtain ⟨rfl, -⟩ := Prod.ext_iff.mp (Except.ok.inj (ha₁.symm.trans hrise))
  exact h₁

/-- **The base rises to the minimum.** -/
theorem Holds.settle (h : a.Holds base b) :
    ∃ a', a.settle ⟨base, b.values.count base⟩ = .ok (a', .ofMinimum b.values) ∧
      a'.Holds (Baseline.ofMinimum b.values).value b := by
  have hmem : (Baseline.ofMinimum b.values).value ∈ b.values :=
    Baseline.ofMinimum_value_mem (b.size_values ▸ p.slots_pos)
  have hmax := b.values_le _ hmem
  -- by induction on the distance from the minimum
  induction hd : (Baseline.ofMinimum b.values).value - base generalizing a base with
  | zero =>
      have hb : base = (Baseline.ofMinimum b.values).value := by
        have := h.base_le _ hmem
        omega
      subst hb
      have hne : b.values.count (Baseline.ofMinimum b.values).value ≠ 0 :=
        (Array.count_pos_iff.mpr hmem).ne'
      exact ⟨a, by rw [OffsetArray.settle, if_pos hne]; rfl, h⟩
  | succ d ih =>
      have hno : ∀ v ∈ b.values, base < v := fun v hv => by
        have := Baseline.ofMinimum_value_le hv
        omega
      have hcount : b.values.count base = 0 :=
        Array.count_eq_zero.mpr fun hb => (hno base hb).false
      have h255 : ¬ 255 ≤ base := by
        have : maxRegister = 63 := rfl
        omega
      obtain ⟨a₁, h₁, hh₁⟩ := h.rise hno
      obtain ⟨a', h', hh'⟩ := ih hh₁ (by omega)
      refine ⟨a', ?_, hh'⟩
      rw [OffsetArray.settle, hcount]
      simp only [ne_eq, not_true_eq_false, if_false, h255, h₁, h']

/-! ### Given values -/

/-- **The array of given values** holds them on their minimum. -/
theorem ofValues_done (b : Bank p) :
    ∃ a, ofValues p.lg b.values = .ok (a, .ofMinimum b.values) ∧
      a.Holds (Baseline.ofMinimum b.values).value b := by
  have hmem : ∀ e ∈ b.values.toList.zipIdx.map Prod.swap, e.1 < p.slots ∧ b.get e.1 = e.2 :=
    fun _ => b.mem_indexed.mp
  have hnd : ((b.values.toList.zipIdx.map Prod.swap).map Prod.fst).Nodup :=
    List.pairwise_map.mpr ((pairwise_indexed b.values).imp Nat.ne_of_lt)
  have hle : ∀ v ∈ b.values, (Baseline.ofMinimum b.values).value ≤ v :=
    fun v hv => Baseline.ofMinimum_value_le hv
  have hlen : (zeros p.lg).nibbles.toList.length = p.slots := (holds_zeros p).length_nibbles
  obtain ⟨a, ha, hst⟩ :
      ∃ a, storeAll (Baseline.ofMinimum b.values).value (b.values.toList.zipIdx.map Prod.swap)
          (zeros p.lg) = .done a ∧
        Stored (Baseline.ofMinimum b.values).value p.lg (zeros p.lg).nibbles.toList
          (b.values.toList.zipIdx.map Prod.swap) a := by
    refine storeAll_done p.lg_le_slotBits hlen rfl hnd fun e he => ?_
    obtain ⟨hs, hv⟩ := hmem e he
    exact ⟨hs, hv ▸ hle _ (b.get_mem hs), hv ▸ b.get_le e.1⟩
  refine ⟨a, by simp only [ofValues, ha], hst.holds hlen hle (fun e he => (hmem e he).2) ?_⟩
  intro s hs
  have hout : ¬ s < p.slots := fun hlt => hs (s, b.get s) (b.mem_indexed.mpr ⟨hlt, rfl⟩) rfl
  refine ⟨Bank.exceptions_eq_none.mpr ?_, fun hlt => absurd hlt hout⟩
  rw [b.get_of_not_lt hout, Nat.zero_sub]
  decide

end OffsetArray

end HyperLogLog
