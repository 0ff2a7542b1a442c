import HyperLogLog.Proofs.Registers.SixBitArray

/-!
# Six-bit registers — every array that is written

The arrays that writes lead to from one whose registers are all zero (`Reachable`).  Each of them
holds a bank (`Reachable.holds`), so it is the bank that its registers tell, and nothing else of how
it was reached is left in it.

* `Holds.spare`: the registers fill the bytes before the spare one, which stays zero.
* `packing_spec`: no window leaves the array, a write changes the one register, and the values of
  the registers determine the bytes.
-/

namespace HyperLogLog.SixBitArray

variable {p : Precision} {b : Bank p} {a a' : SixBitArray} {slot value lgK : Nat}

/-- An array of `2 ^ lgK` zeros, or what a write of a register value makes of a reachable one. -/
inductive Reachable (lgK : Nat) : SixBitArray → Prop where
  | zeros : Reachable lgK (.zeros lgK)
  | put {a a' : SixBitArray} {slot value : Nat} (h : Reachable lgK a) (hs : slot < 2 ^ lgK)
      (hv : value ≤ maxRegister) (hput : a.put slot value = .done a') : Reachable lgK a'

/-- **A reachable array holds a bank.** -/
theorem Reachable.holds (hk : minLgK ≤ lgK ∧ lgK ≤ maxLgK) (h : Reachable lgK a) :
    ∃ b : Bank ⟨lgK, hk.1, hk.2⟩, a.Holds b := by
  induction h with
  | zeros => exact ⟨_, holds_zeros ⟨lgK, hk.1, hk.2⟩⟩
  | put h hs hv hput ih =>
      obtain ⟨b, hb⟩ := ih
      obtain ⟨a', ha', hb'⟩ := hb.put hs hv
      obtain rfl := Outcome.done.inj (ha'.symm.trans hput)
      exact ⟨_, hb'⟩

/-- Building an array from values takes no other step than a write. -/
theorem Reachable.forEach_putFresh {es : List (Nat × Nat)} (h : Reachable lgK a)
    (hes : ∀ e ∈ es, e.2 < 2 ^ lgK ∧ e.1 ≤ maxRegister)
    (hrun : Outcome.forEach (fun a (e : Nat × Nat) => a.putFresh e.2 e.1) es a = .done a') :
    Reachable lgK a' := by
  induction es generalizing a with
  | nil => exact Outcome.done.inj hrun ▸ h
  | cons e es ih =>
      obtain ⟨hs, hv⟩ := hes e List.mem_cons_self
      have hrest : ∀ e ∈ es, e.2 < 2 ^ lgK ∧ e.1 ≤ maxRegister :=
        fun d hd => hes d (List.mem_cons_of_mem e hd)
      rw [Outcome.forEach] at hrun
      split at hrun
      · rename_i a₁ hfresh
        rw [putFresh] at hfresh
        split at hfresh
        · exact ih (Outcome.done.inj hfresh ▸ h) hrest hrun
        · exact ih (h.put hs hv hfresh) hrest hrun
      · cases hrun

theorem reachable_ofValues {values : Array Nat} (hsize : values.size = 2 ^ lgK)
    (hle : ∀ v ∈ values, v ≤ maxRegister) (h : ofValues lgK values = .ok a) : Reachable lgK a := by
  rw [ofValues] at h
  cases hrun : Outcome.forEach (fun a (e : Nat × Nat) => a.putFresh e.2 e.1) values.toList.zipIdx
      (zeros lgK) with
  | faulted f a₁ => rw [hrun] at h; cases h
  | done a₁ =>
      rw [hrun, Outcome.toExcept_done] at h
      obtain rfl := Except.ok.inj h
      refine Reachable.zeros.forEach_putFresh ?_ hrun
      rintro ⟨v, s⟩ he
      rw [List.mem_zipIdx_iff_getElem?, Array.getElem?_toList] at he
      obtain ⟨hs, -⟩ := Array.getElem?_eq_some_iff.mp he
      exact ⟨hsize ▸ hs, hle v (Array.mem_of_getElem? he)⟩

/-- **The spare byte is zero.** -/
theorem Holds.spare (h : a.Holds b) : a.bytes.back? = some 0 := by
  have hpow : p.slots = 4 * 2 ^ (p.lg - 2) :=
    p.slots_eq_mul (k := 2) (le_trans (by decide) p.minLgK_le)
  have hbit : bitIndex p.slots = 0 := by
    rw [bitIndex]
    omega
  have hlast : a.bytes.size - 1 = byteIndex p.slots := by
    rw [h.size_eq]
    rfl
  have hlt : byteIndex p.slots < a.bytes.size := by
    rw [h.size_eq]
    exact Nat.lt_succ_self _
  -- the number has no digit at the place of the spare byte
  have hnum : a.number < 256 ^ byteIndex p.slots := by
    have hplace := pow_place p.slots
    rw [hbit, pow_zero, mul_one] at hplace
    rw [h.number_eq, hplace, ← length_values b]
    exact Nat.ofDigits_lt_base_pow_length (by decide) fun v hv => values_lt b hv
  have hl : byteIndex p.slots < a.digits.length := by rwa [length_digits]
  have hdigit := ofDigits_div_pow (by decide) (fun d hd => digits_lt hd) hl
  rw [← number, Nat.div_eq_of_lt hnum] at hdigit
  have hzero : a.bytes[byteIndex p.slots] = 0 := by
    have hd : a.digits[byteIndex p.slots] = 0 := by omega
    simp only [digits, List.getElem_map, Array.getElem_toList] at hd
    exact UInt8.toNat_inj.mp hd
  rw [Array.back?, hlast, Array.getElem?_eq_getElem hlt, hzero]

/-- What every reachable array is like. -/
structure Packs (a : SixBitArray) (lgK : Nat) : Prop where
  size_bytes : a.bytes.size = byteCount (2 ^ lgK)
  /-- Both bytes of a window are bytes of the array. -/
  window_lt : ∀ slot < 2 ^ lgK, byteIndex slot + 1 < a.bytes.size
  get : ∀ slot < 2 ^ lgK, ∃ v ≤ maxRegister, a.get slot = .ok v
  /-- A write is done and changes the one register. -/
  put : ∀ slot < 2 ^ lgK, ∀ value ≤ maxRegister, ∃ a', a.put slot value = .done a' ∧
    a'.get slot = .ok value ∧ ∀ s < 2 ^ lgK, s ≠ slot → a'.get s = a.get s
  spare : a.bytes.back? = some 0

theorem Holds.packs (h : a.Holds b) : a.Packs p.lg where
  size_bytes := h.size_eq
  window_lt _ hs := h.size_eq ▸ byteIndex_succ_lt hs
  get slot hs := ⟨b.get slot, b.get_le slot, h.get hs⟩
  put slot hs value hv := by
    obtain ⟨a', ha', h'⟩ := h.put hs hv
    refine ⟨a', ha', ?_, fun s hs' hne => ?_⟩
    · rw [h'.get hs, b.get_set hv hs, if_pos rfl]
    · rw [h'.get hs', b.get_set hv hs, if_neg hne, h.get hs']
  spare := h.spare

/-- **Six bits a register.**  Of every array that writes of register values lead to: no window
leaves it, a write changes the one register and no other, and the spare byte is zero.  The array of
given values is one of them and answers these values.  And two of them with the same values are the
same, byte for byte. -/
theorem packing_spec (hk : minLgK ≤ lgK ∧ lgK ≤ maxLgK) :
    (∀ a, Reachable lgK a → a.Packs lgK) ∧
    (∀ values : Array Nat, values.size = 2 ^ lgK → (∀ v ∈ values, v ≤ maxRegister) →
      ∃ a, ofValues lgK values = .ok a ∧ Reachable lgK a ∧
        ∀ slot (hs : slot < values.size), a.get slot = .ok values[slot]) ∧
    ∀ a a', Reachable lgK a → Reachable lgK a' →
      (∀ slot < 2 ^ lgK, a.get slot = a'.get slot) → a = a' := by
  refine ⟨fun a h => ?packs, fun values hsize hle => ?values, fun a a' h h' hsame => ?determined⟩
  case packs =>
    obtain ⟨b, hb⟩ := h.holds hk
    exact hb.packs
  case values =>
    let b : Bank ⟨lgK, hk.1, hk.2⟩ := ⟨values, hsize, hle⟩
    obtain ⟨a, ha, hb⟩ := ofValues_done b
    refine ⟨a, ha, reachable_ofValues hsize hle ha, fun slot hs => ?_⟩
    rw [hb.get (hs.trans_eq hsize), ← b.getElem_values hs]
  case determined =>
    obtain ⟨b, hb⟩ := h.holds hk
    obtain ⟨b', hb'⟩ := h'.holds hk
    obtain rfl : b = b' := Bank.ext_get fun s hs => by
      have hs' := hsame s hs
      rw [hb.get hs, hb'.get hs] at hs'
      exact Except.ok.inj hs'
    exact hb.eq hb'

/-- Sixteen registers, however they were written. -/
theorem packing_spec_sixteen :
    ∃ a, ofValues 4 #[3, 7, 11, 15, 19, 23, 27, 31, 35, 39, 43, 47, 51, 55, 59, 63] = .ok a ∧
      a.Packs 4 ∧ a.get 15 = .ok 63 ∧
      ∀ a', Reachable 4 a' → (∀ slot < 16, a'.get slot = a.get slot) → a' = a := by
  obtain ⟨hpacks, hvalues, hdet⟩ := packing_spec (by decide : minLgK ≤ 4 ∧ 4 ≤ maxLgK)
  obtain ⟨a, ha, hr, hget⟩ := hvalues
    #[3, 7, 11, 15, 19, 23, 27, 31, 35, 39, 43, 47, 51, 55, 59, 63] (by decide) (by decide)
  exact ⟨a, ha, hpacks a hr, hget 15 (by decide),
    fun a' hr' hsame => hdet a' a hr' hr hsame⟩

end HyperLogLog.SixBitArray
