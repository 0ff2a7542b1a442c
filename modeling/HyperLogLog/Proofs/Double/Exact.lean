import Mathlib

/-!
# Doubles — exact sums

The doubles `n * 2 ^ e` with `n` below `2 ^ 53`, each in the one form the model of doubles keeps it
in (`exact`): a mantissa of 53 bits, its leading bit set.  Away from the ends of the exponent range
nothing is lost on them:

* `round_exact`: rounding such a number, however it is written, gives its form.
* `unpack_pack_exact`: so do packing it into 64 bits and unpacking it.
* `dyadic_add`, `dyadic_sub`: sums and differences are exact as long as they are below `2 ^ 53`
  on the common scale.
* `value_dyadic`: the value of such a double is the number it was made of.
-/

namespace HyperLogLog.Double

open Float.Model Float.Model.UnpackedFloat

variable {n m k : Nat} {e : Int}

/-! ### Shifting and rounding -/

theorem log2_mul_two_pow (h : n ≠ 0) (k : Nat) : (n * 2 ^ k).log2 = n.log2 + k := by
  rw [Nat.log2_eq_iff (Nat.mul_ne_zero h (Nat.two_pow_pos k).ne'), Nat.add_right_comm, Nat.pow_add,
    Nat.pow_add]
  exact ⟨Nat.mul_le_mul_right _ (Nat.log2_self_le h),
    Nat.mul_lt_mul_of_pos_right Nat.lt_log2_self (Nat.two_pow_pos k)⟩

theorem log2_le (h : n < 2 ^ 53) : n.log2 ≤ 52 := by
  by_cases h₀ : n = 0
  · subst h₀
    decide
  · exact Nat.le_of_lt_succ ((Nat.log2_lt h₀).mpr h)

theorem targetExponent_eq (x : Int) : Format.binary64.targetExponent x = max (x - 53) (-1074) := rfl

/-- Shifting out zeros leaves nothing in the residual bits. -/
theorem shiftRight_mul_pow (n k : Nat) :
    (⟨n * 2 ^ k, false, false⟩ : ExtendedMantissa) >>> k = ⟨n, false, false⟩ := by
  show k.repeat ExtendedMantissa.shiftRightOne _ = _
  induction k generalizing n with
  | zero => rw [Nat.pow_zero, Nat.mul_one]; rfl
  | succ k ih =>
      rw [Nat.pow_succ', ← Nat.mul_assoc, Nat.repeat, ih, ExtendedMantissa.shiftRightOne]
      simp

theorem shiftToTargetExponent_exact (hn : n.log2 = 52) (he : -1074 ≤ e + k) :
    shiftToTargetExponent .binary64 (n * 2 ^ k) e .exact = (⟨n, false, false⟩, e + k) := by
  have h₀ : n ≠ 0 := by rintro rfl; cases hn
  have hk : (Format.binary64.targetExponent (totalExponent (n * 2 ^ k) e) - e).toNat = k := by
    rw [targetExponent_eq, totalExponent, log2_mul_two_pow h₀, hn]
    omega
  rw [shiftToTargetExponent, shiftToExponent, hk]
  exact Prod.ext (shiftRight_mul_pow n k) rfl

/-- A mantissa of 53 bits with zeros behind it loses the zeros. -/
theorem roundWithAccuracy_exact (s : Sign) (hn : n.log2 = 52) (h₀ : 0 < n) (he : -1074 ≤ e + k) :
    roundWithAccuracy .binary64 s (n * 2 ^ k) e .exact = .finite s n (e + k) h₀ := by
  have hagain := shiftToTargetExponent_exact (e := e + k) (k := 0) hn (by omega)
  rw [Nat.pow_zero, Nat.mul_one, Nat.cast_zero, add_zero] at hagain
  rw [roundWithAccuracy, shiftToTargetExponent_exact hn he]
  simp only [ExtendedMantissa.roundedMantissa, ExtendedMantissa.accuracy,
    Accuracy.roundToNearestEven, hagain, h₀.ne', dif_neg, not_false_eq_true]

/-! ### The form of an exact double -/

theorem mantissa_pos (h : n ≠ 0) : 0 < n * 2 ^ (52 - n.log2) :=
  Nat.mul_pos (Nat.pos_of_ne_zero h) (Nat.two_pow_pos _)

theorem log2_mantissa (h : n ≠ 0) (hn : n < 2 ^ 53) : (n * 2 ^ (52 - n.log2)).log2 = 52 := by
  rw [log2_mul_two_pow h, Nat.add_sub_cancel' (log2_le hn)]

/-- The number `n * 2 ^ e`, for `n` below `2 ^ 53`. -/
def exact (n : Nat) (e : Int) : UnpackedFloat :=
  if h : n = 0 then .zero .positive
  else .finite .positive (n * 2 ^ (52 - n.log2)) (e - (52 - n.log2 : Nat)) (mantissa_pos h)

theorem exact_zero (e : Int) : exact 0 e = .zero .positive := rfl

theorem exact_of_ne_zero (h : n ≠ 0) (e : Int) :
    exact n e = .finite .positive (n * 2 ^ (52 - n.log2)) (e - (52 - n.log2 : Nat))
      (mantissa_pos h) := dif_neg h

/-- **Rounding** gives the form of a number, whatever the scale it comes on. -/
theorem round_exact (h₀ : n ≠ 0) (hn : n < 2 ^ 53) (k : Nat) (he : -1022 ≤ e + k) :
    UnpackedFloat.round .binary64 .positive (n * 2 ^ k) e = exact n (e + k) := by
  have hlog := log2_le hn
  have ht : Format.binary64.targetExponent (totalExponent (n * 2 ^ k) e) =
      e + k - (52 - n.log2 : Nat) := by
    rw [targetExponent_eq, totalExponent, log2_mul_two_pow h₀]
    omega
  -- the zeros behind the 53 bits, after the exponent has come down as far as it has to
  have hshift : n * 2 ^ k * 2 ^ (e - (e + k - (52 - n.log2 : Nat))).toNat =
      n * 2 ^ (52 - n.log2) * 2 ^ (k - (52 - n.log2)) := by
    rw [Nat.mul_assoc, Nat.mul_assoc, ← Nat.pow_add, ← Nat.pow_add]
    congr 2
    omega
  rw [UnpackedFloat.round, ht, decreaseExponent, Nat.shiftLeft_eq, hshift, exact_of_ne_zero h₀]
  simp only []
  rw [roundWithAccuracy_exact .positive (log2_mantissa h₀ hn) (mantissa_pos h₀) (by omega)]
  congr 1
  omega

/-! ### Packing and unpacking -/

theorem unpackSign_packComponents {spec : Format} (s : Sign) (x : BitVec spec.exponentBits)
    (y : BitVec spec.mantissaBitsWithoutImplicit) :
    Sign.ofBitVec (unpackSign (packComponents spec s x y)) = s := by
  have hsign : unpackSign (packComponents spec s x y) = s.toBitVec := by
    ext i hi
    obtain rfl : i = 0 := by omega
    simp [unpackSign, packComponents, BitVec.getLsbD_append, BitVec.getElem_append]
  rw [hsign]
  cases s <;> rfl

theorem toNat_append_one (y : BitVec 52) : (1#1 ++ y).toNat = 2 ^ 52 + y.toNat := by
  rw [BitVec.toNat_append, ← Nat.shiftLeft_add_eq_or_of_lt y.isLt]
  rfl

theorem toNat_pos_of_ne {y : BitVec 52} (h : ¬ y = 0#52) : 0 < y.toNat :=
  Nat.pos_of_ne_zero fun h₀ => h (BitVec.eq_of_toNat_eq h₀)

/-- **Unpacking** from sign, exponent and mantissa bits. -/
theorem unpack_packComponents (s : Sign) (x : BitVec 11) (y : BitVec 52) :
    UnpackedFloat.unpack .binary64 (packComponents .binary64 s x y) =
      if x = -1#11 then (if y = 0#52 then .infinity s else .notANumber)
      else if x = 0#11 then
        if h : y = 0#52 then .zero s else .finite s y.toNat (-1074) (toNat_pos_of_ne h)
      else .finite s (2 ^ 52 + y.toNat) (x.toNat - 1075) (Nat.add_pos_left (by decide) _) := by
  rw [UnpackedFloat.unpack]
  simp only [unpackMantissa_packComponents, unpackExponent_packComponents,
    unpackSign_packComponents, toNat_append_one]
  split_ifs with h₁ h₂ h₃ h₄
  · rfl
  · rfl
  · rfl
  · subst h₃
    rfl
  · rfl

/-- A normal double is unpacked to what it was packed from. -/
theorem unpack_pack_normal (s : Sign) (hn : n.log2 = 52) (h₀ : 0 < n) (he : -1074 ≤ e)
    (he' : e ≤ 971) :
    UnpackedFloat.unpack .binary64 (UnpackedFloat.pack .binary64 (.finite s n e h₀)) =
      .finite s n e h₀ := by
  obtain ⟨b, hb⟩ : ∃ b : Nat, e + 1075 = b := Int.eq_ofNat_of_zero_le (by omega)
  have hbiased : e + Format.binary64.exponentBias +
      Format.binary64.mantissaBitsWithoutImplicit = (b : Int) := by
    rw [← hb]
    exact Int.add_assoc e 1023 52
  have hnat : (BitVec.ofNat 11 b).toNat = b := by
    rw [BitVec.toNat_ofNat, Nat.mod_eq_of_lt (by omega)]
  have hones : BitVec.ofNat 11 b ≠ -1#11 := by
    intro h
    have := congrArg BitVec.toNat h
    rw [hnat, show (-1#11).toNat = 2047 from rfl] at this
    omega
  have hzero : BitVec.ofNat 11 b ≠ 0#11 := by
    intro h
    have := congrArg BitVec.toNat h
    rw [hnat, show (0#11).toNat = 0 from rfl] at this
    omega
  have hpack : UnpackedFloat.pack .binary64 (.finite s n e h₀) =
      packComponents .binary64 s (.ofNat 11 b) (.ofNat 52 n) := by
    have hroom : ¬ 2 ^ 11 ≤ b + 1 := by omega
    rw [UnpackedFloat.pack]
    simp only [hbiased, Int.toNat_natCast, hn, hroom, if_false]
    rfl
  obtain ⟨hlo, hhi⟩ := (Nat.log2_eq_iff h₀.ne').mp hn
  rw [hpack, unpack_packComponents, if_neg hones, if_neg hzero]
  congr 1
  · rw [BitVec.toNat_ofNat]
    omega
  · rw [hnat]
    omega

/-- **Packing and unpacking** an exact double gives it back. -/
theorem unpack_pack_exact (hn : n < 2 ^ 53) (he : -1022 ≤ e) (he' : e ≤ 971) :
    UnpackedFloat.unpack .binary64 (UnpackedFloat.pack .binary64 (exact n e)) = exact n e := by
  by_cases h₀ : n = 0
  · subst h₀
    exact unpack_packComponents .positive 0#11 0#52
  · have hlog := log2_le hn
    rw [exact_of_ne_zero h₀]
    exact unpack_pack_normal _ (log2_mantissa h₀ hn) _ (by omega) (by omega)

/-! ### Sums and differences -/

/-- The mantissa of an exact double on a lower exponent. -/
theorem decreaseExponent_exact (n : Nat) (e : Int) (h : 52 - n.log2 ≤ k) :
    (decreaseExponent (n * 2 ^ (52 - n.log2)) (e - (52 - n.log2 : Nat)) (e - k)).1 = n * 2 ^ k := by
  rw [decreaseExponent, Nat.shiftLeft_eq, Nat.mul_assoc, ← Nat.pow_add]
  refine congrArg (n * 2 ^ ·) ?_
  omega

/-- Two exact doubles on one scale have a common exponent, where their mantissas are multiples of
one power. -/
theorem exists_common (n m : Nat) (e : Int) :
    ∃ k : Nat, min (e - (52 - n.log2 : Nat)) (e - (52 - m.log2 : Nat)) = e - k ∧
      52 - n.log2 ≤ k ∧ 52 - m.log2 ≤ k := by
  refine ⟨max (52 - n.log2) (52 - m.log2), ?_, le_max_left .., le_max_right ..⟩
  omega

theorem normalize_exact (hn : n < 2 ^ 53) (k : Nat) (he : -1022 ≤ e) :
    UnpackedFloat.normalize .binary64 ((n * 2 ^ k : Nat) : Int) (e - k) .positive = exact n e := by
  by_cases h₀ : n = 0
  · subst h₀
    rw [Nat.zero_mul]
    rfl
  · have hpos : 0 < n * 2 ^ k := Nat.mul_pos (Nat.pos_of_ne_zero h₀) (Nat.two_pow_pos k)
    have hcmp : compare ((n * 2 ^ k : Nat) : Int) 0 = .gt :=
      Int.compare_eq_gt.mpr (Int.natCast_pos.mpr hpos)
    rw [UnpackedFloat.normalize, hcmp]
    simp only [Int.toNat_natCast]
    rw [round_exact h₀ hn k (by omega), Int.sub_add_cancel]

theorem add_exact (hnm : n + m < 2 ^ 53) (he : -1022 ≤ e) :
    UnpackedFloat.add .binary64 (exact n e) (exact m e) = exact (n + m) e := by
  by_cases hn : n = 0
  · subst hn
    rw [exact_zero, Nat.zero_add]
    by_cases hm : m = 0
    · subst hm
      rfl
    · rw [exact_of_ne_zero hm]
      rfl
  by_cases hm : m = 0
  · subst hm
    rw [exact_zero, Nat.add_zero, exact_of_ne_zero hn]
    rfl
  obtain ⟨k, hmin, hkn, hkm⟩ := exists_common n m e
  rw [exact_of_ne_zero hn, exact_of_ne_zero hm, UnpackedFloat.add]
  simp only [hmin, decreaseExponent_exact _ _ hkn, decreaseExponent_exact _ _ hkm, Sign.apply]
  rw [← Int.natCast_add, ← Nat.add_mul]
  exact normalize_exact hnm k he

theorem sub_exact (hmn : m ≤ n) (hn : n < 2 ^ 53) (he : -1022 ≤ e) :
    UnpackedFloat.sub .binary64 (exact n e) (exact m e) = exact (n - m) e := by
  by_cases hm : m = 0
  · subst hm
    by_cases hn₀ : n = 0
    · subst hn₀
      rfl
    · rw [exact_zero, Nat.sub_zero, exact_of_ne_zero hn₀]
      rfl
  have hn₀ : n ≠ 0 := fun h => hm (Nat.le_zero.mp (h ▸ hmn))
  obtain ⟨k, hmin, hkn, hkm⟩ := exists_common n m e
  rw [exact_of_ne_zero hn₀, exact_of_ne_zero hm, UnpackedFloat.sub]
  simp only [hmin, decreaseExponent_exact _ _ hkn, decreaseExponent_exact _ _ hkm, Sign.apply]
  rw [← Int.natCast_sub (Nat.mul_le_mul_right _ hmn), ← Nat.sub_mul]
  exact normalize_exact ((Nat.sub_le n m).trans_lt hn) k he

/-! ### Doubles -/

/-- The double `n * 2 ^ e`, for `n` below `2 ^ 53`. -/
def dyadic (n : Nat) (e : Int) : Float := .ofModel (.pack (exact n e))

theorem unpack_dyadic (hn : n < 2 ^ 53) (he : -1022 ≤ e) (he' : e ≤ 971) :
    (dyadic n e).toModel.unpack = exact n e := unpack_pack_exact hn he he'

/-- **Sums** are exact. -/
theorem dyadic_add (hnm : n + m < 2 ^ 53) (he : -1022 ≤ e) (he' : e ≤ 971) :
    dyadic n e + dyadic m e = dyadic (n + m) e := by
  have hn := unpack_dyadic ((Nat.le_add_right n m).trans_lt hnm) he he'
  have hm := unpack_dyadic ((Nat.le_add_left m n).trans_lt hnm) he he'
  show Float.ofModel (.pack (UnpackedFloat.add _ (dyadic n e).toModel.unpack
    (dyadic m e).toModel.unpack)) = _
  rw [hn, hm, add_exact hnm he]
  rfl

/-- **Differences** are exact. -/
theorem dyadic_sub (hmn : m ≤ n) (hn : n < 2 ^ 53) (he : -1022 ≤ e) (he' : e ≤ 971) :
    dyadic n e - dyadic m e = dyadic (n - m) e := by
  have hn' := unpack_dyadic hn he he'
  have hm := unpack_dyadic (hmn.trans_lt hn) he he'
  show Float.ofModel (.pack (UnpackedFloat.sub _ (dyadic n e).toModel.unpack
    (dyadic m e).toModel.unpack)) = _
  rw [hn', hm, sub_exact hmn hn he]
  rfl

/-! ### Values -/

/-- The rational number an unpacked double is, unless it is infinite or not a number. -/
def unpackedValue : UnpackedFloat → Option ℚ
  | .zero _ => some 0
  | .finite s n e _ => some ((s.apply n : Int) * 2 ^ e)
  | .infinity _ | .notANumber => none

/-- The rational number a double is. -/
def value (x : Float) : Option ℚ := unpackedValue x.toModel.unpack

theorem unpackedValue_exact (n : Nat) (e : Int) :
    unpackedValue (exact n e) = some ((n : ℚ) * 2 ^ e) := by
  by_cases h₀ : n = 0
  · subst h₀
    rw [Nat.cast_zero, zero_mul]
    rfl
  · rw [exact_of_ne_zero h₀, unpackedValue, Sign.apply, Int.cast_natCast, Nat.cast_mul,
      Nat.cast_pow, Nat.cast_two, mul_assoc, ← zpow_natCast, ← zpow_add₀ two_ne_zero,
      add_sub_cancel]

theorem value_dyadic (hn : n < 2 ^ 53) (he : -1022 ≤ e) (he' : e ≤ 971) :
    value (dyadic n e) = some ((n : ℚ) * 2 ^ e) := by
  rw [value, unpack_dyadic hn he he', unpackedValue_exact]

end HyperLogLog.Double
