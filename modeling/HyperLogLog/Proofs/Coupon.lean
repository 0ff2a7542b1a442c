import HyperLogLog.Coupon
import HyperLogLog.Limits

/-!
# Coupons — unpacking a packed coupon

A slot of 26 bits and a value of 6 bits come back from their coupon, and a coupon of a positive
value is never the vacant one, whatever its slot (slot 0 included).
-/

namespace HyperLogLog.Coupon

theorem slotRange_eq : slotRange = 67108864 := rfl

theorem valueRange_eq : valueRange = 64 := rfl

theorem toNat_pack (slot value : Nat) :
    (pack slot value).bits.toNat = value % valueRange * slotRange + slot % slotRange := by
  have h : value % valueRange * slotRange + slot % slotRange < 4294967296 := by
    rw [slotRange_eq, valueRange_eq]
    omega
  rw [pack, UInt32.toNat_ofNat']
  exact Nat.mod_eq_of_lt h

theorem slot_pack {slot value : Nat} (h : slot < slotRange) : (pack slot value).slot = slot := by
  rw [Coupon.slot, toNat_pack, Nat.mul_comm, Nat.mul_add_mod, Nat.mod_mod, Nat.mod_eq_of_lt h]

theorem value_pack {slot value : Nat} (h : value ≤ maxRegister) :
    (pack slot value).value = value := by
  have hv : value < 64 := Nat.lt_succ_of_le h
  rw [Coupon.value, toNat_pack, slotRange_eq, valueRange_eq]
  omega

theorem value_le (c : Coupon) : c.value ≤ maxRegister := by
  have h : c.bits.toNat < 4294967296 := c.bits.toNat_lt
  have hv : c.value < 64 := by
    rw [Coupon.value, slotRange_eq]
    omega
  exact Nat.le_of_lt_succ hv

@[simp] theorem isVacant_vacant : vacant.isVacant = true := rfl

theorem isVacant_iff {c : Coupon} : c.isVacant = true ↔ c = vacant := by
  cases c; simp [isVacant, vacant]

theorem isVacant_pack {slot value : Nat} (h₀ : 0 < value) (h : value ≤ maxRegister) :
    (pack slot value).isVacant = false := by
  rw [isVacant, beq_eq_false_iff_ne]
  intro e
  have hv : (pack slot value).value = 0 := by simp [Coupon.value, e]
  rw [value_pack h] at hv
  omega

end HyperLogLog.Coupon
