import HyperLogLog.Registers.OctetArray
import HyperLogLog.Proofs.Registers.Bank

/-!
# Byte registers — the representation

A byte array *holds* a bank when its bytes are the values.  Reading and writing are then reading
and writing in the bank, since every value fits a byte.
-/

namespace HyperLogLog.OctetArray

variable {p : Precision} {b : Bank p} {a : OctetArray} {slot value : Nat}

/-- The bytes are the values of the bank. -/
def Holds (a : OctetArray) (b : Bank p) : Prop := a = ofValues p.lg b.values

theorem holds_ofValues (b : Bank p) : (ofValues p.lg b.values).Holds b := rfl

theorem holds_zeros (p : Precision) : (zeros p.lg).Holds (Bank.zeros p) := by
  rw [Holds, zeros, ofValues, Bank.zeros, Array.map_replicate]
  rfl

theorem Holds.lgK_eq (h : a.Holds b) : a.lgK = p.lg := by rw [h]; rfl

theorem Holds.get (h : a.Holds b) (hs : slot < p.slots) : a.get slot = .ok (b.get slot) := by
  have hv : b.get slot < 2 ^ 8 := (b.get_le slot).trans_lt (by decide)
  have hbyte : a.bytes[slot]? = some (.ofNat (b.get slot)) := by
    rw [h, ofValues, Array.getElem?_map, b.getElem?_of_lt hs, Option.map_some]
  simp only [OctetArray.get, hbyte, UInt8.toNat_ofNat', Nat.mod_eq_of_lt hv]

theorem Holds.put (h : a.Holds b) (hs : slot < p.slots) (hv : value ≤ maxRegister) :
    ∃ a', a.put slot value = .done a' ∧ a'.Holds (b.set slot value hv) := by
  have hlt : slot < a.bytes.size := by rwa [h, ofValues, Array.size_map, b.size_values]
  refine ⟨_, if_pos hlt, ?_⟩
  have hmap : (b.values.setIfInBounds slot value).map UInt8.ofNat =
      (b.values.map .ofNat).setIfInBounds slot (.ofNat value) := Array.map_setIfInBounds
  rw [Holds, ofValues, Bank.set, hmap, h]
  rfl

end HyperLogLog.OctetArray
