import HyperLogLog.Proofs.Sketch.Plain
import Mathlib.Algebra.BigOperators.Group.List.Basic
import Mathlib.Algebra.Order.BigOperators.Group.List
import Mathlib.Algebra.Order.Ring.Nat

/-!
# The sums of the weights

On the scale of `2 ^ -31` the weights of the values below 32 are whole numbers (`lowUnit`), and on
the scale of `2 ^ -63` so are the weights of the others (`highUnit`).  A `Grid` is what arithmetic
has to give for sums of such numbers to be exact up to `2 ^ 52`, which no sum of the weights of a
bank exceeds.  On a grid the two sums of an accumulator are the totals of the weights of the bank,
after any run (`Plain.summed_run`): a raise takes the old weight out and puts the new one in, and
what it has in between is on the grid as well (`Plain.Summed.removed`).
-/

namespace HyperLogLog

/-- The weight of a value in the low sum, in units of `2 ^ -31`. -/
def lowUnit (v : Nat) : Nat := if v < weightSplit then 2 ^ (31 - v) else 0

/-- The weight of a value in the high sum, in units of `2 ^ -63`. -/
def highUnit (v : Nat) : Nat := if v < weightSplit then 0 else 2 ^ (63 - v)

theorem lowUnit_le (v : Nat) : lowUnit v ≤ 2 ^ 31 := by
  rw [lowUnit]
  split
  · exact Nat.pow_le_pow_right (by decide) (Nat.sub_le _ _)
  · exact Nat.zero_le _

theorem highUnit_le (v : Nat) : highUnit v ≤ 2 ^ 31 := by
  rw [highUnit]
  split
  · exact Nat.zero_le _
  · rename_i h
    have hv : 32 ≤ v := not_lt.mp h
    exact Nat.pow_le_pow_right (by decide) (by omega)

/-! ### Totals over a bank -/

namespace Bank

variable {p : Precision} {b : Bank p} {w : Nat → Nat} {slot value c : Nat}

/-- The weights of all values of a bank together. -/
def total (w : Nat → Nat) (b : Bank p) : Nat := (b.values.toList.map w).sum

theorem total_zeros (w : Nat → Nat) (p : Precision) : (zeros p).total w = p.slots * w 0 := by
  rw [total, zeros, Array.toList_replicate, List.map_replicate, List.sum_replicate,
    Nat.nsmul_eq_mul]

/-- A raise takes the old weight out and puts the new one in. -/
theorem total_set (w : Nat → Nat) (b : Bank p) (h : value ≤ maxRegister) (hs : slot < p.slots) :
    (b.set slot value h).total w + w (b.get slot) = b.total w + w value := by
  have hl : slot < (b.values.toList.map w).length := by
    rwa [List.length_map, Array.length_toList, b.size_values]
  have hold : (b.values.toList.map w)[slot] = w (b.get slot) := by
    rw [List.getElem_map, Array.getElem_toList, b.getElem_values]
  have hsplit : ∀ x, ((b.values.toList.map w).set slot x).sum =
      ((b.values.toList.map w).take slot).sum + x +
        ((b.values.toList.map w).drop (slot + 1)).sum := fun x => by
    rw [List.sum_set, if_pos hl]
  have hset : (b.set slot value h).values.toList.map w =
      (b.values.toList.map w).set slot (w value) := by
    rw [set, Array.toList_setIfInBounds, List.map_set]
  have hsame := hsplit (w (b.get slot))
  rw [← hold, List.set_getElem_self, hold] at hsame
  rw [total, total, hset, hsplit, hsame]
  omega

theorem le_total (w : Nat → Nat) (b : Bank p) (hs : slot < p.slots) :
    w (b.get slot) ≤ b.total w :=
  List.le_sum_of_mem (List.mem_map_of_mem (Array.mem_toList_iff.mpr (b.get_mem hs)))

theorem total_le (b : Bank p) (h : ∀ v, w v ≤ c) : b.total w ≤ p.slots * c := by
  have hsum := List.sum_le_card_nsmul (b.values.toList.map w) c fun x hx => by
    obtain ⟨v, -, rfl⟩ := List.mem_map.mp hx
    exact h v
  rwa [List.length_map, Array.length_toList, b.size_values, Nat.nsmul_eq_mul] at hsum

/-- No sum of weights is above `2 ^ 52`. -/
theorem total_le_pow (b : Bank p) (h : ∀ v, w v ≤ 2 ^ 31) : b.total w ≤ 2 ^ 52 :=
  calc b.total w ≤ p.slots * 2 ^ 31 := b.total_le h
    _ ≤ 2 ^ 21 * 2 ^ 31 := Nat.mul_le_mul_right _ p.slots_le
    _ = 2 ^ 52 := rfl

end Bank

/-! ### Exact arithmetic -/

/-- The multiples of `2 ^ -31` and of `2 ^ -63` that the sums of the weights can reach, and that
sums and differences of them are exact. -/
structure Grid (α : Type) [Arith α] where
  /-- The multiple of `2 ^ -31` by a number up to `2 ^ 52`. -/
  low : Nat → α
  /-- The multiple of `2 ^ -63` by a number up to `2 ^ 52`. -/
  high : Nat → α
  low_add : ∀ n m, n + m ≤ 2 ^ 52 → low n + low m = low (n + m)
  low_sub : ∀ n m, m ≤ n → n ≤ 2 ^ 52 → low n - low m = low (n - m)
  high_add : ∀ n m, n + m ≤ 2 ^ 52 → high n + high m = high (n + m)
  high_sub : ∀ n m, m ≤ n → n ≤ 2 ^ 52 → high n - high m = high (n - m)
  slots_eq : ∀ p : Precision, (p.slots : α) = low (p.slots * 2 ^ 31)
  zero_eq : ((0 : Nat) : α) = high 0
  weight_low : ∀ v < weightSplit, invPow2 v = low (2 ^ (31 - v))
  weight_high : ∀ v, weightSplit ≤ v → v ≤ maxRegister → invPow2 v = high (2 ^ (63 - v))

namespace Accumulator

variable {α : Type} [Arith α] {g : Grid α} {a : Accumulator α} {n m v : Nat}

/-- The two sums of an accumulator are on the grid. -/
structure Sums (g : Grid α) (a : Accumulator α) (n m : Nat) : Prop where
  low : a.lowSum = g.low n
  high : a.highSum = g.high m

theorem Sums.credit (h : a.Sums g n m) : a.credit.Sums g n m := ⟨h.low, h.high⟩

theorem Sums.removeWeight (h : a.Sums g n m) (hv : v ≤ maxRegister) (hn : lowUnit v ≤ n)
    (hm : highUnit v ≤ m) (hn' : n ≤ 2 ^ 52) (hm' : m ≤ 2 ^ 52) :
    (a.removeWeight v).Sums g (n - lowUnit v) (m - highUnit v) := by
  rw [lowUnit] at hn ⊢
  rw [highUnit] at hm ⊢
  rw [Accumulator.removeWeight]
  by_cases hlt : v < weightSplit
  · rw [if_pos hlt] at hn ⊢
    rw [if_pos hlt, if_pos hlt, Nat.sub_zero]
    exact ⟨by rw [h.low, g.weight_low v hlt, g.low_sub n _ hn hn'], h.high⟩
  · rw [if_neg hlt] at hm ⊢
    rw [if_neg hlt, if_neg hlt, Nat.sub_zero]
    exact ⟨h.low, by rw [h.high, g.weight_high v (not_lt.mp hlt) hv, g.high_sub m _ hm hm']⟩

theorem Sums.addWeight (h : a.Sums g n m) (hv : v ≤ maxRegister) (hn : n + lowUnit v ≤ 2 ^ 52)
    (hm : m + highUnit v ≤ 2 ^ 52) :
    (a.addWeight v).Sums g (n + lowUnit v) (m + highUnit v) := by
  rw [lowUnit] at hn ⊢
  rw [highUnit] at hm ⊢
  rw [Accumulator.addWeight]
  by_cases hlt : v < weightSplit
  · rw [if_pos hlt] at hn ⊢
    rw [if_pos hlt, if_pos hlt, Nat.add_zero]
    exact ⟨by rw [h.low, g.weight_low v hlt, g.low_add n _ hn], h.high⟩
  · rw [if_neg hlt] at hm ⊢
    rw [if_neg hlt, if_neg hlt, Nat.add_zero]
    exact ⟨h.low, by rw [h.high, g.weight_high v (not_lt.mp hlt) hv, g.high_add m _ hm]⟩

end Accumulator

/-! ### Runs -/

namespace Plain

open Sketch (Step)

variable {α : Type} [Arith α] {p : Precision} {g : Grid α} {t : Plain α p} {slot value : Nat}

/-- The sums of the accumulator are the totals of the weights of the bank. -/
def Summed (g : Grid α) (t : Plain α p) : Prop :=
  t.accumulator.Sums g (t.bank.total lowUnit) (t.bank.total highUnit)

theorem summed_empty (g : Grid α) (p : Precision) : (empty p : Plain α p).Summed g := by
  refine ⟨?_, ?_⟩
  · rw [empty, Bank.total_zeros]
    exact g.slots_eq p
  · rw [empty, Bank.total_zeros]
    exact g.zero_eq

/-- **Between the two halves of a raise** the sums are the totals without the old weight. -/
theorem Summed.removed (h : t.Summed g) (hs : slot < p.slots) :
    (t.accumulator.credit.removeWeight (t.bank.get slot)).Sums g
      (t.bank.total lowUnit - lowUnit (t.bank.get slot))
      (t.bank.total highUnit - highUnit (t.bank.get slot)) :=
  (Accumulator.Sums.credit h).removeWeight (t.bank.get_le slot) (t.bank.le_total lowUnit hs)
    (t.bank.le_total highUnit hs) (t.bank.total_le_pow lowUnit_le)
    (t.bank.total_le_pow highUnit_le)

theorem Summed.raise (h : t.Summed g) (hs : slot < p.slots) (hv : value ≤ maxRegister) :
    (t.raise slot value hv).Summed g := by
  have hlow := t.bank.total_set lowUnit hv hs
  have hhigh := t.bank.total_set highUnit hv hs
  have hlow' := (t.bank.set slot value hv).total_le_pow lowUnit_le
  have hhigh' := (t.bank.set slot value hv).total_le_pow highUnit_le
  have hl := t.bank.le_total lowUnit hs
  have hh := t.bank.le_total highUnit hs
  have hraised := (h.removed hs).addWeight hv (by omega) (by omega)
  rwa [show t.bank.total lowUnit - lowUnit (t.bank.get slot) + lowUnit value =
      (t.bank.set slot value hv).total lowUnit by omega,
    show t.bank.total highUnit - highUnit (t.bank.get slot) + highUnit value =
      (t.bank.set slot value hv).total highUnit by omega] at hraised

theorem Summed.apply (h : t.Summed g) (st : Step) : (t.apply st).Summed g := by
  cases st with
  | update slot value =>
      by_cases hraise : slot < p.slots ∧ value ≤ maxRegister ∧ t.bank.get slot < value
      · obtain ⟨hs, hv, hlt⟩ := hraise
        rw [Plain.apply, update_of_raise hs hv hlt]
        exact h.raise hs hv
      · rw [Plain.apply, update_of_not_raise hraise]
        exact h
  | mark => exact ⟨h.low, h.high⟩
  | convert e => exact h

/-- **The sums are the totals of the weights**, after any run. -/
theorem summed_run (g : Grid α) (p : Precision) (steps : List Step) :
    ((empty p : Plain α p).run steps).Summed g :=
  run_induction (summed_empty g p) (fun _ st h => h.apply st) steps

end Plain

end HyperLogLog
