import HyperLogLog.Registers.Nibbles
import Mathlib.Data.List.Basic

/-!
# Nibbles — the packed array as a list

`Nibbles.toList` unpacks the bytes, and each operation on the bytes is a list operation on it:
`get` reads the list, `set` replaces one element, `lowerAll` maps over it, `countZeros` counts in
it.  The list determines the bytes (`toList_inj`).
-/

namespace HyperLogLog.Nibbles

/-- The two numbers of a byte, in the order of their indices. -/
def pair (b : UInt8) : List Nat := [b.toNat % 16, b.toNat / 16]

/-- The numbers, in the order of their indices. -/
def toList (a : Nibbles) : List Nat := a.bytes.toList.flatMap pair

/-! ### Bytes -/

theorem toNat_lt (b : UInt8) : b.toNat < 256 := UInt8.toNat_lt b

theorem toNat_setHalf (i v : Nat) (b : UInt8) :
    (setHalf i v b).toNat =
      if i % 2 = 0 then b.toNat / 16 * 16 + v % 16 else v % 16 * 16 + b.toNat % 16 := by
  have h := toNat_lt b
  unfold setHalf
  split <;> rw [UInt8.toNat_ofNat'] <;> omega

theorem half_setHalf (i j v : Nat) (b : UInt8) :
    half j (setHalf i v b) = if i % 2 = j % 2 then v % 16 else half j b := by
  have h := toNat_lt b
  simp only [half, toNat_setHalf]
  rcases Nat.mod_two_eq_zero_or_one i with hi | hi <;>
    rcases Nat.mod_two_eq_zero_or_one j with hj | hj <;>
    simp only [hi, hj, if_true, if_false, Nat.zero_ne_one, Nat.one_ne_zero] <;> omega

theorem half_lt (i : Nat) (b : UInt8) : half i b < 16 := by
  have h := toNat_lt b
  rw [half]
  split <;> omega

/-- A byte is its two halves. -/
theorem eq_of_half {b c : UInt8} (h₀ : half 0 b = half 0 c) (h₁ : half 1 b = half 1 c) :
    b = c := by
  simp only [half, Nat.zero_mod, Nat.one_mod, if_true, Nat.one_ne_zero, if_false] at h₀ h₁
  exact UInt8.toNat_inj.mp (by omega)

/-! ### The list -/

theorem length_flatMap_pair (l : List UInt8) : (l.flatMap pair).length = 2 * l.length := by
  induction l with
  | nil => rfl
  | cons b l ih =>
      simp only [List.flatMap_cons, List.length_append, ih, pair, List.length_cons,
        List.length_nil]
      omega

theorem length_toList (a : Nibbles) : a.toList.length = 2 * a.bytes.size := by
  rw [toList, length_flatMap_pair, Array.length_toList]

theorem getElem?_flatMap_pair : ∀ (l : List UInt8) (i : Nat),
    (l.flatMap pair)[i]? = l[i / 2]?.map (half i)
  | [], _ => by simp
  | b :: l, 0 => rfl
  | b :: l, 1 => rfl
  | b :: l, i + 2 => by
      have e : (i + 2) / 2 = i / 2 + 1 := by omega
      have p : half (i + 2) = half i := by funext c; simp [half]
      rw [e, List.getElem?_cons_succ, p, ← getElem?_flatMap_pair l i]
      rfl

theorem getElem?_toList (a : Nibbles) (i : Nat) :
    a.toList[i]? = a.bytes[i / 2]?.map (half i) := by
  rw [toList, getElem?_flatMap_pair, Array.getElem?_toList]

theorem lt_of_getElem?_toList {a : Nibbles} {i v : Nat} (h : a.toList[i]? = some v) : v < 16 := by
  rw [getElem?_toList, Option.map_eq_some_iff] at h
  obtain ⟨b, -, rfl⟩ := h
  exact half_lt i b

theorem get_eq_ok {a : Nibbles} {i v : Nat} (h : a.toList[i]? = some v) : a.get i = .ok v := by
  rw [getElem?_toList, Option.map_eq_some_iff] at h
  obtain ⟨b, hb, rfl⟩ := h
  simp only [get, hb]

theorem toList_zeros {n : Nat} (h : n % 2 = 0) : (zeros n).toList = List.replicate n 0 := by
  have unpack : ∀ k, (List.replicate k (0 : UInt8)).flatMap pair = List.replicate (2 * k) 0 := by
    intro k
    induction k with
    | zero => rfl
    | succ k ih => rw [List.replicate_succ, List.flatMap_cons, ih]; rfl
  rw [toList, zeros, Array.toList_replicate, unpack]
  congr 1
  omega

theorem toList_set (a : Nibbles) (i v : Nat) : (a.set i v).toList = a.toList.set i (v % 16) := by
  refine List.ext_getElem? fun j => ?_
  rw [getElem?_toList, List.getElem?_set, length_toList, set, Array.getElem?_modify]
  by_cases e : i = j
  · subst e
    by_cases hi : i / 2 < a.bytes.size
    · have hi' : i < 2 * a.bytes.size := by omega
      simp [hi, hi', half_setHalf]
    · have hi' : ¬ i < 2 * a.bytes.size := by omega
      simp [hi, hi']
  · simp only [e, if_false, getElem?_toList]
    split
    · -- the other half of the same byte
      rename_i hij
      rw [Option.map_map]
      congr 1
      funext b
      rw [Function.comp, half_setHalf, if_neg (by omega)]
    · rfl

theorem toList_lowerAll (a : Nibbles) : a.lowerAll.toList = a.toList.map lower := by
  refine List.ext_getElem? fun j => ?_
  rw [getElem?_toList, List.getElem?_map, getElem?_toList, lowerAll, Array.getElem?_map,
    Option.map_map, Option.map_map]
  congr 1
  funext b
  have h := toNat_lt b
  simp only [Function.comp, half, lower, UInt8.toNat_ofNat']
  split <;> split <;> split <;> omega

theorem countZeros_eq (a : Nibbles) : a.countZeros = a.toList.count 0 := by
  have fold : ∀ (l : List UInt8) (n : Nat),
      l.foldl (fun n b => n + zerosIn b) n = n + (l.flatMap pair).count 0 := by
    intro l
    induction l with
    | nil => intro n; rfl
    | cons b l ih =>
        intro n
        have hb : (pair b).count 0 = zerosIn b := by
          simp only [pair, zerosIn, List.count_cons, List.count_nil, beq_iff_eq]
          omega
        rw [List.foldl_cons, ih, List.flatMap_cons, List.count_append, hb, Nat.add_assoc]
  rw [countZeros, ← Array.foldl_toList, fold, Nat.zero_add, toList]

/-- **The list determines the bytes.** -/
theorem toList_inj {a b : Nibbles} (h : a.toList = b.toList) : a = b := by
  obtain ⟨x⟩ := a
  obtain ⟨y⟩ := b
  have hs : x.size = y.size := by
    have hl := congrArg List.length h
    rw [length_toList, length_toList] at hl
    exact Nat.eq_of_mul_eq_mul_left (by decide) hl
  refine congrArg Nibbles.mk (Array.ext hs fun i hx hy => ?_)
  have at_index : ∀ j, j / 2 = i → half j x[i] = half j y[i] := by
    rintro j rfl
    have hj := congrArg (·[j]?) h
    simp only [getElem?_toList, Array.getElem?_eq_getElem hx, Array.getElem?_eq_getElem hy,
      Option.map_some, Option.some.injEq] at hj
    exact hj
  refine eq_of_half ?_ ?_
  · have h₀ := at_index (2 * i) (by omega)
    simpa [half] using h₀
  · have h₁ := at_index (2 * i + 1) (by omega)
    have e : (2 * i + 1) % 2 = 1 := by omega
    simpa [half, e] using h₁

end HyperLogLog.Nibbles
