import HyperLogLog.Proofs.Estimate.Interpolation
import Mathlib.Algebra.Field.Rat
import Mathlib.LinearAlgebra.Lagrange

/-!
# Interpolation — the cubic of a window

The four terms of `lagrangeCubic` add up to Lagrange's interpolation of four points
(`lagrangeCubic_eq_eval`).  So the cubic from a node on is the one polynomial of degree at most
three that *meets* that node and the next three (`Table.existsUnique_meets`,
`Table.Meets.cubicFrom_eq`), and at each of the four it is the node's ordinate.

The abscissae of a table increase, so the search has one interval to end at, and the whole interval,
both ends included, is read by the cubic of one window around it (`Table.interpolate_eq_cubicFrom`):
the window of the interval to the left ends in the same ordinate.

No quotient is by zero.  The definition is run once more, in an arithmetic whose quotients by zero
are no numbers (`Checked`), and has the number it has in the field (`Table.interpolate_checked`).
That a search ends, and that its nodes are nodes of the table, is part of the definitions; what is
left to say of the indices is that none of them comes of a truncated difference
(`windowStart_cases`).
-/

open Polynomial

namespace HyperLogLog

variable {K : Type} [Field K]

/-! ### Lagrange's form -/

/-- A basis polynomial of Lagrange's is one fraction. -/
theorem eval_basis {ι : Type} [DecidableEq ι] (s : Finset ι) (v : ι → K) (i : ι) (x : K) :
    (Lagrange.basis s v i).eval x =
      (∏ j ∈ s.erase i, (x - v j)) / ∏ j ∈ s.erase i, (v i - v j) := by
  rw [Lagrange.basis, eval_prod, ← Finset.prod_div_distrib]
  refine Finset.prod_congr rfl fun j _ => ?_
  rw [Lagrange.basisDivisor, eval_mul, eval_C, eval_sub, eval_X, eval_C, inv_mul_eq_div]

/-- The product over the other three of four. -/
theorem prod_erase_fin_four (f : Fin 4 → K) :
    ∏ j ∈ Finset.univ.erase 0, f j = f 1 * f 2 * f 3 ∧
      ∏ j ∈ Finset.univ.erase 1, f j = f 0 * f 2 * f 3 ∧
      ∏ j ∈ Finset.univ.erase 2, f j = f 0 * f 1 * f 3 ∧
      ∏ j ∈ Finset.univ.erase 3, f j = f 0 * f 1 * f 2 := by
  have h₀ : Finset.univ.erase (0 : Fin 4) = {1, 2, 3} := rfl
  have h₁ : Finset.univ.erase (1 : Fin 4) = {0, 2, 3} := rfl
  have h₂ : Finset.univ.erase (2 : Fin 4) = {0, 1, 3} := rfl
  have h₃ : Finset.univ.erase (3 : Fin 4) = {0, 1, 2} := rfl
  simp [h₀, h₁, h₂, h₃, mul_assoc]

variable [LinearOrder K]

/-- **Lagrange's form** is the interpolation of the four points, at `x`. -/
theorem lagrangeCubic_eq_eval (v r : Fin 4 → K) (x : K) :
    lagrangeCubic (v 0) (r 0) (v 1) (r 1) (v 2) (r 2) (v 3) (r 3) x =
      (Lagrange.interpolate Finset.univ v r).eval x := by
  rw [Lagrange.interpolate_apply, eval_finsetSum, Fin.sum_univ_four]
  simp only [eval_mul, eval_C, eval_basis, prod_erase_fin_four, ← mul_div_assoc]
  rfl

/-! ### Checked quotients -/

/-- A number, or nothing once a quotient by zero has been formed. -/
structure Checked (K : Type) where
  number? : Option K

namespace Checked

/-- A number. -/
def ok (a : K) : Checked K := ⟨some a⟩

/-- An operation on numbers that there are. -/
def lift (op : K → K → Option K) (a b : Checked K) : Checked K :=
  ⟨a.number?.bind fun x => b.number?.bind (op x)⟩

/-- A test of two numbers, which fails if there is one missing. -/
def test (rel : K → K → Bool) (a b : Checked K) : Bool :=
  a.number?.any fun x => b.number?.any (rel x)

/-- Exact arithmetic, in which a quotient by zero is no number. -/
instance : Arith (Checked K) where
  add := ⟨lift fun a b => some (a + b)⟩
  sub := ⟨lift fun a b => some (a - b)⟩
  mul := ⟨lift fun a b => some (a * b)⟩
  div := ⟨lift fun a b => if b = 0 then none else some (a / b)⟩
  neg := ⟨fun a => ⟨a.number?.map Neg.neg⟩⟩
  natCast := ⟨fun n => ok n⟩
  ofScientific := ⟨fun m s e => ok (OfScientific.ofScientific m s e)⟩
  lt := ⟨fun a b => test (fun x y => x < y) a b⟩
  le := ⟨fun a b => test (fun x y => x ≤ y) a b⟩
  decidableLT := fun a b => inferInstanceAs (Decidable (test (fun x y => x < y) a b = true))
  decidableLE := fun a b => inferInstanceAs (Decidable (test (fun x y => x ≤ y) a b = true))

variable {a b : K}

theorem ok_add : ok a + ok b = ok (a + b) := rfl

theorem ok_sub : ok a - ok b = ok (a - b) := rfl

theorem ok_mul : ok a * ok b = ok (a * b) := rfl

theorem ok_div (hb : b ≠ 0) : ok a / ok b = ok (a / b) := congrArg mk (if_neg hb)

example : ok (1 : ℚ) / ok 0 = ⟨none⟩ := rfl

theorem ok_le_ok : ok a ≤ ok b ↔ a ≤ b := by
  show decide (a ≤ b) = true ↔ _
  exact decide_eq_true_iff

/-- Between four different abscissae no quotient is by zero. -/
theorem lagrangeCubic_ok {x₀ y₀ x₁ y₁ x₂ y₂ x₃ y₃ x : K} (h₀₁ : x₀ ≠ x₁) (h₀₂ : x₀ ≠ x₂)
    (h₀₃ : x₀ ≠ x₃) (h₁₂ : x₁ ≠ x₂) (h₁₃ : x₁ ≠ x₃) (h₂₃ : x₂ ≠ x₃) :
    lagrangeCubic (ok x₀) (ok y₀) (ok x₁) (ok y₁) (ok x₂) (ok y₂) (ok x₃) (ok y₃) (ok x) =
      ok (lagrangeCubic x₀ y₀ x₁ y₁ x₂ y₂ x₃ y₃ x) := by
  have mul_ne : ∀ {u v w : K}, u ≠ 0 → v ≠ 0 → w ≠ 0 → u * v * w ≠ 0 := fun hu hv hw =>
    mul_ne_zero (mul_ne_zero hu hv) hw
  simp only [lagrangeCubic, ok_sub, ok_mul]
  rw [ok_div (mul_ne (sub_ne_zero.mpr h₀₁) (sub_ne_zero.mpr h₀₂) (sub_ne_zero.mpr h₀₃)),
    ok_div (mul_ne (sub_ne_zero.mpr h₀₁.symm) (sub_ne_zero.mpr h₁₂) (sub_ne_zero.mpr h₁₃)),
    ok_div (mul_ne (sub_ne_zero.mpr h₀₂.symm) (sub_ne_zero.mpr h₁₂.symm) (sub_ne_zero.mpr h₂₃)),
    ok_div (mul_ne (sub_ne_zero.mpr h₀₃.symm) (sub_ne_zero.mpr h₁₃.symm)
      (sub_ne_zero.mpr h₂₃.symm)),
    ok_add, ok_add, ok_add]

end Checked

namespace Table

variable {t : Table K} {p : K[X]} {i j : Nat} {x : K}

/-! ### The window of an interval -/

/-- A polynomial of degree at most three through the nodes from `i` to `j`. -/
structure Meets (t : Table K) (p : K[X]) (i j : Nat) : Prop where
  natDegree_le : p.natDegree ≤ 3
  eval_x : ∀ k : Fin t.size, i ≤ k → k ≤ j → p.eval (t.x k) = k * t.stride

/-- The four nodes from `j` on. -/
def node (t : Table K) (j : Nat) (lt : j + 3 < t.size) (k : Fin 4) : Fin t.size :=
  ⟨j + k, (Nat.add_le_add_left k.is_le j).trans_lt lt⟩

theorem cubicFrom_eq_eval (lt : j + 3 < t.size) (x : K) :
    t.cubicFrom j lt x =
      (Lagrange.interpolate Finset.univ (fun k => t.x (t.node j lt k)) fun k =>
        (t.node j lt k : K) * t.stride).eval x := by
  rw [← lagrangeCubic_eq_eval]
  simp only [cubicFrom, y, mul_comm t.stride]
  rfl

/-! ### Checked tables -/

/-- The table, to be read in checked arithmetic. -/
abbrev checked (t : Table K) : Table (Checked K) :=
  ⟨t.size, fun i => .ok (t.x i), .ok t.stride, t.four_le_size⟩

/-- The search is the same. -/
theorem straddle_checked (x : K) (low high : Nat) (lt : low < high) (high_lt : high < t.size) :
    t.checked.straddle (.ok x) low high lt high_lt = t.straddle x low high lt high_lt := by
  fun_induction straddle t x low high lt high_lt with
  | case1 low high lt high_lt h hle ih =>
      conv_lhs => rw [straddle, dif_pos h, if_pos (Checked.ok_le_ok.mpr hle)]
      exact ih
  | case2 low high lt high_lt h hnot ih =>
      conv_lhs => rw [straddle, dif_pos h, if_neg (mt Checked.ok_le_ok.mp hnot)]
      exact ih
  | case3 low high lt high_lt h =>
      conv_lhs => rw [straddle, dif_neg h]

section StrictMono

variable (hx : StrictMono t.x)

include hx

theorem meets_iff (lt : j + 3 < t.size) :
    t.Meets p j (j + 3) ↔ p = Lagrange.interpolate Finset.univ (fun k => t.x (t.node j lt k))
      fun k => (t.node j lt k : K) * t.stride := by
  have hinj : Set.InjOn (fun k => t.x (t.node j lt k)) (Finset.univ : Finset (Fin 4)) :=
    fun k _ l _ h => Fin.ext (Nat.add_left_cancel (congrArg Fin.val (hx.injective h)))
  have hdegree : p.degree < Finset.card (Finset.univ : Finset (Fin 4)) ↔ p.natDegree ≤ 3 := by
    rw [natDegree_le_iff_coeff_eq_zero]
    exact degree_lt_iff_coeff_zero p 4
  rw [← Lagrange.eq_interpolate_iff _ hinj, hdegree]
  constructor
  · rintro ⟨hp, heval⟩
    exact ⟨hp, fun k _ => heval _ (Nat.le_add_right j k) (Nat.add_le_add_left k.is_le j)⟩
  · rintro ⟨hp, heval⟩
    refine ⟨hp, fun k hk hk' => ?_⟩
    have hnode : t.node j lt ⟨k - j, by omega⟩ = k := Fin.ext (Nat.add_sub_cancel' hk)
    exact hnode ▸ heval _ (Finset.mem_univ _)

/-- **One polynomial** of degree at most three meets four neighbouring nodes. -/
theorem existsUnique_meets (lt : j + 3 < t.size) : ∃! p, t.Meets p j (j + 3) :=
  ⟨_, (meets_iff hx lt).mpr rfl, fun _ hp => (meets_iff hx lt).mp hp⟩

/-- **The cubic** from a node on is the polynomial that meets it and the next three. -/
theorem Meets.cubicFrom_eq (hp : t.Meets p j (j + 3)) (lt : j + 3 < t.size) (x : K) :
    t.cubicFrom j lt x = p.eval x := by
  rw [cubicFrom_eq_eval, ← (meets_iff hx lt).mp hp]

theorem cubicFrom_x (lt : j + 3 < t.size) (k : Fin t.size) (hle : j ≤ k) (hle' : k ≤ j + 3) :
    t.cubicFrom j lt (t.x k) = k * t.stride := by
  obtain ⟨p, hp, -⟩ := existsUnique_meets hx lt
  rw [hp.cubicFrom_eq hx lt, hp.eval_x k hle hle']

/-! ### The piece of an interval -/

/-- Every node is hit. -/
theorem interpolate_x (k : Fin t.size) : t.interpolate (t.x k) = k * t.stride := by
  have hsize := t.four_le_size
  by_cases hk : (k : Nat) + 1 < t.size
  · have hfirst : t.firstX ≤ t.x k := hx.monotone (Nat.zero_le _)
    have hlast : t.x k < t.lastX := hx (Nat.lt_sub_of_add_lt hk)
    obtain ⟨i, lt, hle, hlt, heq⟩ := interpolate_eq hfirst hlast
    have hik : i ≤ k := hx.le_iff_le.mp hle
    have hki : (k : Nat) < i + 1 := hx.lt_iff_lt.mp hlt
    obtain ⟨hstart, hend⟩ := windowStart_le hsize lt
    rw [heq, cubicFrom_x hx _ k (by omega) (by omega)]
  · obtain rfl : k = t.last := Fin.ext (by simp only [last]; omega)
    exact (interpolate_of_le le_rfl).trans (mul_comm _ _)

/-- **An interval** between two nodes, both included, is read by the cubic of its window. -/
theorem interpolate_eq_cubicFrom (lt : i + 1 < t.size) (hle : t.x ⟨i, Nat.lt_of_succ_lt lt⟩ ≤ x)
    (hle' : x ≤ t.x ⟨i + 1, lt⟩) :
    t.interpolate x =
      t.cubicFrom (windowStart t.size i) (windowStart_add_three_lt t.four_le_size lt) x := by
  obtain ⟨hstart, hend⟩ := windowStart_le t.four_le_size lt
  rcases hle'.eq_or_lt with rfl | hlt
  · rw [interpolate_x hx, cubicFrom_x hx _ _ (by simp only; omega) hend]
  · have hfirst : t.firstX ≤ x := (hx.monotone (Nat.zero_le i)).trans hle
    have hlast : x < t.lastX := hlt.trans_le (hx.monotone (Nat.le_sub_one_of_lt lt))
    obtain ⟨j, ltj, hlej, hltj, heq⟩ := interpolate_eq hfirst hlast
    have hij : i < j + 1 := hx.lt_iff_lt.mp (hle.trans_lt hltj)
    have hji : j < i + 1 := hx.lt_iff_lt.mp (hlej.trans_lt hlt)
    obtain rfl : i = j := by omega
    exact heq

theorem exists_interval (hle : t.firstX ≤ x) (hle' : x ≤ t.lastX) :
    ∃ (i : Nat) (lt : i + 1 < t.size), t.x ⟨i, Nat.lt_of_succ_lt lt⟩ ≤ x ∧ x ≤ t.x ⟨i + 1, lt⟩ := by
  rcases hle'.eq_or_lt with rfl | hlt
  · obtain ⟨i, hi⟩ : ∃ i, t.size - 1 = i + 1 := ⟨_, (Nat.sub_add_cancel last_pos).symm⟩
    have hle : i ≤ t.size - 1 := by omega
    exact ⟨i, hi ▸ t.last.isLt, hx.monotone hle, hx.monotone hi.le⟩
  · obtain ⟨i, lt, hi, hi', -⟩ := interpolate_eq hle hlt
    exact ⟨i, lt, hi, hi'.le⟩

/-- A polynomial of degree at most three that meets all nodes is what the table is read as. -/
theorem Meets.interpolate_eq (hp : t.Meets p 0 t.last) (hle : t.firstX ≤ x) (hle' : x ≤ t.lastX) :
    t.interpolate x = p.eval x := by
  obtain ⟨i, lt, hi, hi'⟩ := exists_interval hx hle hle'
  have hwindow := windowStart_add_three_lt t.four_le_size lt
  have hmeets : t.Meets p (windowStart t.size i) (windowStart t.size i + 3) :=
    ⟨hp.natDegree_le, fun k _ hk => hp.eval_x k (Nat.zero_le _) (Nat.le_sub_one_of_lt k.isLt)⟩
  rw [interpolate_eq_cubicFrom hx lt hi hi', hmeets.cubicFrom_eq hx]

theorem cubicFrom_checked (lt : j + 3 < t.size) (x : K) :
    t.checked.cubicFrom j lt (.ok x) = .ok (t.cubicFrom j lt x) := by
  have hne : ∀ {k l : Fin t.size}, (k : Nat) < l → t.x k ≠ t.x l := fun h => (hx h).ne
  refine Checked.lagrangeCubic_ok (hne ?_) (hne ?_) (hne ?_) (hne ?_) (hne ?_) (hne ?_) <;>
    simp only [Nat.lt_add_right_iff_pos] <;> omega

/-- **No quotient is by zero.** -/
theorem interpolate_checked (x : K) :
    t.checked.interpolate (.ok x) = .ok (t.interpolate x) := by
  by_cases h : t.lastX ≤ x
  · rw [interpolate_of_le (Checked.ok_le_ok.mpr h), interpolate_of_le h]
    rfl
  · rw [interpolate_of_not_le (mt Checked.ok_le_ok.mp h), interpolate_of_not_le h]
    simp only [straddle_checked]
    exact cubicFrom_checked hx _ x

end StrictMono

/-! ### Interpolation -/

/-- What a table is read as from its first node to its last. -/
structure PiecewiseCubic (t : Table K) : Prop where
  /-- The one cubic through four neighbouring nodes around the abscissa. -/
  window : ∀ x, t.firstX ≤ x → x ≤ t.lastX → ∃ (j : Nat) (lt : j + 3 < t.size),
    t.x ⟨j, Nat.lt_of_le_of_lt (Nat.le_add_right j 3) lt⟩ ≤ x ∧ x ≤ t.x ⟨j + 3, lt⟩ ∧
      (∃! p, t.Meets p j (j + 3)) ∧ ∀ p, t.Meets p j (j + 3) → t.interpolate x = p.eval x
  node : ∀ k : Fin t.size, t.interpolate (t.x k) = k * t.stride
  /-- One cubic on each interval, both ends included: two intervals share the node between
  them. -/
  piece : ∀ (i : Nat) (lt : i + 1 < t.size), ∃ p : K[X], p.natDegree ≤ 3 ∧
    ∀ x, t.x ⟨i, Nat.lt_of_succ_lt lt⟩ ≤ x → x ≤ t.x ⟨i + 1, lt⟩ → t.interpolate x = p.eval x
  exact : ∀ p : K[X], p.natDegree ≤ 3 → (∀ k : Fin t.size, p.eval (t.x k) = k * t.stride) →
    ∀ x, t.firstX ≤ x → x ≤ t.lastX → t.interpolate x = p.eval x
  /-- No index is a truncated difference. -/
  index : ∀ i, i + 1 < t.size → windowStart t.size i = i ∧ i = 0 ∨
    windowStart t.size i + 1 = i ∨ windowStart t.size i + 2 = i ∧ i + 2 = t.size
  /-- The same definition, in arithmetic without quotients by zero. -/
  checked : ∀ x, t.firstX ≤ x → x ≤ t.lastX →
    t.checked.interpolate (.ok x) = .ok (t.interpolate x)

/-- **A table whose abscissae increase strictly** is read as Lagrange's cubic through four
neighbouring nodes around the abscissa. -/
theorem piecewiseCubic_of_strictMono (hx : StrictMono t.x) : t.PiecewiseCubic where
  window x hle hle' := by
    obtain ⟨i, lt, hi, hi'⟩ := exists_interval hx hle hle'
    have hwindow := windowStart_add_three_lt t.four_le_size lt
    obtain ⟨hstart, hend⟩ := windowStart_le t.four_le_size lt
    refine ⟨windowStart t.size i, hwindow, (hx.monotone hstart).trans hi,
      hi'.trans (hx.monotone hend), existsUnique_meets hx hwindow, fun p hp => ?_⟩
    rw [interpolate_eq_cubicFrom hx lt hi hi', hp.cubicFrom_eq hx]
  node := interpolate_x hx
  piece i lt := by
    obtain ⟨p, hp, -⟩ := existsUnique_meets hx (windowStart_add_three_lt t.four_le_size lt)
    refine ⟨p, hp.natDegree_le, fun x hle hle' => ?_⟩
    rw [interpolate_eq_cubicFrom hx lt hle hle', hp.cubicFrom_eq hx]
  exact p hp heval x hle hle' :=
    Meets.interpolate_eq hx ⟨hp, fun k _ _ => heval k⟩ hle hle'
  index _ lt := windowStart_cases t.four_le_size lt
  checked x _ _ := interpolate_checked hx x

/-- A table of five nodes, each twice as far as the one before. -/
def doubling : Table ℚ := .ofArray #[1, 2, 4, 8, 16] 3 (by decide)

theorem doubling_strictMono : StrictMono doubling.x := by
  show ∀ i j : Fin doubling.size, i < j → doubling.x i < doubling.x j
  decide +kernel

/-- Between the second node and the third, the window starts at the first. -/
theorem piecewiseCubic_of_strictMono_doubling :
    StrictMono doubling.x ∧ doubling.PiecewiseCubic ∧ doubling.interpolate 3 = 137 / 28 := by
  refine ⟨doubling_strictMono, piecewiseCubic_of_strictMono doubling_strictMono, ?_⟩
  rw [interpolate_eq_cubicFrom doubling_strictMono (i := 1) (by decide) (by decide +kernel)
    (by decide +kernel)]
  decide +kernel

end Table

end HyperLogLog
