import HyperLogLog.Estimate.Interpolation
import HyperLogLog.Proofs.Accumulator.Exact
import Mathlib.Tactic.FieldSimp
import Mathlib.Tactic.Linarith
import Mathlib.Tactic.LinearCombination
import Mathlib.Tactic.Positivity
import Mathlib.Tactic.Ring

/-!
# Interpolation over an ordered field

The search ends at two neighbouring nodes around the abscissa (`Table.straddle_spec`), so a table is
read by the cubic through four nodes around it (`Table.interpolate_eq`).  At a constant stride that
cubic is, in Newton's form, a line with two corrections, which the changes between neighbouring gaps
determine (`lagrangeCubic_eq_newton`).

Gaps that change by little from one to the next (`EvenGaps`) keep the corrections small: the cubic
is not negative right of its first node (`EvenGaps.newton_nonneg`), and in its middle interval it is
near the line through the two nodes (`EvenGaps.abs_newton_sub_le`).  So a table with even gaps
(`Table.EvenlySpaced`) has no negative ordinates to read off.
-/

namespace HyperLogLog

/-! ### The search -/

/-- The window of an interval starts at it, one node before or, at the right end of the table, two.
The differences are not truncated. -/
theorem windowStart_cases {size i : Nat} (four_le : 4 ≤ size) (_ : i + 1 < size) :
    windowStart size i = i ∧ i = 0 ∨ windowStart size i + 1 = i ∨
      windowStart size i + 2 = i ∧ i + 2 = size := by
  unfold windowStart
  split_ifs <;> omega

/-- An interval lies in its window. -/
theorem windowStart_le {size i : Nat} (four_le : 4 ≤ size) (lt : i + 1 < size) :
    windowStart size i ≤ i ∧ i + 1 ≤ windowStart size i + 3 := by
  have hcases := windowStart_cases four_le lt
  omega

namespace Table

section Arith

variable {α : Type} {t : Table α} {x : α}

theorem last_pos : 0 < (t.last : Nat) := by
  have := t.four_le_size
  simp only [last]
  omega

variable [Arith α]

theorem interpolate_of_le (h : t.lastX ≤ x) : t.interpolate x = t.y t.last := if_pos h

theorem interpolate_of_not_le (h : ¬ t.lastX ≤ x) :
    t.interpolate x = t.cubicFrom
      (windowStart t.size (t.straddle x 0 t.last last_pos t.last.isLt).1)
      (windowStart_add_three_lt t.four_le_size
        (t.straddle x 0 t.last last_pos t.last.isLt).2) x :=
  if_neg h

end Arith

end Table

variable {K : Type} [Field K] [LinearOrder K]

namespace Table

variable {t : Table K} {x : K} {low high : Nat}

/-- **The search** ends with the abscissa between two neighbouring nodes. -/
theorem straddle_spec (lt : low < high) (high_lt : high < t.size)
    (hlow : t.x ⟨low, lt.trans high_lt⟩ ≤ x) (hhigh : x < t.x ⟨high, high_lt⟩) :
    t.x ⟨(t.straddle x low high lt high_lt).1,
        Nat.lt_of_succ_lt (t.straddle x low high lt high_lt).2⟩ ≤ x ∧
      x < t.x ⟨(t.straddle x low high lt high_lt).1 + 1, (t.straddle x low high lt high_lt).2⟩ := by
  fun_induction straddle t x low high lt high_lt with
  | case1 low high lt high_lt h hle ih => exact ih hle hhigh
  | case2 low high lt high_lt h hnot ih => exact ih hlow (not_le.mp hnot)
  | case3 low high lt high_lt h =>
      obtain rfl : high = low + 1 := by omega
      exact ⟨hlow, hhigh⟩

/-- Left of the last node a table is read by the cubic of an interval around the abscissa. -/
theorem interpolate_eq (hfirst : t.firstX ≤ x) (hlast : x < t.lastX) :
    ∃ (i : Nat) (lt : i + 1 < t.size), t.x ⟨i, Nat.lt_of_succ_lt lt⟩ ≤ x ∧ x < t.x ⟨i + 1, lt⟩ ∧
      t.interpolate x =
        t.cubicFrom (windowStart t.size i) (windowStart_add_three_lt t.four_le_size lt) x := by
  obtain ⟨hle, hlt⟩ := straddle_spec last_pos t.last.isLt hfirst hlast
  exact ⟨_, (t.straddle x 0 t.last last_pos t.last.isLt).2, hle, hlt,
    interpolate_of_not_le hlast.not_ge⟩

end Table

/-! ### Newton's form -/

/-- The second difference quotient of the ordinates 0, 1, 2 over two gaps. -/
def bend (a b : K) : K := (1 / b - 1 / a) / (a + b)

/-- The third difference quotient of the ordinates 0, 1, 2, 3 over three gaps. -/
def twist (a b c : K) : K := (bend b c - bend a b) / (a + b + c)

/-- The cubic through the ordinates 0, 1, 2, 3 over three gaps, in Newton's form, `u` right of the
first node. -/
def newton (a b c u : K) : K :=
  u * (1 / a + (u - a) * (bend a b + (u - (a + b)) * twist a b c))

variable [IsStrictOrderedRing K] {a b c u w : K}

/-- **Lagrange's form** is Newton's, if the ordinates have a constant stride. -/
theorem lagrangeCubic_eq_newton {x₀ x₁ x₂ x₃ : K} (h₁ : x₀ < x₁) (h₂ : x₁ < x₂) (h₃ : x₂ < x₃)
    (s n x : K) :
    lagrangeCubic x₀ (s * n) x₁ (s * (n + 1)) x₂ (s * (n + 2)) x₃ (s * (n + 3)) x =
      s * (n + newton (x₁ - x₀) (x₂ - x₁) (x₃ - x₂) (x - x₀)) := by
  have h₁₀ : x₁ - x₀ ≠ 0 := (sub_pos.mpr h₁).ne'
  have h₂₁ : x₂ - x₁ ≠ 0 := (sub_pos.mpr h₂).ne'
  have h₃₂ : x₃ - x₂ ≠ 0 := (sub_pos.mpr h₃).ne'
  have h₂₀ : x₂ - x₀ ≠ 0 := (sub_pos.mpr (h₁.trans h₂)).ne'
  have h₃₁ : x₃ - x₁ ≠ 0 := (sub_pos.mpr (h₂.trans h₃)).ne'
  have h₃₀ : x₃ - x₀ ≠ 0 := (sub_pos.mpr (h₁.trans (h₂.trans h₃))).ne'
  rw [lagrangeCubic, newton, twist, bend, bend, ← neg_sub x₁ x₀, ← neg_sub x₂ x₀, ← neg_sub x₃ x₀,
    ← neg_sub x₂ x₁, ← neg_sub x₃ x₁, ← neg_sub x₃ x₂]
  simp only [sub_add_sub_cancel', sub_sub_sub_cancel_right]
  field_simp
  ring

/-! ### Even gaps -/

/-- A positive gap and the next one, which is not much smaller or larger. -/
structure EvenGaps (a b : K) : Prop where
  pos : 0 < a
  le : 15 / 16 * a ≤ b
  ge : b ≤ 8 / 7 * a

namespace EvenGaps

variable (h : EvenGaps a b) (h' : EvenGaps b c)

include h

theorem pos_right : 0 < b := lt_of_lt_of_le (by linarith [h.pos]) h.le

theorem abs_bend_le : a ^ 2 * |bend a b| ≤ 1 / 16 := by
  have ha := h.pos
  have hb := h.pos_right
  have hbend : a ^ 2 * |bend a b| = a * |a - b| / (b * (a + b)) := by
    rw [bend, div_sub_div _ _ hb.ne' ha.ne', abs_div, abs_div, abs_of_pos (add_pos ha hb),
      abs_of_pos (mul_pos hb ha)]
    field_simp
  rw [hbend, div_le_div_iff₀ (by positivity) (by positivity)]
  rcases abs_cases (a - b) with ⟨habs, _⟩ | ⟨habs, _⟩ <;> rw [habs] <;> nlinarith [h.le, h.ge]

include h'

/-- The two corrections together, in units of the first gap. -/
theorem abs_correction_le (hw : |w| ≤ a + b) : a ^ 2 * |bend a b + w * twist a b c| ≤ 1 / 5 := by
  have ha := h.pos
  have hb := h'.pos
  have hc := h'.pos_right
  have hfirst := h.abs_bend_le
  have hsecond : a ^ 2 * |bend b c| ≤ 16 / 225 := by
    have hscale : a ^ 2 ≤ (16 / 15) ^ 2 * b ^ 2 := by
      rw [← mul_pow]
      exact pow_le_pow_left₀ ha.le (by linarith [h.le]) 2
    calc a ^ 2 * |bend b c| ≤ (16 / 15) ^ 2 * b ^ 2 * |bend b c| := by gcongr
      _ ≤ (16 / 15) ^ 2 * (1 / 16) := by
        rw [mul_assoc]
        gcongr
        exact h'.abs_bend_le
      _ = 16 / 225 := by norm_num
  have htwist : |w * twist a b c| ≤ |bend b c| + |bend a b| := by
    rw [twist, ← mul_div_assoc, abs_div, abs_of_pos (by positivity : 0 < a + b + c),
      div_le_iff₀ (by positivity), abs_mul, mul_comm]
    gcongr
    · exact abs_sub _ _
    · linarith
  calc a ^ 2 * |bend a b + w * twist a b c|
      ≤ a ^ 2 * (|bend a b| + (|bend b c| + |bend a b|)) := by
        gcongr
        exact (abs_add_le _ _).trans (by gcongr)
    _ ≤ 1 / 5 := by linarith

/-- **Right of its first node** the cubic is not negative. -/
theorem newton_nonneg (h0 : 0 ≤ u) (hu : u ≤ a + b + c) : 0 ≤ newton a b c u := by
  have ha := h.pos
  have hw : |u - (a + b)| ≤ a + b := abs_le.mpr ⟨by linarith, by linarith [h.ge, h'.ge]⟩
  have hu' : |u - a| ≤ 5 / 2 * a := abs_le.mpr ⟨by linarith, by linarith [h.ge, h'.ge]⟩
  have hcorrection := h.abs_correction_le h' hw
  rw [newton]
  generalize bend a b + (u - (a + b)) * twist a b c = q at hcorrection
  -- the corrections take no more than half of the slope away
  have hsmall : a * |(u - a) * q| ≤ 1 / 2 :=
    calc a * |(u - a) * q| ≤ a * (5 / 2 * a * |q|) := by
          rw [abs_mul]
          gcongr
      _ = 5 / 2 * (a ^ 2 * |q|) := by ring
      _ ≤ 1 / 2 := by linarith
  have hslope : 0 ≤ a * (1 / a + (u - a) * q) := by
    rw [mul_add, mul_one_div_cancel ha.ne']
    have hneg := mul_le_mul_of_nonneg_left (neg_abs_le ((u - a) * q)) ha.le
    linarith
  exact mul_nonneg h0 (nonneg_of_mul_nonneg_right hslope ha)

/-- The cubic as a correction of the line through its middle nodes. -/
theorem newton_eq_line (u : K) :
    newton a b c u =
      1 + (u - a) / b + (u - a) * (u - (a + b)) * (bend a b + u * twist a b c) := by
  have ha := h.pos
  have hb := h'.pos
  have hbend : (a + b) * bend a b = 1 / b - 1 / a := mul_div_cancel₀ _ (add_pos ha hb).ne'
  have hone : a * (1 / a) = 1 := mul_one_div_cancel ha.ne'
  rw [newton]
  linear_combination (u - a) * hbend + hone

/-- **In its middle interval** the cubic is near the line. -/
theorem abs_newton_sub_le (h0 : a ≤ u) (hu : u ≤ a + b) :
    |newton a b c u - (1 + (u - a) / b)| ≤ 1 / 15 := by
  have ha := h.pos
  have hw : |u| ≤ a + b := by rwa [abs_of_nonneg (ha.le.trans h0)]
  -- the product of the distances is largest in the middle
  have hdist : |(u - a) * (u - (a + b))| ≤ 16 / 49 * a ^ 2 := by
    rw [abs_of_nonpos (mul_nonpos_of_nonneg_of_nonpos (by linarith) (by linarith))]
    nlinarith [sq_nonneg (2 * u - 2 * a - b), h.ge, h'.pos]
  have hcorrection := h.abs_correction_le h' hw
  rw [h.newton_eq_line h', add_sub_cancel_left, abs_mul]
  calc |(u - a) * (u - (a + b))| * |bend a b + u * twist a b c|
      ≤ 16 / 49 * a ^ 2 * |bend a b + u * twist a b c| := by gcongr
    _ ≤ 1 / 15 := by linarith

end EvenGaps

/-! ### Tables with even gaps -/

namespace Table

variable {t : Table K} {x : K} {i j : Nat}

/-- The distance from a node to the next. -/
def gap (t : Table K) (i : Nat) (lt : i + 1 < t.size) : K :=
  t.x ⟨i + 1, lt⟩ - t.x ⟨i, Nat.lt_of_succ_lt lt⟩

/-- Neighbouring gaps of the abscissae are even. -/
def EvenlySpaced (t : Table K) : Prop :=
  ∀ (i : Nat) (lt : i + 1 + 1 < t.size),
    EvenGaps (t.gap i (Nat.lt_of_succ_lt lt)) (t.gap (i + 1) lt)

namespace EvenlySpaced

variable (h : t.EvenlySpaced)

include h

theorem gap_pos (lt : i + 1 < t.size) : 0 < t.gap i lt := by
  have hsize := t.four_le_size
  by_cases hi : i + 1 + 1 < t.size
  · exact (h i hi).pos
  · -- the last gap is the second of a pair
    obtain ⟨i, rfl⟩ : ∃ j, i = j + 1 := ⟨i - 1, by omega⟩
    exact (h i lt).pos_right

theorem x_lt_x_succ (lt : i + 1 < t.size) : t.x ⟨i, Nat.lt_of_succ_lt lt⟩ < t.x ⟨i + 1, lt⟩ :=
  sub_pos.mp (h.gap_pos lt)

/-- The abscissae increase. -/
theorem x_lt_x (hij : i < j) (lt : j < t.size) : t.x ⟨i, hij.trans lt⟩ < t.x ⟨j, lt⟩ := by
  induction j, hij using Nat.le_induction with
  | base => exact h.x_lt_x_succ lt
  | succ j hij ih => exact (ih (Nat.lt_of_succ_lt lt)).trans (h.x_lt_x_succ lt)

theorem strictMono : StrictMono t.x := fun _ j hij => h.x_lt_x hij j.isLt

theorem x_le_x (hij : i ≤ j) (lt : j < t.size) : t.x ⟨i, hij.trans_lt lt⟩ ≤ t.x ⟨j, lt⟩ := by
  rcases hij.eq_or_lt with rfl | hlt
  · exact le_rfl
  · exact (h.x_lt_x hlt lt).le

/-- The cubic from a node on, in Newton's form. -/
theorem cubicFrom_eq (lt : i + 1 + 1 + 1 < t.size) (x : K) :
    t.cubicFrom i lt x = t.stride * (i + newton (t.gap i (Nat.lt_of_succ_lt (Nat.lt_of_succ_lt lt)))
      (t.gap (i + 1) (Nat.lt_of_succ_lt lt)) (t.gap (i + 1 + 1) lt)
      (x - t.x ⟨i, Nat.lt_of_succ_lt (Nat.lt_of_succ_lt (Nat.lt_of_succ_lt lt))⟩)) := by
  simp only [gap]
  rw [← lagrangeCubic_eq_newton (h.x_lt_x_succ _) (h.x_lt_x_succ _) (h.x_lt_x_succ _)]
  simp only [cubicFrom, y, Nat.cast_add, Nat.cast_one, Nat.cast_ofNat]

/-- **No ordinate that is read off is negative.** -/
theorem interpolate_nonneg (hstride : 0 ≤ t.stride) (hfirst : t.firstX ≤ x) :
    0 ≤ t.interpolate x := by
  by_cases hlast : t.lastX ≤ x
  · rw [interpolate_of_le hlast]
    exact mul_nonneg hstride (Nat.cast_nonneg _)
  · obtain ⟨i, lt, hle, hlt, heq⟩ := interpolate_eq hfirst (not_le.mp hlast)
    have hwindow := windowStart_add_three_lt t.four_le_size lt
    have hstart := windowStart_le t.four_le_size lt
    have hleft := (h.x_le_x hstart.1 (Nat.lt_of_succ_lt lt)).trans hle
    have hright := hlt.le.trans (h.x_le_x hstart.2 hwindow)
    rw [heq, h.cubicFrom_eq]
    refine mul_nonneg hstride (add_nonneg (Nat.cast_nonneg _) ?_)
    refine (h _ (Nat.lt_of_succ_lt hwindow)).newton_nonneg (h _ hwindow) (sub_nonneg.mpr hleft) ?_
    simp only [gap]
    linarith

/-- **Within the table** an ordinate is near the line through the two nodes around it. -/
theorem abs_interpolate_sub_le (hstride : 0 ≤ t.stride) (pos : 0 < i) (lt : i + 1 + 1 < t.size)
    (hle : t.x ⟨i, Nat.lt_of_succ_lt (Nat.lt_of_succ_lt lt)⟩ ≤ x)
    (hlt : x < t.x ⟨i + 1, Nat.lt_of_succ_lt lt⟩) :
    |t.interpolate x - t.stride * (i + (x - t.x ⟨i, Nat.lt_of_succ_lt (Nat.lt_of_succ_lt lt)⟩) /
      t.gap i (Nat.lt_of_succ_lt lt))| ≤ t.stride / 15 := by
  have hfirst : t.firstX ≤ x := (h.x_le_x (Nat.zero_le i) _).trans hle
  have hlast : x < t.lastX :=
    hlt.trans_le (h.x_le_x (Nat.le_sub_one_of_lt (Nat.lt_of_succ_lt lt)) t.last.isLt)
  obtain ⟨j, ltj, hlej, hltj, heq⟩ := interpolate_eq hfirst hlast
  -- the abscissae increase, so no other interval is around `x`
  obtain rfl : i = j := by
    by_contra hne
    rcases Nat.lt_or_gt_of_ne hne with hj | hj
    · exact (hlt.trans_le ((h.x_le_x hj _).trans hlej)).false
    · exact (hltj.trans_le ((h.x_le_x hj _).trans hle)).false
  obtain ⟨i, rfl⟩ : ∃ m, i = m + 1 := ⟨i - 1, (Nat.sub_add_cancel pos).symm⟩
  have hwindow : windowStart t.size (i + 1) = i := by
    rw [windowStart, if_neg (Nat.succ_ne_zero i), if_neg lt.ne, Nat.add_sub_cancel]
  have hdist : x - t.x ⟨i, by omega⟩ - t.gap i (by omega) = x - t.x ⟨i + 1, by omega⟩ :=
    sub_sub_sub_cancel_right _ _ _
  have hnear := (h i (by omega)).abs_newton_sub_le (h (i + 1) lt) (u := x - t.x ⟨i, by omega⟩)
    (by simp only [gap]; linarith) (by simp only [gap]; linarith)
  rw [hdist] at hnear
  simp only [heq, hwindow, h.cubicFrom_eq]
  rw [← mul_sub, abs_mul, abs_of_nonneg hstride, Nat.cast_add, Nat.cast_one,
    add_assoc (i : K), add_sub_add_left_eq_sub, div_eq_mul_one_div t.stride]
  exact mul_le_mul_of_nonneg_left hnear hstride

end EvenlySpaced

end Table

end HyperLogLog
