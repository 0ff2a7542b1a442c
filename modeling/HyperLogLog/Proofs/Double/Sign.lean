import HyperLogLog.Proofs.Double.Exact

/-!
# Doubles — signs

A double is *nonnegative* when it is a number, finite or not, and its sign is positive: the one kind
of double that sums and quotients do not leave.  A nonnegative double equals itself
(`Nonnegative.beq_self`), which a double that is not a number does not, and no other
(`Nonnegative.beq_iff`), as the two zeros do.

* `Nonnegative.add`: two infinities of one sign have a sum.
* `Nonnegative.dyadic_div`: a finite double other than zero has a quotient by anything nonnegative.
-/

namespace HyperLogLog.Double

open Float.Model Float.Model.UnpackedFloat

/-- A number, finite or not, with a positive sign. -/
def Unsigned : UnpackedFloat → Prop
  | .notANumber => False
  | .infinity s | .zero s | .finite s _ _ _ => s = .positive

variable {u v : UnpackedFloat} {n : Nat} {e : Int}

theorem unsigned_exact (n : Nat) (e : Int) : Unsigned (exact n e) := by
  rw [exact]
  split <;> rfl

/-! ### Operations -/

theorem unsigned_roundWithAccuracy (n : Nat) (e : Int) (a : Accuracy) :
    Unsigned (roundWithAccuracy .binary64 .positive n e a) := by
  rw [roundWithAccuracy]
  dsimp only
  split <;> rfl

theorem unsigned_normalize (n : Nat) (e : Int) :
    Unsigned (UnpackedFloat.normalize .binary64 (n : Int) e .positive) := by
  rw [UnpackedFloat.normalize]
  split
  · rename_i h
    exact absurd (Int.compare_eq_lt.mp h) (Int.not_lt.mpr (Int.natCast_nonneg n))
  · rfl
  · exact unsigned_roundWithAccuracy _ _ _

theorem Unsigned.add (hu : Unsigned u) (hv : Unsigned v) :
    Unsigned (UnpackedFloat.add .binary64 u v) := by
  match u, v, hu, hv with
  | .infinity _, .infinity _, rfl, rfl => rfl
  | .infinity _, .zero _, rfl, rfl => rfl
  | .infinity _, .finite _ _ _ _, rfl, rfl => rfl
  | .zero _, .infinity _, rfl, rfl => rfl
  | .zero _, .zero _, rfl, rfl => rfl
  | .zero _, .finite _ _ _ _, rfl, rfl => rfl
  | .finite _ _ _ _, .infinity _, rfl, rfl => rfl
  | .finite _ _ _ _, .zero _, rfl, rfl => rfl
  | .finite _ _ _ _, .finite _ _ _ _, rfl, rfl => exact unsigned_normalize _ _

/-- A finite number that is not zero, divided by anything positive. -/
theorem Unsigned.finite_div (h : 0 < n) (hv : Unsigned v) :
    Unsigned (UnpackedFloat.div .binary64 (.finite .positive n e h) v) := by
  match v, hv with
  | .infinity _, rfl => rfl
  | .zero _, rfl => rfl
  | .finite _ _ _ _, rfl => exact unsigned_roundWithAccuracy _ _ _

/-! ### Packing -/

theorem unsigned_unpack {x : BitVec 11} {y : BitVec 52} (h : x = -1#11 → y = 0#52) :
    Unsigned (UnpackedFloat.unpack .binary64 (packComponents .binary64 .positive x y)) := by
  rw [unpack_packComponents]
  split_ifs with h₁ h₂
  · rfl
  · exact absurd (h h₁) h₂
  · rfl
  · rfl
  · rfl

/-- Packing may round to infinity, but it does not change the sign. -/
theorem Unsigned.unpack_pack (hu : Unsigned u) :
    Unsigned (UnpackedFloat.unpack .binary64 (UnpackedFloat.pack .binary64 u)) := by
  match u, hu with
  | .infinity _, rfl => exact unsigned_unpack fun _ => rfl
  | .zero _, rfl => exact unsigned_unpack fun h => absurd h (by decide)
  | .finite _ n e _, rfl =>
      rw [UnpackedFloat.pack]
      simp only []
      split_ifs with h₁ h₂
      · exact unsigned_unpack fun _ => rfl
      · refine unsigned_unpack fun h => absurd (congrArg BitVec.toNat h) ?_
        rw [BitVec.toNat_ofNat, show (-1#11).toNat = 2047 from rfl]
        have hroom : (e + Format.binary64.exponentBias +
            Format.binary64.mantissaBitsWithoutImplicit).toNat + 1 < 2 ^ 11 := not_le.mp h₁
        omega
      · exact unsigned_unpack fun h => absurd h (by decide)

/-- A number equals itself. -/
theorem Unsigned.compare_eq (hu : Unsigned u) : u.compare u = some .eq := by
  match u, hu with
  | .infinity _, rfl => rfl
  | .zero _, rfl => rfl
  | .finite _ n e _, rfl =>
      show some ((compare e e).then (compare n n)) = _
      rw [Int.compare_eq_eq.mpr rfl, Nat.compare_eq_eq.mpr rfl]
      rfl

/-! ### Doubles -/

/-- A double that is a number, finite or not, with a positive sign. -/
def Nonnegative (x : Float) : Prop := Unsigned x.toModel.unpack

variable {x y : Float}

theorem nonnegative_dyadic (hn : n < 2 ^ 53) (he : -1022 ≤ e) (he' : e ≤ 971) :
    Nonnegative (dyadic n e) := by
  rw [Nonnegative, unpack_dyadic hn he he']
  exact unsigned_exact n e

theorem Nonnegative.add (hx : Nonnegative x) (hy : Nonnegative y) : Nonnegative (x + y) :=
  (Unsigned.add hx hy).unpack_pack

/-- A finite double that is not zero, divided by anything nonnegative. -/
theorem Nonnegative.dyadic_div (h₀ : n ≠ 0) (hn : n < 2 ^ 53) (he : -1022 ≤ e) (he' : e ≤ 971)
    (hy : Nonnegative y) : Nonnegative (dyadic n e / y) := by
  have hdiv : Unsigned (UnpackedFloat.div .binary64 (dyadic n e).toModel.unpack
      y.toModel.unpack) := by
    rw [unpack_dyadic hn he he', exact_of_ne_zero h₀]
    exact Unsigned.finite_div _ hy
  exact hdiv.unpack_pack

/-- **A nonnegative double equals itself.** -/
theorem Nonnegative.beq_self (hx : Nonnegative x) : (x == x) = true := by
  show (x.toModel.unpack.compare x.toModel.unpack == some .eq) = true
  rw [Unsigned.compare_eq hx]
  rfl

/-- **Nonnegative doubles are equal only if they are the same**: there is one zero of their sign. -/
theorem Nonnegative.beq_iff (hx : Nonnegative x) (hy : Nonnegative y) :
    (x == y) = true ↔ x = y := by
  constructor
  · intro h
    have hunpack : x.toModel.unpack.beq y.toModel.unpack = true := h
    rw [beq_iff_ne_notANumber_and_eq] at hunpack
    obtain ⟨-, -, heq | ⟨-, hneg⟩ | ⟨hneg, -⟩⟩ := hunpack
    · have hbits := (unpack_inj_of_valid x.toModel.valid y.toModel.valid).mp heq
      exact Float.toBits_inj.mp (UInt64.toBitVec_inj.mp hbits)
    · rw [Nonnegative, hneg] at hy
      cases hy
    · rw [Nonnegative, hneg] at hx
      cases hx
  · rintro rfl
    exact hx.beq_self

end HyperLogLog.Double
