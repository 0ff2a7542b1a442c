import HyperLogLog.Limits

/-!
# Precision, encodings and baselines

A sketch of precision `p` has `2 ^ p.lg` registers.  Its registers are stored in one of three
encodings, and its statistics know the smallest value the encoding keeps track of and how many
registers hold it.
-/

namespace HyperLogLog

/-- A supported logarithm of the register count. -/
structure Precision where
  lg : Nat
  minLgK_le : minLgK ≤ lg
  le_maxLgK : lg ≤ maxLgK
deriving DecidableEq

namespace Precision

/-- The precision with a given logarithm, if it is supported. -/
def ofNat? (lg : Nat) : Option Precision :=
  if h : minLgK ≤ lg ∧ lg ≤ maxLgK then some ⟨lg, h.1, h.2⟩ else none

/-- The number of registers. -/
def slots (p : Precision) : Nat := Nat.pow 2 p.lg

theorem eq_of_lg {p q : Precision} (h : p.lg = q.lg) : p = q := by
  cases p
  cases q
  congr

theorem slots_pos (p : Precision) : 0 < p.slots := Nat.two_pow_pos _

/-- The position of a precision among the supported ones. -/
def index (p : Precision) : Fin (maxLgK - minLgK + 1) :=
  ⟨p.lg - minLgK, Nat.lt_succ_of_le (Nat.sub_le_sub_right p.le_maxLgK minLgK)⟩

/-- The precision at a position. -/
def ofIndex (i : Fin (maxLgK - minLgK + 1)) : Precision where
  lg := i + minLgK
  minLgK_le := Nat.le_add_left minLgK i
  le_maxLgK := Nat.add_le_of_le_sub (by decide) (Nat.le_of_lt_succ i.isLt)

theorem ofIndex_index (p : Precision) : ofIndex p.index = p := by
  obtain ⟨lg, hmin, hmax⟩ := p
  simp only [ofIndex, index, Nat.sub_add_cancel hmin]

/-- What holds of all precisions can be decided, since they are finitely many. -/
instance (P : Precision → Prop) [DecidablePred P] : Decidable (∀ p, P p) :=
  decidable_of_iff (∀ i, P (ofIndex i)) ⟨fun h p => p.ofIndex_index ▸ h p.index, fun h _ => h _⟩

end Precision

/-- How the registers are stored. -/
inductive Encoding where
  /-- Nibbles that hold offsets from a moving baseline, with an overflow map. -/
  | hll4
  /-- Six bits a register. -/
  | hll6
  /-- A byte a register. -/
  | hll8
deriving DecidableEq, Repr

namespace Encoding

/-- The written name of an encoding. -/
def name : Encoding → String
  | hll4 => "Hll4"
  | hll6 => "Hll6"
  | hll8 => "Hll8"

/-- The encoding of a written name. -/
def ofName? : String → Option Encoding
  | "Hll4" => some hll4
  | "Hll6" => some hll6
  | "Hll8" => some hll8
  | _ => none

end Encoding

/-- A register value that no register is below, and the number of registers at it. -/
structure Baseline where
  value : Nat
  count : Nat
deriving DecidableEq, Repr

namespace Baseline

/-- The smallest of the values, and how often it occurs. -/
def ofMinimum (values : Array Nat) : Baseline :=
  let least := values.toList.min?.getD 0
  ⟨least, values.count least⟩

/-- Zero, and how often it occurs. -/
def ofZeros (values : Array Nat) : Baseline :=
  ⟨0, values.count 0⟩

end Baseline

end HyperLogLog
