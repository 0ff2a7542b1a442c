/-!
# Arithmetic

The arithmetic the estimators compute in.  Every statistic of a sketch is defined over a type `α`
with the operations of `Arith`, and over `Elementary` where it needs a root, an exponential or a
logarithm.  `Float` is the type a sketch runs on; an ordered field gives the same definitions
their exact meaning.

The order of operations is part of each definition: nothing is reassociated and nothing is fused.
-/

namespace HyperLogLog

/-- Arithmetic, casts, decimal literals and decidable order tests.  No law is assumed. -/
class Arith (α : Type) where
  [add : Add α]
  [sub : Sub α]
  [mul : Mul α]
  [div : Div α]
  [neg : Neg α]
  [natCast : NatCast α]
  [ofScientific : OfScientific α]
  [lt : LT α]
  [le : LE α]
  [decidableLT : DecidableLT α]
  [decidableLE : DecidableLE α]

/-! A type's own operations come before these. -/

namespace Arith

variable {α : Type} [h : Arith α]

instance (priority := low) instAdd : Add α := h.add
instance (priority := low) instSub : Sub α := h.sub
instance (priority := low) instMul : Mul α := h.mul
instance (priority := low) instDiv : Div α := h.div
instance (priority := low) instNeg : Neg α := h.neg
instance (priority := low) instNatCast : NatCast α := h.natCast
instance (priority := low) instOfScientific : OfScientific α := h.ofScientific
instance (priority := low) instLT : LT α := h.lt
instance (priority := low) instLE : LE α := h.le
instance (priority := low) instDecidableLT : DecidableLT α := h.decidableLT
instance (priority := low) instDecidableLE : DecidableLE α := h.decidableLE

end Arith

/-- Arithmetic with the three elementary functions the estimators use. -/
class Elementary (α : Type) extends Arith α where
  /-- The square root. -/
  sqrt : α → α
  /-- The exponential. -/
  exp : α → α
  /-- The natural logarithm. -/
  log : α → α

/-- The double nearest to a whole number.  Words have a conversion of their own. -/
def nearestDouble (n : Nat) : Float :=
  if n < UInt64.size then n.toUInt64.toFloat else Float.ofNat n

/-- Doubles, each operation rounded once. -/
instance : Elementary Float where
  natCast := ⟨nearestDouble⟩
  sqrt := Float.sqrt
  exp := Float.exp
  log := Float.log

/-- `2 ^ -v`, the weight of a register of value `v`: one, halved `v` times, eight halvings to a
step as long as there are eight.  Every step is exact in doubles. -/
@[specialize]
def invPow2 {α : Type} [Arith α] : (v : Nat) → α
  | v + 8 => invPow2 v / ((256 : Nat) : α)
  | v + 1 => invPow2 v / ((2 : Nat) : α)
  | 0 => ((1 : Nat) : α)

end HyperLogLog
