import HyperLogLog.Arith

/-!
# Cubic interpolation

A table pairs increasing abscissae with ordinates at a constant stride: node `i` is the point
`(x i, i * stride)`.  Between two nodes the table is read by the cubic through four consecutive
nodes around them, in Lagrange's form; the two nodes lie in the middle of the four except at
either end of the table.
-/

namespace HyperLogLog

/-- Increasing abscissae, at least four, and the stride of the ordinates. -/
structure Table (α : Type) where
  size : Nat
  x : Fin size → α
  stride : α
  four_le_size : 4 ≤ size

namespace Table

variable {α : Type}

/-- The index of the last node. -/
def last (t : Table α) : Fin t.size :=
  ⟨t.size - 1, Nat.sub_lt (Nat.lt_of_lt_of_le (by decide) t.four_le_size) Nat.one_pos⟩

/-- The smallest abscissa. -/
def firstX (t : Table α) : α :=
  t.x ⟨0, Nat.lt_of_lt_of_le (by decide) t.four_le_size⟩

/-- The largest abscissa. -/
def lastX (t : Table α) : α := t.x t.last

/-- The table of a list of abscissae. -/
def ofArray (xs : Array α) (stride : α) (four_le : 4 ≤ xs.size) : Table α :=
  ⟨xs.size, fun i => xs[i], stride, four_le⟩

end Table

/-- The first of the four nodes around `[i, i + 1]` in a table of `size` nodes. -/
def windowStart (size i : Nat) : Nat :=
  if i = 0 then 0
  else if i + 2 = size then i - 2
  else i - 1

/-- The four nodes around an interval of the table are in the table. -/
theorem windowStart_add_three_lt {size i : Nat} (four_le : 4 ≤ size) (lt : i + 1 < size) :
    windowStart size i + 3 < size := by
  unfold windowStart
  split
  · omega
  · split <;> omega

variable {α : Type} [Arith α]

/-- The value at `x` of the cubic through four points, the sum of Lagrange's four terms. -/
@[specialize]
def lagrangeCubic (x₀ y₀ x₁ y₁ x₂ y₂ x₃ y₃ x : α) : α :=
  y₀ * ((x - x₁) * (x - x₂) * (x - x₃)) / ((x₀ - x₁) * (x₀ - x₂) * (x₀ - x₃))
    + y₁ * ((x - x₀) * (x - x₂) * (x - x₃)) / ((x₁ - x₀) * (x₁ - x₂) * (x₁ - x₃))
    + y₂ * ((x - x₀) * (x - x₁) * (x - x₃)) / ((x₂ - x₀) * (x₂ - x₁) * (x₂ - x₃))
    + y₃ * ((x - x₀) * (x - x₁) * (x - x₂)) / ((x₃ - x₀) * (x₃ - x₁) * (x₃ - x₂))

namespace Table

/-- The ordinate of a node. -/
@[specialize]
def y (t : Table α) (i : Nat) : α := t.stride * (i : α)

/-- Halves `[low, high]` until it is one step wide, keeping `x low ≤ x < x high`. -/
@[specialize]
def straddle (t : Table α) (x : α) (low high : Nat) (lt : low < high) (high_lt : high < t.size) :
    { i : Nat // i + 1 < t.size } :=
  if h : low + 1 < high then
    if t.x ⟨low + (high - low) / 2, by omega⟩ ≤ x then
      t.straddle x (low + (high - low) / 2) high (by omega) high_lt
    else
      t.straddle x low (low + (high - low) / 2) (by omega) (by omega)
  else ⟨low, by omega⟩
termination_by high - low

/-- The cubic through the four nodes from `i` on. -/
@[specialize]
def cubicFrom (t : Table α) (i : Nat) (lt : i + 3 < t.size) (x : α) : α :=
  lagrangeCubic (t.x ⟨i, by omega⟩) (t.y i) (t.x ⟨i + 1, by omega⟩) (t.y (i + 1))
    (t.x ⟨i + 2, by omega⟩) (t.y (i + 2)) (t.x ⟨i + 3, lt⟩) (t.y (i + 3)) x

/-- The ordinate at an abscissa between the first node's and the last. -/
@[specialize]
def interpolate (t : Table α) (x : α) : α :=
  if t.lastX ≤ x then t.y t.last
  else
    have := t.four_le_size
    let ⟨i, lt⟩ := t.straddle x 0 t.last (by simp only [last]; omega) t.last.isLt
    t.cubicFrom (windowStart t.size i) (windowStart_add_three_lt this lt) x

end Table

end HyperLogLog
