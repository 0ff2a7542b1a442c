import HyperLogLog.Arith

/-!
# Harmonic numbers and linear counting

To hit `h` of `k` registers takes `k * (H k - H (k - h))` distinct items on average, where `H` is
the harmonic number: the coupon collector's sum.  Up to `H 24` the number is one exact quotient,
beyond that its asymptotic expansion.
-/

namespace HyperLogLog

variable {α : Type} [Elementary α]

/-- The first argument the expansion is used for. -/
def harmonicSplit : Nat := 25

/-- The harmonic numbers below `harmonicSplit`, as numerators and denominators. -/
def harmonicTable : Vector (Nat × Nat) harmonicSplit :=
  #v[(0, 1), (1, 1), (3, 2), (11, 6), (25, 12), (137, 60), (49, 20), (363, 140), (761, 280),
    (7129, 2520), (7381, 2520), (83711, 27720), (86021, 27720), (1145993, 360360),
    (1171733, 360360), (1195757, 360360), (2436559, 720720), (42142223, 12252240),
    (14274301, 4084080), (275295799, 77597520), (55835135, 15519504), (18858053, 5173168),
    (19093197, 5173168), (444316699, 118982864), (1347822955, 356948592)]

/-- The quotient in the table. -/
def harmonicExact (n : Fin harmonicSplit) : α :=
  ((harmonicTable.get n).1 : α) / ((harmonicTable.get n).2 : α)

/-- The `n`-th harmonic number from its expansion in powers of `1 / n`, to the eighth. -/
def harmonicExpansion (n : Nat) : α :=
  let one : α := ((1 : Nat) : α)
  let x : α := (n : α)
  let square := one / (x * x)
  let fourth := square * square
  let sixth := fourth * square
  let eighth := sixth * square
  Elementary.log x + 0.5772156649015329 + one / (((2 : Nat) : α) * x)
    - square * (one / ((12 : Nat) : α))
    + fourth * (one / ((120 : Nat) : α))
    - sixth * (one / ((252 : Nat) : α))
    + eighth * (one / ((240 : Nat) : α))

/-- The `n`-th harmonic number. -/
def harmonic (n : Nat) : α :=
  if h : n < harmonicSplit then harmonicExact ⟨n, h⟩ else harmonicExpansion n

theorem harmonic_of_lt {n : Nat} (h : n < harmonicSplit) :
    (harmonic n : α) = harmonicExact ⟨n, h⟩ := dif_pos h

theorem harmonic_of_le {n : Nat} (h : harmonicSplit ≤ n) :
    (harmonic n : α) = harmonicExpansion n := dif_neg (Nat.not_lt.mpr h)

/-- The number of distinct items that hit `hit` of `k` registers, on average. -/
def linearCount (k hit : Nat) : α :=
  (k : α) * (harmonic k - harmonic (k - hit))

end HyperLogLog
