import HyperLogLog.Coupon
import HyperLogLog.Fault

/-!
# The overflow map

An open-addressing hash table from slots to register values, for the registers whose offset does
not fit a nibble.  A cell is a coupon or vacant.  A slot is looked for along an arithmetic
progression of cells: it starts at the slot modulo the table size and advances by an odd stride,
so it visits every cell once before it returns.  The table doubles as soon as more than three
quarters of its cells are taken, which keeps a vacant cell for every search to end at.

Values are absolute register values: they stay right when the baseline moves.
-/

namespace HyperLogLog

/-- Slots below `2 ^ lgK` and their values, in a table of `2 ^ lgSize` cells. -/
structure OverflowMap where
  lgK : Nat
  lgSize : Nat
  cells : Array Coupon
  count : Nat

namespace OverflowMap

/-- The logarithms of the table sizes that maps start with, for slots of no bit to slots that fill
a coupon. -/
def initialLgSizes : Vector Nat (Coupon.slotBits + 1) :=
  #v[0, 2, 2, 2, 2, 2, 2, 3, 3, 3,
    4, 4, 5, 5, 6, 7, 8, 9, 10, 11,
    12, 13, 14, 15, 16, 17, 18]

/-- The logarithm of the table size a map starts with. -/
def initialLgSize (lgK : Nat) : Nat := initialLgSizes[lgK]?.getD 0

/-- A map of `2 ^ lgSize` vacant cells. -/
def ofLgSize (lgK lgSize : Nat) : OverflowMap :=
  ⟨lgK, lgSize, .replicate (Nat.pow 2 lgSize) .vacant, 0⟩

/-- The empty map for slots below `2 ^ lgK`. -/
def empty (lgK : Nat) : OverflowMap :=
  ofLgSize lgK (initialLgSize lgK)

/-- The empty map for slots below `2 ^ lgK`.  Slots a coupon has no room for are a fault. -/
def new (lgK : Nat) : Except Fault OverflowMap :=
  if lgK < initialLgSizes.size then .ok (empty lgK)
  else .error (.indexOutOfRange initialLgSizes.size lgK)

theorem new_eq_ok {lgK : Nat} (h : lgK ≤ Coupon.slotBits) : new lgK = .ok (empty lgK) :=
  if_pos (Nat.lt_succ_of_le h)

/-- The number of cells. -/
def size (m : OverflowMap) : Nat := Nat.pow 2 m.lgSize

/-- The slot a taken cell holds. -/
def slotOf (m : OverflowMap) (c : Coupon) : Nat := c.slot % Nat.pow 2 m.lgK

/-- Where a search for a slot ends: at the cell that holds it, or at the vacant cell where it
belongs. -/
inductive Probe where
  | found (i : Nat)
  | vacant (i : Nat)
deriving DecidableEq, Repr

/-- The first cell of the search for a slot. -/
def start (m : OverflowMap) (slot : Nat) : Nat := slot % m.size

/-- The distance between neighbours in the search for a slot, an odd number. -/
def stride (m : OverflowMap) (slot : Nat) : Nat := slot / m.size / 2 * 2 + 1

/-- Searches `size` cells for one of `slots` slots, from cell `i` on through at most `n` cells at a
stride. -/
def probeCells (cells : Array Coupon) (slots size slot stride : Nat) :
    (n i : Nat) → Except Fault Probe
  | 0, _ => .error .mapFull
  | n + 1, i =>
      match cells[i]? with
      | none => .error (.indexOutOfRange cells.size i)
      | some c =>
          if c.isVacant then .ok (.vacant i)
          else if c.slot % slots = slot then .ok (.found i)
          else probeCells cells slots size slot stride n ((i + stride) % size)

/-- Searches for a slot from cell `i` on, through at most `n` cells. -/
def probe (m : OverflowMap) (slot n i : Nat) : Except Fault Probe :=
  probeCells m.cells (Nat.pow 2 m.lgK) m.size slot (m.stride slot) n i

/-- Searches for a slot through all cells. -/
def find (m : OverflowMap) (slot : Nat) : Except Fault Probe :=
  m.probe slot m.size (m.start slot)

/-- The value of a slot, if the map holds it. -/
def get (m : OverflowMap) (slot : Nat) : Except Fault (Option Nat) :=
  match m.find slot with
  | .error f => .error f
  | .ok (.vacant _) => .ok none
  | .ok (.found i) => .ok (m.cells[i]?.map Coupon.value)

/-- Writes a coupon into a cell. -/
def write (m : OverflowMap) (i : Nat) (c : Coupon) : OverflowMap :=
  { m with cells := m.cells.setIfInBounds i c }

/-- Writes the coupon of a further slot into a vacant cell. -/
def add (m : OverflowMap) (i : Nat) (c : Coupon) : OverflowMap :=
  { m with cells := m.cells.setIfInBounds i c, count := m.count + 1 }

/-- The coupons of the taken cells, in cell order. -/
def coupons (m : OverflowMap) : List Coupon :=
  m.cells.toList.filter (!·.isVacant)

/-- Moves a coupon into a table that is being rebuilt. -/
def rehash (m : OverflowMap) (c : Coupon) : Outcome OverflowMap :=
  match m.find c.slot with
  | .error f => .faulted f m
  | .ok (.found _) => .faulted .duplicateSlot m
  | .ok (.vacant i) => .done (m.write i c)

/-- The same entries in a table of twice the size. -/
def grow (m : OverflowMap) : Outcome OverflowMap :=
  Outcome.forEach rehash m.coupons { ofLgSize m.lgK (m.lgSize + 1) with count := m.count }

/-- Whether more than three quarters of the cells are taken. -/
def isCrowded (m : OverflowMap) : Bool := 3 * m.size < 4 * m.count

/-- Adds a slot the map does not hold.  Zero is not a value of an entry. -/
def insert (m : OverflowMap) (slot value : Nat) : Outcome OverflowMap :=
  if value = 0 then .faulted (.zeroEntry slot) m
  else
    match m.find slot with
    | .error f => .faulted f m
    | .ok (.found _) => .faulted (.slotPresent slot) m
    | .ok (.vacant i) =>
        let m := m.add i (.pack slot value)
        if m.isCrowded then m.grow else .done m

/-- Changes the value of a slot the map holds. -/
def replace (m : OverflowMap) (slot value : Nat) : Outcome OverflowMap :=
  match m.find slot with
  | .error f => .faulted f m
  | .ok (.vacant _) => .faulted (.slotAbsent slot) m
  | .ok (.found i) => .done (m.write i (.pack slot value))

/-- The slots and values, in cell order. -/
def entries (m : OverflowMap) : List (Nat × Nat) :=
  m.coupons.map fun c => (m.slotOf c, c.value)

/-- Orders entries by slot, then by value. -/
def entryLe (a b : Nat × Nat) : Bool :=
  a.1 < b.1 || (a.1 == b.1 && a.2 ≤ b.2)

/-- The slots and values, in the order of the slots. -/
def sortedEntries (m : OverflowMap) : List (Nat × Nat) :=
  m.entries.mergeSort entryLe

/-- Two maps are equal when they hold the same entries for the same slots, wherever the entries
lie in their tables. -/
instance : BEq OverflowMap where
  beq m m' := m.lgK == m'.lgK && m.count == m'.count && m.sortedEntries == m'.sortedEntries

end OverflowMap

end HyperLogLog
