import HyperLogLog.Proofs.Accumulator.Exact
import Mathlib.Tactic.Positivity
import Mathlib.Tactic.Ring

/-!
# The growth of the historic estimate

Over an ordered field a raise credits the historic estimate with the number of registers over the
weight of the bank before the raise (`Bank.credit`).  A raise makes the bank lighter, so credits
grow, from one on; and no bank takes more than 63 raises a register.  A `Ledger` is the list of the
credits of a run with what they say of it, kept by a raise (`Ledger.raise`): the historic estimate
is their sum, and there are at least as many as registers that are not zero.
-/

namespace HyperLogLog

/-! ### The weight of a bank -/

/-- The weight of a value, in units of `2 ^ -63`. -/
def weightUnit (v : Nat) : Nat := 2 ^ (maxRegister - v)

section Field

variable {K : Type} [Field K]

theorem weightSum_true (values : Array Nat) :
    weightSum K (fun _ => True) values = totalWeight K values := by
  rw [weightSum, totalWeight, List.filter_eq_self.mpr fun _ _ => decide_eq_true trivial]

/-- The values with a property and those without it are all of them. -/
theorem weightSum_add_weightSum {P Q : Nat → Prop} [DecidablePred P] [DecidablePred Q]
    (h : ∀ v, Q v ↔ ¬ P v) (values : Array Nat) :
    weightSum K P values + weightSum K Q values = totalWeight K values := by
  rw [weightSum, weightSum, totalWeight]
  induction values.toList with
  | nil => simp
  | cons v l ih =>
      rw [List.map_cons, List.sum_cons, ← ih, List.filter_cons, List.filter_cons]
      by_cases hP : P v
      · rw [if_pos (decide_eq_true hP), if_neg (by simpa [h] using hP), List.map_cons,
          List.sum_cons, add_assoc]
      · rw [if_neg (by simpa using hP), if_pos (decide_eq_true ((h v).mpr hP)), List.map_cons,
          List.sum_cons, add_left_comm]

/-- Values up to one weigh a half each, and the zeros among them a half more. -/
theorem totalWeight_of_le_one [CharZero K] {values : Array Nat} (h : ∀ v ∈ values, v ≤ 1) :
    totalWeight K values = (values.size + values.count 0 : Nat) / 2 := by
  have h' : ∀ v ∈ values.toList, v ≤ 1 := fun v hv => h v (Array.mem_toList_iff.mp hv)
  rw [totalWeight, ← Array.length_toList, ← Array.count_toList]
  generalize values.toList = l at h'
  induction l with
  | nil => simp
  | cons v l ih =>
      obtain ⟨hv, hrest⟩ := List.forall_mem_cons.mp h'
      rw [List.map_cons, List.sum_cons, ih hrest, List.length_cons, List.count_cons]
      obtain rfl | rfl : v = 0 ∨ v = 1 := by omega
      · simp
        ring
      · simp
        ring

end Field

theorem weightUnit_lt {v w : Nat} (h : v < w) (hw : w ≤ maxRegister) :
    weightUnit w < weightUnit v :=
  Nat.pow_lt_pow_right (by decide) (Nat.sub_lt_sub_left (h.trans_le hw) h)

namespace Bank

variable {p : Precision} {b : Bank p} {slot value : Nat} {w : Nat → Nat} {c : Nat}

theorem le_total_of_le (b : Bank p) (h : ∀ v, c ≤ w v) : p.slots * c ≤ b.total w := by
  have hsum := List.card_nsmul_le_sum (b.values.toList.map w) c fun x hx => by
    obtain ⟨v, -, rfl⟩ := List.mem_map.mp hx
    exact h v
  rwa [List.length_map, Array.length_toList, b.size_values, Nat.nsmul_eq_mul] at hsum

/-- A raise makes the bank lighter. -/
theorem total_weightUnit_set_lt (h : value ≤ maxRegister) (hs : slot < p.slots)
    (hlt : b.get slot < value) :
    (b.set slot value h).total weightUnit < b.total weightUnit := by
  have hset := b.total_set weightUnit h hs
  have hunit := weightUnit_lt hlt h
  omega

variable {K : Type} [Field K] [LinearOrder K] [IsStrictOrderedRing K]

theorem totalWeight_eq (b : Bank p) :
    totalWeight K b.values = (b.total weightUnit : K) / 2 ^ maxRegister := by
  rw [← weightSum_true, total]
  refine (weightSum_eq fun v hv => ?_).symm
  rw [if_pos trivial]
  exact two_pow_sub_div (b.values_le v hv)

/-- No bank is lighter than one whose registers are all 63. -/
theorem le_totalWeight (b : Bank p) :
    (p.slots : K) * (1 / 2 ^ maxRegister) ≤ totalWeight K b.values := by
  have hle : p.slots ≤ b.total weightUnit :=
    (Nat.mul_one _).symm.trans_le (b.le_total_of_le fun v => Nat.two_pow_pos _)
  rw [totalWeight_eq, mul_one_div]
  gcongr

/-- No bank is heavier than one whose registers are all zero. -/
theorem totalWeight_le (b : Bank p) : totalWeight K b.values ≤ p.slots := by
  have hle : b.total weightUnit ≤ p.slots * 2 ^ maxRegister :=
    b.total_le fun v => Nat.pow_le_pow_right (by decide) (Nat.sub_le _ _)
  rw [totalWeight_eq, div_le_iff₀ (by positivity)]
  exact_mod_cast hle

theorem totalWeight_pos (b : Bank p) : 0 < totalWeight K b.values :=
  (mul_pos (Nat.cast_pos.mpr p.slots_pos) (by positivity)).trans_le b.le_totalWeight

theorem totalWeight_set_lt (h : value ≤ maxRegister) (hs : slot < p.slots)
    (hlt : b.get slot < value) :
    totalWeight K (b.set slot value h).values < totalWeight K b.values := by
  rw [totalWeight_eq, totalWeight_eq]
  have hlighter := total_weightUnit_set_lt h hs hlt
  gcongr

/-- A register that is not zero makes the bank lighter than one whose registers are. -/
theorem totalWeight_lt_slots (hs : slot < p.slots) (hpos : 0 < b.get slot) :
    totalWeight K b.values < p.slots := by
  have hget : ∀ s, (b.set slot 0 (Nat.zero_le _)).get s = if s = slot then 0 else b.get s :=
    b.get_set (Nat.zero_le _) hs
  have hlt : (b.set slot 0 (Nat.zero_le _)).get slot < b.get slot := by
    rwa [hget, if_pos rfl]
  -- the bank is the one with a zero there, raised again
  have hset : (b.set slot 0 (Nat.zero_le _)).set slot (b.get slot) (b.get_le slot) = b := by
    refine ext_get fun s _ => ?_
    rw [get_set _ _ hs, hget]
    split_ifs with h
    · rw [h]
    · rfl
  have hraise := totalWeight_set_lt (K := K) (b.get_le slot) hs hlt
  rw [hset] at hraise
  exact hraise.trans_le (totalWeight_le _)

/-- **The heaviest bank** is the one whose registers are all zero. -/
theorem totalWeight_eq_slots_iff :
    totalWeight K b.values = p.slots ↔ ∀ v ∈ b.values, v = 0 := by
  constructor
  · intro h v hv
    obtain ⟨slot, hs, rfl⟩ := mem_values.mp hv
    by_contra hne
    exact (totalWeight_lt_slots hs (Nat.pos_of_ne_zero hne)).ne h
  · intro h
    rw [totalWeight_of_le_one fun v hv => (h v hv).trans_le zero_le_one, b.size_values,
      b.count_zero_eq_slots_iff.mpr h, Nat.cast_add, add_self_div_two]

/-! ### Credits -/

/-- What the next raise adds to the historic estimate. -/
def credit (K : Type) [Field K] (b : Bank p) : K := p.slots / totalWeight K b.values

theorem one_le_credit (b : Bank p) : 1 ≤ b.credit K :=
  (one_le_div b.totalWeight_pos).mpr b.totalWeight_le

/-- **The next credit is larger.** -/
theorem credit_lt_credit_set (h : value ≤ maxRegister) (hs : slot < p.slots)
    (hlt : b.get slot < value) : b.credit K < (b.set slot value h).credit K :=
  div_lt_div_of_pos_left (Nat.cast_pos.mpr p.slots_pos) (totalWeight_pos _)
    (totalWeight_set_lt h hs hlt)

/-! ### The number of raises -/

/-- The values of all registers together, which each raise makes larger. -/
def height (b : Bank p) : Nat := b.total id

theorem height_le (b : Bank p) : b.height ≤ p.slots * maxRegister := by
  have hsum := List.sum_le_card_nsmul (b.values.toList.map id) maxRegister fun x hx => by
    rw [List.map_id, Array.mem_toList_iff] at hx
    exact b.values_le x hx
  rwa [List.length_map, Array.length_toList, b.size_values, Nat.nsmul_eq_mul] at hsum

theorem height_lt_height_set (h : value ≤ maxRegister) (hs : slot < p.slots)
    (hlt : b.get slot < value) : b.height < (b.set slot value h).height := by
  have hset : (b.set slot value h).total id + b.get slot = b.total id + value :=
    b.total_set id h hs
  rw [height, height]
  omega

/-- The registers that are not zero are the ones left by the zeros. -/
theorem countP_ne_zero (b : Bank p) :
    (b.values.countP fun v => v ≠ 0) = p.slots - b.values.count 0 := by
  have hsize : b.values.size = _ + _ := Array.size_eq_countP_add_countP (p := (· == 0))
  rw [b.size_values, ← Array.count_eq_countP] at hsize
  simp only [beq_iff_eq] at hsize
  exact (Nat.sub_eq_of_eq_add' hsize).symm

/-- At most one more register is not zero. -/
theorem count_zero_le_set (h : value ≤ maxRegister) (hs : slot < p.slots)
    (hlt : b.get slot < value) :
    b.values.count 0 ≤ (b.set slot value h).values.count 0 + 1 := by
  rw [count_set_of_lt b h hs (Nat.zero_lt_of_lt hlt)]
  split <;> omega

end Bank

/-! ### Ledgers -/

namespace Plain

open Sketch (Step)

variable {K : Type} [Field K] [LinearOrder K] [IsStrictOrderedRing K] {p : Precision}
  {t : Plain K p} {gains : List K} {slot value : Nat}

/-- The credits that have made the historic estimate, the latest at the end. -/
structure Ledger (t : Plain K p) (gains : List K) : Prop where
  precision_eq : t.accumulator.precision = p
  summed : t.Summed (exactGrid K)
  hip_eq : t.accumulator.hip = gains.sum
  increasing : gains.Pairwise (· < ·)
  one_le : ∀ g ∈ gains, 1 ≤ g
  lt_credit : ∀ g ∈ gains, g < t.bank.credit K
  length_le : gains.length ≤ t.bank.height
  slots_le : p.slots ≤ t.bank.values.count 0 + gains.length

theorem ledger_empty (p : Precision) : (empty p : Plain K p).Ledger [] where
  precision_eq := rfl
  summed := summed_empty _ p
  hip_eq := Nat.cast_zero
  increasing := .nil
  one_le := nofun
  lt_credit := nofun
  length_le := Nat.zero_le _
  slots_le := (Array.count_replicate_self (a := 0)).ge

/-- The sums of the accumulator together are the weight of the bank. -/
theorem Summed.totalWeight_eq (h : t.Summed (exactGrid K)) :
    t.accumulator.lowSum + t.accumulator.highSum = totalWeight K t.bank.values := by
  obtain ⟨hlow, hhigh⟩ := h.weightSum_eq
  rw [hlow, hhigh, weightSum_add_weightSum fun v => not_lt.symm]

/-- So the credit is that of the bank. -/
theorem Ledger.credit_hip (h : t.Ledger gains) :
    t.accumulator.credit.hip = t.accumulator.hip + t.bank.credit K := by
  have hsum := h.summed.totalWeight_eq
  have hk : t.accumulator.k = p.slots :=
    congrArg (fun q : Precision => (q.slots : K)) h.precision_eq
  rw [Bank.credit, ← hsum, ← hk]
  rfl

/-- A raise adds the credit of the bank. -/
theorem Ledger.hip_raise (h : t.Ledger gains) (hv : value ≤ maxRegister) (slot : Nat) :
    (t.raise slot value hv).accumulator.hip = t.accumulator.hip + t.bank.credit K := by
  rw [Plain.raise, Accumulator.hip_raised, h.credit_hip]

/-- **A raise** enters its credit. -/
theorem Ledger.raise (h : t.Ledger gains) (hs : slot < p.slots) (hv : value ≤ maxRegister)
    (hlt : t.bank.get slot < value) :
    (t.raise slot value hv).Ledger (gains ++ [t.bank.credit K]) where
  precision_eq := (t.accumulator.precision_raised _ _).trans h.precision_eq
  summed := h.summed.raise hs hv
  hip_eq := by
    rw [h.hip_raise, h.hip_eq, List.sum_append, List.sum_singleton]
  increasing := List.pairwise_append.mpr ⟨h.increasing, List.pairwise_singleton _ _,
    fun g hg c hc => List.mem_singleton.mp hc ▸ h.lt_credit g hg⟩
  one_le := by
    rw [List.forall_mem_append]
    exact ⟨h.one_le, List.forall_mem_singleton.mpr t.bank.one_le_credit⟩
  lt_credit := by
    have hnext : t.bank.credit K < (t.bank.set slot value hv).credit K :=
      Bank.credit_lt_credit_set hv hs hlt
    rw [List.forall_mem_append]
    exact ⟨fun g hg => (h.lt_credit g hg).trans hnext, List.forall_mem_singleton.mpr hnext⟩
  length_le := by
    rw [List.length_append, List.length_singleton]
    exact h.length_le.trans_lt (Bank.height_lt_height_set hv hs hlt)
  slots_le := by
    have hcount := Bank.count_zero_le_set hv hs hlt
    have hslots := h.slots_le
    rw [List.length_append, List.length_singleton]
    show p.slots ≤ (t.bank.set slot value hv).values.count 0 + (gains.length + 1)
    omega

theorem Ledger.mark (h : t.Ledger gains) : (t.apply .mark).Ledger gains :=
  ⟨h.precision_eq, h.summed.apply .mark, h.hip_eq, h.increasing, h.one_le, h.lt_credit, h.length_le,
    h.slots_le⟩

/-- Any step enters a credit or none. -/
theorem Ledger.apply (h : t.Ledger gains) (st : Step) : ∃ gains', (t.apply st).Ledger gains' := by
  cases st with
  | update slot value =>
      by_cases hraise : slot < p.slots ∧ value ≤ maxRegister ∧ t.bank.get slot < value
      · obtain ⟨hs, hv, hlt⟩ := hraise
        rw [Plain.apply, update_of_raise hs hv hlt]
        exact ⟨_, h.raise hs hv hlt⟩
      · rw [Plain.apply, update_of_not_raise hraise]
        exact ⟨_, h⟩
  | mark => exact ⟨_, h.mark⟩
  | convert e => exact ⟨_, h⟩

/-- Every run has a ledger. -/
theorem exists_ledger (p : Precision) (steps : List Step) :
    ∃ gains, ((empty p : Plain K p).run steps).Ledger gains :=
  run_induction (P := fun t => ∃ gains, t.Ledger gains) ⟨_, ledger_empty p⟩
    (fun _ st ⟨_, h⟩ => h.apply st) steps

/-! ### What a ledger says -/

/-- Each credit is at least one, so there are no more than the historic estimate. -/
theorem Ledger.length_le_hip (h : t.Ledger gains) : (gains.length : K) ≤ t.accumulator.hip := by
  rw [h.hip_eq, ← nsmul_one]
  exact List.card_nsmul_le_sum gains 1 h.one_le

/-- Each register that is not zero has been raised. -/
theorem Ledger.nonZeros_le (h : t.Ledger gains) :
    (t.bank.values.countP fun v => v ≠ 0) ≤ gains.length := by
  rw [t.bank.countP_ne_zero]
  exact Nat.sub_le_iff_le_add'.mpr h.slots_le

/-- **The historic estimate is no less than the number of registers that are not zero.** -/
theorem Ledger.nonZeros_le_hip (h : t.Ledger gains) :
    ((t.bank.values.countP fun v => v ≠ 0 : Nat) : K) ≤ t.accumulator.hip :=
  (Nat.cast_le.mpr h.nonZeros_le).trans h.length_le_hip

/-- **No credit is negligible**: none before it was larger, and there were at most 63 a
register. -/
theorem Ledger.hip_le (h : t.Ledger gains) (hs : slot < p.slots) (hv : value ≤ maxRegister)
    (hlt : t.bank.get slot < value) :
    t.accumulator.hip + t.bank.credit K ≤ maxRegister * p.slots * t.bank.credit K := by
  have hraise := h.raise hs hv hlt
  have hle : ∀ g ∈ gains ++ [t.bank.credit K], g ≤ t.bank.credit K := by
    rw [List.forall_mem_append]
    exact ⟨fun g hg => (h.lt_credit g hg).le, List.forall_mem_singleton.mpr le_rfl⟩
  have hlen : (gains ++ [t.bank.credit K]).length ≤ maxRegister * p.slots :=
    hraise.length_le.trans ((Bank.height_le _).trans_eq (Nat.mul_comm _ _))
  calc t.accumulator.hip + t.bank.credit K
      = (gains ++ [t.bank.credit K]).sum := by
        rw [List.sum_append, List.sum_singleton, h.hip_eq]
    _ ≤ (gains ++ [t.bank.credit K]).length • t.bank.credit K := List.sum_le_card_nsmul _ _ hle
    _ ≤ (maxRegister * p.slots) • t.bank.credit K :=
        nsmul_le_nsmul_left (zero_le_one.trans t.bank.one_le_credit) hlen
    _ = maxRegister * p.slots * t.bank.credit K := by
        rw [nsmul_eq_mul, Nat.cast_mul]

end Plain

end HyperLogLog
