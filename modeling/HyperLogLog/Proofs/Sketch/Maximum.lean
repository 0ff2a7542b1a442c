import HyperLogLog.Proofs.Sketch.Conversion
import HyperLogLog.Proofs.Sketch.Minimum

/-!
# Updates compute a maximum

A register ends at the largest value sent to its slot (`Plain.get_run_updates`), so the bank that a
run of updates ends with depends only on which pairs of a slot and a value were sent: neither their
order nor a repetition can be seen of the registers, or of what is read off them
(`Encodes.sameRegisters`).  The statistics do depend on the order, but on the raises alone.  A run
ends at the same plain sketch if the updates that raise nothing are left out (`Plain.run_raising`).
-/

namespace HyperLogLog

namespace Sketch

/-- The updates that send pairs of a slot and a value. -/
def Step.updates (sent : List (Nat × Nat)) : List Step := sent.map fun u => .update u.1 u.2

/-- The largest value sent to a slot, or zero if none was. -/
def largest (sent : List (Nat × Nat)) (slot : Nat) : Nat :=
  ((sent.filter fun u => u.1 = slot).map Prod.snd).foldr max 0

/-- The pairs of a list whose value exceeds every value sent to their slot before, where the
pairs of `sent` came first. -/
def raising (sent : List (Nat × Nat)) : List (Nat × Nat) → List (Nat × Nat)
  | [] => []
  | u :: us =>
      if largest sent u.1 < u.2 then u :: raising (u :: sent) us else raising (u :: sent) us

variable {sent sent' : List (Nat × Nat)} {slot value : Nat}

theorem largest_nil (slot : Nat) : largest [] slot = 0 := rfl

theorem largest_cons (u : Nat × Nat) (sent : List (Nat × Nat)) (slot : Nat) :
    largest (u :: sent) slot =
      if u.1 = slot then max u.2 (largest sent slot) else largest sent slot := by
  rw [largest, List.filter_cons]
  simp only [decide_eq_true_eq]
  split <;> rfl

/-- A bound of the values sent to a slot is a bound of their largest. -/
theorem largest_le_iff : largest sent slot ≤ value ↔ ∀ u ∈ sent, u.1 = slot → u.2 ≤ value := by
  induction sent with
  | nil => exact iff_of_true (Nat.zero_le value) nofun
  | cons u sent ih =>
      rw [largest_cons, List.forall_mem_cons, ← ih]
      split
      · rename_i hu
        rw [max_le_iff, forall_prop_of_true hu]
      · rename_i hu
        exact (and_iff_right fun h => absurd h hu).symm

/-- Which pairs were sent decides, not how often or in which order. -/
theorem largest_congr (h : ∀ u, u ∈ sent ↔ u ∈ sent') : largest sent = largest sent' := by
  funext slot
  -- two numbers with the same upper bounds
  have hle (v : Nat) : largest sent slot ≤ v ↔ largest sent' slot ≤ v := by
    simp only [largest_le_iff, h]
  exact le_antisymm ((hle _).mpr le_rfl) ((hle _).mp le_rfl)

theorem raising_subset (us : List (Nat × Nat)) : raising sent us ⊆ us := by
  induction us generalizing sent with
  | nil => exact List.Subset.refl _
  | cons u us ih =>
      rw [raising]
      split
      · exact List.cons_subset_cons u ih
      · exact List.subset_cons_of_subset u ih

/-- Pairs in range are valid updates. -/
theorem Step.valid_updates {lgK : Nat} (h : ∀ u ∈ sent, u.1 < 2 ^ lgK ∧ u.2 ≤ maxRegister) :
    ∀ st ∈ Step.updates sent, st.Valid lgK :=
  List.forall_mem_map.mpr h

end Sketch

/-! ### Plain sketches -/

namespace Plain

open Sketch

variable {α : Type} [Arith α] {p : Precision} {t : Plain α p} {slot value : Nat}
  {sent us : List (Nat × Nat)}

/-- Nothing has been sent to an empty sketch. -/
theorem get_empty (slot : Nat) : (empty p : Plain α p).bank.get slot = largest [] slot :=
  Bank.get_zeros slot

/-- **One update** takes the maximum at its slot. -/
theorem get_update (t : Plain α p) (hs : slot < p.slots) (hv : value ≤ maxRegister) (s : Nat) :
    (t.update slot value).bank.get s =
      if slot = s then max value (t.bank.get s) else t.bank.get s := by
  by_cases hlt : t.bank.get slot < value
  · rw [update_of_raise hs hv hlt, raise, Bank.get_set _ hv hs]
    simp only [eq_comm (a := s)]
    split
    · rename_i h
      exact (max_eq_left (h ▸ hlt.le)).symm
    · rfl
  · rw [update_of_not_raise fun h => hlt h.2.2]
    split
    · rename_i h
      exact (max_eq_right (h ▸ not_lt.mp hlt)).symm
    · rfl

/-- **A run of updates** ends with the largest value sent to each slot. -/
theorem get_run_updates (t : Plain α p)
    (hv : ∀ u ∈ us, u.1 < p.slots ∧ u.2 ≤ maxRegister) (s : Nat) :
    (t.run (Step.updates us)).bank.get s = max (t.bank.get s) (largest us s) := by
  induction us generalizing t with
  | nil => exact (Nat.max_zero _).symm
  | cons u us ih =>
      obtain ⟨⟨hs, hle⟩, hrest⟩ := List.forall_mem_cons.mp hv
      refine (ih (t.update u.1 u.2) hrest).trans ?_
      rw [get_update t hs hle, largest_cons]
      split
      · rw [max_comm u.2, max_assoc]
      · rfl

/-- Runs of the same pairs end with one bank. -/
theorem bank_run_updates {sent' : List (Nat × Nat)}
    (hv : ∀ u ∈ sent, u.1 < p.slots ∧ u.2 ≤ maxRegister) (h : ∀ u, u ∈ sent' ↔ u ∈ sent) :
    (t.run (Step.updates sent')).bank = (t.run (Step.updates sent)).bank := by
  refine Bank.ext_get fun s _ => ?_
  rw [get_run_updates t fun u hu => hv u ((h u).mp hu), get_run_updates t hv, largest_congr h]

/-- **Updates that raise nothing leave no trace.**  The registers are the largest values sent so
far. -/
theorem run_raising (hv : ∀ u ∈ us, u.1 < p.slots ∧ u.2 ≤ maxRegister)
    (ht : ∀ s, t.bank.get s = largest sent s) :
    t.run (Step.updates (raising sent us)) = t.run (Step.updates us) := by
  induction us generalizing t sent with
  | nil => rfl
  | cons u us ih =>
      obtain ⟨⟨hs, hle⟩, hrest⟩ := List.forall_mem_cons.mp hv
      have hnext (s : Nat) : (t.update u.1 u.2).bank.get s = largest (u :: sent) s := by
        rw [get_update t hs hle, largest_cons, ht]
      rw [raising]
      split
      · exact ih hrest hnext
      · -- the pair is below the largest one sent, which is the register
        rename_i hlt
        have hskip : t.update u.1 u.2 = t := update_of_not_raise fun h => hlt (ht u.1 ▸ h.2.2)
        exact (ih hrest (hskip ▸ hnext)).trans (congrArg (run · (Step.updates us)) hskip.symm)

end Plain

/-! ### Sketches -/

namespace Sketch

/-- Two sketches that agree on the registers and on all that is read off them. -/
structure SameRegisters {α : Type} (s s' : Sketch α) : Prop where
  registers : (s.registers == s'.registers) = true
  baseline : s.baseline = s'.baseline
  isEmpty : s.accumulator.isEmpty = s'.accumulator.isEmpty
  serializedSize : s.serializedSize = s'.serializedSize

variable {α : Type} {p : Precision} {s s' : Sketch α} {t t' : Plain α p} {e : Encoding}

/-- **Sketches of one bank in one encoding** have the same registers, whatever their statistics
are. -/
theorem Encodes.sameRegisters (h : s.Encodes e t) (h' : s'.Encodes e t') (hb : t.bank = t'.bank) :
    SameRegisters s s' := by
  have hbase : s.baseline = s'.baseline := by rw [h.baseline_eq, h'.baseline_eq, hb]
  have hreg : (s.registers == s'.registers) = true := (h.registers_beq_iff h' hbase).mpr hb
  obtain ⟨hbytes, hcount⟩ := Registers.room_of_beq hreg
  exact {
    registers := hreg
    baseline := hbase
    isEmpty := Bool.eq_iff_iff.mpr (by rw [h.isEmpty_iff, h'.isEmpty_iff, hb])
    serializedSize := by
      rw [Sketch.serializedSize, Sketch.serializedSize, hbytes, overflowCount, hcount]
      rfl }

/-- Updates do not change the encoding. -/
theorem Step.foldl_encoding_updates (e : Encoding) (sent : List (Nat × Nat)) :
    (Step.updates sent).foldl Step.encoding e = e := by
  have hall : (Step.updates sent).filter (!·.isConvert) = Step.updates sent :=
    List.filter_eq_self.mpr (List.forall_mem_map.mpr fun _ _ => rfl)
  rw [← hall, Step.foldl_encoding_filter]

variable [Arith α]

/-- A run of valid updates is done, and is the run of the plain sketch in the same encoding. -/
theorem Encodes.run_updates (h : s.Encodes e t) {sent : List (Nat × Nat)}
    (hv : ∀ u ∈ sent, u.1 < p.slots ∧ u.2 ≤ maxRegister) :
    ∃ s', s.run (Step.updates sent) = .done s' ∧
      s'.Encodes e (t.run (Step.updates sent)) := by
  obtain ⟨s', hs', h'⟩ := h.run (Step.valid_updates hv)
  exact ⟨s', hs', Step.foldl_encoding_updates e sent ▸ h'⟩

/-- **Updates compute a maximum, and only raises leave a trace.**  A run of valid updates of a new
sketch is done, and answers at each slot the largest value sent there.  A run of the same pairs, in
any order and number, ends at the same registers and baseline; and the run of the updates that raise
something ends at an equal sketch, statistics included. -/
theorem updates_maximum (lgK : Nat) (hk : minLgK ≤ lgK ∧ lgK ≤ maxLgK) (e : Encoding)
    (sent : List (Nat × Nat)) (hv : ∀ u ∈ sent, u.1 < 2 ^ lgK ∧ u.2 ≤ maxRegister) :
    ∃ s₀ s : Sketch Float,
      Sketch.new lgK e = .ok s₀ ∧ s₀.run (Step.updates sent) = .done s ∧ s.encoding = e ∧
      (∀ slot < 2 ^ lgK, s.get slot = .ok (largest sent slot)) ∧
      (∀ sent', (∀ u, u ∈ sent' ↔ u ∈ sent) →
        ∃ s', s₀.run (Step.updates sent') = .done s' ∧ SameRegisters s' s) ∧
      ∃ s', s₀.run (Step.updates (raising [] sent)) = .done s' ∧ Same s' s := by
  have h₀ := encodes_empty (α := Float) ⟨lgK, hk.1, hk.2⟩ e
  obtain ⟨s, hrun, hs⟩ := h₀.run_updates hv
  refine ⟨_, s, new_eq_ok hk e, hrun, hs.encoding_eq, ?get, ?any, ?raises⟩
  case get =>
    intro slot hslot
    rw [hs.get hslot, Plain.get_run_updates _ hv]
    rw [Plain.get_empty, largest_nil, Nat.zero_max]
  case any =>
    intro sent' hmem
    obtain ⟨s', hrun', hs'⟩ := h₀.run_updates fun u hu => hv u ((hmem u).mp hu)
    exact ⟨s', hrun', hs'.sameRegisters hs (Plain.bank_run_updates hv hmem)⟩
  case raises =>
    obtain ⟨s', hrun', hs'⟩ := h₀.run_updates fun u hu => hv u (raising_subset sent hu)
    rw [Plain.run_raising hv Plain.get_empty] at hs'
    exact ⟨s', hrun', hs'.same hs (Plain.numeric_run ⟨lgK, hk.1, hk.2⟩ _)⟩

/-- Sixteen registers as offsets, fifteen of them raised to exceptions before the last takes the
baseline to 7, and a value that comes too late.  Backwards that value is a raise, and the baseline
stays at zero to the end. -/
theorem updates_maximum_reversed :
    let sent := (List.range 16).map fun i => (i, if i = 15 then 7 else 20)
    raising [] (sent ++ [(3, 7)]) = sent ∧
    ∃ s₀ s : Sketch Float,
      Sketch.new 4 .hll4 = .ok s₀ ∧ s₀.run (Step.updates (sent ++ [(3, 7)])) = .done s ∧
      s.get 3 = .ok 20 ∧
      (∃ s', s₀.run (Step.updates (sent ++ [(3, 7)]).reverse) = .done s' ∧ SameRegisters s' s) ∧
      ∃ s', s₀.run (Step.updates sent) = .done s' ∧ Same s' s := by
  intro sent
  have hraising : raising [] (sent ++ [(3, 7)]) = sent := by decide
  obtain ⟨s₀, s, h₀, hrun, -, hget, hany, hraises⟩ :=
    updates_maximum 4 (by decide) .hll4 (sent ++ [(3, 7)]) (by decide)
  refine ⟨hraising, s₀, s, h₀, hrun, hget 3 (by decide), ?_, hraising ▸ hraises⟩
  exact hany _ fun u => List.mem_reverse

end Sketch

end HyperLogLog
