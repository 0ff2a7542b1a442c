import HyperLogLog.Sketch.Run
import HyperLogLog.Proofs.Accumulator.Baseline

/-!
# Plain sketches — the meaning of a run

A plain sketch has a bank for its registers, so it has no encoding, and no use for a baseline: its
accumulator has one, which nothing reads.  Its steps are total.  An update that does not raise its
register, or that no caller may ask for, changes nothing, and so does a conversion.

* `Plain.run_convert`: conversions may be added to a run or left out.
* `Plain.bank_run_congr`: the statistics have no part in the registers.
-/

namespace HyperLogLog

/-- A sketch whose registers are a bank. -/
structure Plain (α : Type) (p : Precision) where
  bank : Bank p
  accumulator : Accumulator α

namespace Sketch.Step

/-- The encoding of a sketch after a step. -/
def encoding (e : Encoding) : Step → Encoding
  | .update _ _ | .mark => e
  | .convert e' => e'

/-- Whether a step is a conversion. -/
def isConvert : Step → Bool
  | .update _ _ | .mark => false
  | .convert _ => true

/-- Without conversions the encoding stays. -/
theorem foldl_encoding_filter (e : Encoding) (steps : List Step) :
    (steps.filter (!·.isConvert)).foldl encoding e = e := by
  induction steps with
  | nil => rfl
  | cons st steps ih =>
      cases st with
      | update slot value | mark | convert e' => exact ih

end Sketch.Step

namespace Plain

open Sketch (Step)

variable {α : Type} [Arith α] {p : Precision}

/-- All registers zero. -/
def empty (p : Precision) : Plain α p := ⟨.zeros p, .empty p⟩

/-- A register raised to a value. -/
def raise (t : Plain α p) (slot value : Nat) (h : value ≤ maxRegister) : Plain α p :=
  ⟨t.bank.set slot value h, t.accumulator.raised (t.bank.get slot) value⟩

/-- The register of a slot raised to a value, unless it is there already. -/
def update (t : Plain α p) (slot value : Nat) : Plain α p :=
  if h : value ≤ maxRegister then
    if slot < p.slots ∧ t.bank.get slot < value then t.raise slot value h else t
  else t

/-- Takes one step. -/
def apply (t : Plain α p) : Step → Plain α p
  | .update slot value => t.update slot value
  | .mark => ⟨t.bank, t.accumulator.markOutOfOrder⟩
  | .convert _ => t

/-- Takes the steps of a list in order. -/
def run (t : Plain α p) (steps : List Step) : Plain α p := steps.foldl apply t

theorem update_of_raise {t : Plain α p} {slot value : Nat} (hs : slot < p.slots)
    (hv : value ≤ maxRegister) (hlt : t.bank.get slot < value) :
    t.update slot value = t.raise slot value hv := by
  rw [update, dif_pos hv, if_pos ⟨hs, hlt⟩]

theorem update_of_not_raise {t : Plain α p} {slot value : Nat}
    (h : ¬ (slot < p.slots ∧ value ≤ maxRegister ∧ t.bank.get slot < value)) :
    t.update slot value = t := by
  rw [update]
  split
  · rename_i hv
    exact if_neg fun ⟨hs, hlt⟩ => h ⟨hs, hv, hlt⟩
  · rfl

theorem run_append (t : Plain α p) (steps : List Step) (st : Step) :
    t.run (steps ++ [st]) = (t.run steps).apply st := List.foldl_append ..

theorem bank_update (t : Plain α p) (slot value : Nat) :
    (t.update slot value).bank =
      if h : value ≤ maxRegister then
        if slot < p.slots ∧ t.bank.get slot < value then t.bank.set slot value h else t.bank
      else t.bank := by
  rw [update]
  split
  · split <;> rfl
  · rfl

/-- The registers do not depend on the statistics, nor on the numbers these are computed in. -/
theorem bank_run_congr {β : Type} [Arith β] {t : Plain α p} {u : Plain β p} (h : t.bank = u.bank)
    (steps : List Step) : (t.run steps).bank = (u.run steps).bank := by
  induction steps generalizing t u with
  | nil => exact h
  | cons st steps ih =>
      cases st with
      | update slot value =>
          refine @ih (t.update slot value) (u.update slot value) ?_
          rw [bank_update, bank_update, h]
      | mark => exact @ih (t.apply .mark) (u.apply .mark) h
      | convert e => exact @ih t u h

/-- What holds at the start and is kept by every step holds after every run. -/
theorem run_induction {P : Plain α p → Prop} {t : Plain α p} (h₀ : P t)
    (hstep : ∀ t st, P t → P (t.apply st)) (steps : List Step) : P (t.run steps) := by
  induction steps generalizing t with
  | nil => exact h₀
  | cons st steps ih => exact ih (hstep t st h₀)

/-- **Conversions leave no trace.** -/
theorem run_convert (t : Plain α p) (steps : List Step) :
    t.run (steps.filter (!·.isConvert)) = t.run steps := by
  induction steps generalizing t with
  | nil => rfl
  | cons st steps ih =>
      cases st with
      | update slot value => exact ih (t.update slot value)
      | mark => exact ih (t.apply .mark)
      | convert e => exact ih t

end Plain

end HyperLogLog
