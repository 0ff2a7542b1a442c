import HyperLogLog.Sketch.Basic

/-!
# Runs

What can happen to a sketch, as data: a step is an update, a mark or a conversion, and a run is a
list of steps.  A run stops at the first step that faults, in the state that step leaves behind.
-/

namespace HyperLogLog.Sketch

/-- Something that happens to a sketch. -/
inductive Step where
  | update (slot value : Nat)
  | mark
  | convert (e : Encoding)
deriving DecidableEq, Repr

/-- Whether a step is one its caller may ask for, at `2 ^ lgK` registers. -/
def Step.Valid (lgK : Nat) : Step → Prop
  | .update slot value => slot < Nat.pow 2 lgK ∧ value ≤ maxRegister
  | .mark | .convert _ => True

instance (lgK : Nat) : DecidablePred (Step.Valid lgK)
  | .update slot value => inferInstanceAs (Decidable (slot < Nat.pow 2 lgK ∧ value ≤ maxRegister))
  | .mark | .convert _ => inferInstanceAs (Decidable True)

variable {α : Type} [Arith α]

/-- Takes one step.  A conversion replaces the sketch. -/
@[specialize]
def apply (s : Sketch α) : Step → Outcome (Sketch α)
  | .update slot value => s.update slot value
  | .mark => .done s.markOutOfOrder
  | .convert e =>
      match s.convert e with
      | .ok t => .done t
      | .error f => .faulted f s

/-- Takes the steps of a list in order. -/
@[specialize]
def run (s : Sketch α) (steps : List Step) : Outcome (Sketch α) :=
  Outcome.forEach apply steps s

end HyperLogLog.Sketch
