import HyperLogLog.Limits

/-!
# Faults

A fault is a broken promise: an argument outside its declared range, or a state no sequence of
valid calls leads to.  A query that can fault returns `Except Fault`.  An operation on a state
returns an `Outcome`, which carries the state it leaves behind in both cases, so that "the state is
as it was" is a statement about a value.
-/

namespace HyperLogLog

/-- The ways a call can break down. -/
inductive Fault where
  /-- A logarithm of the register count outside the supported range. -/
  | precision (lgK : Nat)
  /-- A register value above the largest one. -/
  | valueTooLarge (value : Nat)
  /-- A slot that is not below the register count. -/
  | slotOutOfRange (slots slot : Nat)
  /-- A raise that does not raise. -/
  | notIncreasing (old new : Nat)
  /-- A second insertion of a slot into the overflow map. -/
  | slotPresent (slot : Nat)
  /-- A replacement at a slot the overflow map does not hold. -/
  | slotAbsent (slot : Nat)
  /-- A probe that saw every cell of the overflow map and found none vacant. -/
  | mapFull
  /-- A slot met twice while the overflow map is rebuilt. -/
  | duplicateSlot
  /-- An insertion of the value that no overflow entry has. -/
  | zeroEntry (slot : Nat)
  /-- A marked slot without an overflow entry. -/
  | entryMissing (slot : Nat)
  /-- A marked slot without an overflow map. -/
  | mapMissing
  /-- A marked slot written with a value that would fit its nibble. -/
  | exceptionReturns
  /-- A write at or below the baseline. -/
  | notAboveBaseline (base value : Nat)
  /-- A register on a baseline that is about to rise. -/
  | onBaseline
  /-- A baseline that falls. -/
  | baselineFalls
  /-- A value that does not fit six bits. -/
  | sixBits (value : Nat)
  /-- Values that are not one for each register. -/
  | valueCount (slots values : Nat)
  /-- A sum or an increment past the width of its field. -/
  | overflow
  /-- A difference or a decrement below zero. -/
  | underflow
  /-- An index outside an array. -/
  | indexOutOfRange (size index : Nat)
deriving DecidableEq, Repr

namespace Fault

/-- The text of a state that valid calls never lead to. -/
def unreachable (what : String) : String :=
  "internal error: entered unreachable code: " ++ what

/-- What a fault says. -/
def message : Fault → String
  | precision lgK => unsupportedLgK lgK
  | valueTooLarge value => s!"register value must be at most {maxRegister}, got {value}"
  | slotOutOfRange slots slot => s!"slot must be less than {slots}, got {slot}"
  | notIncreasing old new => s!"register values only increase: old {old}, new {new}"
  | slotPresent slot => unreachable s!"slot {slot} already exists in aux map"
  | slotAbsent slot => unreachable s!"slot {slot} not found in aux map"
  | mapFull => unreachable "AuxMap full; no empty slots"
  | duplicateSlot => unreachable "duplicate slot while rehashing aux map"
  | zeroEntry slot => s!"the overflow entry of slot {slot} must be positive"
  | entryMissing slot => unreachable s!"slot {slot} holds AUX_TOKEN but has no aux entry"
  | mapMissing => unreachable "AUX_TOKEN present without an aux map"
  | exceptionReturns => unreachable "AUX_TOKEN present with non-exception new value"
  | notAboveBaseline base value => s!"value {value} is not above the baseline {base}"
  | onBaseline => "no slot may sit at cur_min when shifting"
  | baselineFalls => "the baseline only rises"
  | sixBits value => s!"6-bit value must be 0-63, got {value}"
  | valueCount slots values => s!"{slots} registers are built from as many values, got {values}"
  | overflow => "attempt to add with overflow"
  | underflow => "attempt to subtract with overflow"
  | indexOutOfRange size index =>
      s!"index out of bounds: the len is {size} but the index is {index}"

end Fault

/-- How an operation on a state ends: done, or stopped at a fault.  Either way with the state it
leaves behind. -/
inductive Outcome (σ : Type) where
  | done (state : σ)
  | faulted (fault : Fault) (state : σ)

namespace Outcome

variable {σ τ ι : Type}

/-- The state left behind. -/
def state : Outcome σ → σ
  | done s | faulted _ s => s

/-- The fault that stopped the operation, if one did. -/
def fault? : Outcome σ → Option Fault
  | done _ => none
  | faulted f _ => some f

/-- The state if the operation was done, and otherwise its fault. -/
def toExcept : Outcome σ → Except Fault σ
  | done s => .ok s
  | faulted f _ => .error f

/-- Carries the state into a larger one. -/
@[inline]
def map (f : σ → τ) : Outcome σ → Outcome τ
  | done s => done (f s)
  | faulted e s => faulted e (f s)

/-- Goes on from a state that was reached without a fault. -/
@[inline]
def andThen (o : Outcome σ) (next : σ → Outcome σ) : Outcome σ :=
  match o with
  | done s => next s
  | faulted e s => faulted e s

/-- One step per item, up to the first fault. -/
@[specialize]
def forEach (step : σ → ι → Outcome σ) : List ι → σ → Outcome σ
  | [], s => done s
  | x :: xs, s =>
      match step s x with
      | done s => forEach step xs s
      | faulted e s => faulted e s

/-- The same step `n` times, up to the first fault. -/
@[specialize]
def times (step : σ → Outcome σ) : Nat → σ → Outcome σ
  | 0, s => done s
  | n + 1, s =>
      match step s with
      | done s => times step n s
      | faulted e s => faulted e s

end Outcome

end HyperLogLog
