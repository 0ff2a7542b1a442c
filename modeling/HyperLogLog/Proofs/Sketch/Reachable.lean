import HyperLogLog.Proofs.Sketch.Simulation

/-!
# Reachable sketches

The sketches that calls lead to from a new one: updates, marks and conversions, in any order, where
a call that is refused may be followed by another.  Every reachable sketch encodes some plain sketch
(`Reachable.encodes`), and that is all that is ever used of it.
-/

namespace HyperLogLog.Sketch

variable {α : Type} [Arith α] {s s' : Sketch α} {e : Encoding} {lgK : Nat}

/-- A new sketch, or what a step leaves behind of a reachable one. -/
inductive Reachable : Sketch α → Prop where
  | new {lgK : Nat} {e : Encoding} {s : Sketch α} (h : Sketch.new lgK e = .ok s) : Reachable s
  | step {s : Sketch α} (h : Reachable s) (st : Step) : Reachable (s.apply st).state

/-- A supported precision gives the sketch of that precision. -/
theorem new_eq_ok (h : minLgK ≤ lgK ∧ lgK ≤ maxLgK) (e : Encoding) :
    Sketch.new lgK e = .ok (empty ⟨lgK, h.1, h.2⟩ e : Sketch α) := by
  rw [Sketch.new, Precision.ofNat?, dif_pos h]

theorem encodes_of_new (h : Sketch.new lgK e = .ok s) :
    ∃ p : Precision, p.lg = lgK ∧ s.Encodes e (Plain.empty p) := by
  rw [Sketch.new] at h
  split at h
  · cases h
  · rename_i p hp
    rw [Precision.ofNat?] at hp
    split at hp
    · obtain rfl := Option.some.inj hp
      exact ⟨_, rfl, Except.ok.inj h ▸ encodes_empty _ e⟩
    · cases hp

/-- **A reachable sketch encodes a plain one**, namely what the steps that led to it make of the
plain sketch whose registers are all zero. -/
theorem Reachable.encodes (h : Reachable s) :
    ∃ (p : Precision) (steps : List Step),
      s.Encodes s.encoding ((Plain.empty p : Plain α p).run steps) := by
  induction h with
  | @new lgK e s h =>
      obtain ⟨p, -, hp⟩ := encodes_of_new h
      exact ⟨p, [], hp.encoding_eq.symm ▸ hp⟩
  | step h st ih =>
      obtain ⟨p, steps, ht⟩ := ih
      have hstep := ht.apply_state st
      refine ⟨p, steps ++ [st], ?_⟩
      rw [Plain.run_append]
      exact hstep.encoding_eq.symm ▸ hstep

theorem reachable_empty (p : Precision) (e : Encoding) : Reachable (empty p e : Sketch α) :=
  .new (new_eq_ok ⟨p.minLgK_le, p.le_maxLgK⟩ e)

/-- The sketch that steps leave behind, those that are refused included. -/
def after (s : Sketch α) (steps : List Step) : Sketch α :=
  steps.foldl (fun s st => (s.apply st).state) s

/-- What steps leave behind encodes what they make of the plain sketch. -/
theorem Encodes.after {p : Precision} {t : Plain α p} (h : s.Encodes e t) (steps : List Step) :
    (s.after steps).Encodes (steps.foldl Step.encoding e) (t.run steps) := by
  induction steps generalizing s e t with
  | nil => exact h
  | cons st steps ih => exact ih (h.apply_state st)

/-- A run ends at a reachable sketch, wherever it stops. -/
theorem Reachable.run (h : Reachable s) (steps : List Step) : Reachable (s.run steps).state := by
  induction steps generalizing s with
  | nil => exact h
  | cons st steps ih =>
      have hstep := h.step st
      rw [Sketch.run, Outcome.forEach]
      generalize s.apply st = o at hstep ⊢
      cases o with
      | done s' => exact ih hstep
      | faulted f s' => exact hstep

end HyperLogLog.Sketch
