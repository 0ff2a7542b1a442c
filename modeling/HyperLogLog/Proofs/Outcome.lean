import HyperLogLog.Fault

/-!
# Outcomes — sequencing and loops

How `map`, `andThen` and `state` act on an outcome of known shape, and the rule for loops:
`forEach_done` takes an invariant that speaks of the items done so far and concludes that the loop
runs to its end, with the invariant at the whole list.
-/

namespace HyperLogLog.Outcome

variable {σ τ ι : Type}

@[simp] theorem state_done (s : σ) : (done s).state = s := rfl

@[simp] theorem state_faulted (f : Fault) (s : σ) : (faulted f s).state = s := rfl

@[simp] theorem map_done (g : σ → τ) (s : σ) : (done s).map g = done (g s) := rfl

@[simp] theorem map_faulted (g : σ → τ) (f : Fault) (s : σ) :
    (faulted f s).map g = faulted f (g s) := rfl

/-- What is carried into a larger state was done before. -/
theorem of_map_eq_done {o : Outcome σ} {g : σ → τ} {t : τ} (h : o.map g = done t) :
    ∃ s, o = done s ∧ g s = t := by
  cases o with
  | done s => exact ⟨s, rfl, done.inj h⟩
  | faulted f s => cases h

@[simp] theorem andThen_done (s : σ) (next : σ → Outcome σ) : (done s).andThen next = next s := rfl

@[simp] theorem andThen_faulted (f : Fault) (s : σ) (next : σ → Outcome σ) :
    (faulted f s).andThen next = faulted f s := rfl

@[simp] theorem toExcept_done (s : σ) : (done s).toExcept = .ok s := rfl

@[simp] theorem fault?_done (s : σ) : (done s).fault? = none := rfl

@[simp] theorem fault?_faulted (f : Fault) (s : σ) : (faulted f s).fault? = some f := rfl

/-- **A loop keeps its invariant.**  If the invariant holds of no items at the start, and each
item of the list takes it from the items before it to those up to it, the loop is done and the
invariant holds of the whole list. -/
theorem forEach_done {P : List ι → σ → Prop} {step : σ → ι → Outcome σ} {xs : List ι} {s : σ}
    (h₀ : P [] s)
    (hstep : ∀ pre x post s, xs = pre ++ x :: post → P pre s →
      ∃ s', step s x = done s' ∧ P (pre ++ [x]) s') :
    ∃ s', forEach step xs s = done s' ∧ P xs s' := by
  have go : ∀ post pre s, xs = pre ++ post → P pre s →
      ∃ s', forEach step post s = done s' ∧ P xs s' := by
    intro post
    induction post with
    | nil =>
        intro pre s e hs
        rw [List.append_nil] at e
        exact ⟨s, rfl, e ▸ hs⟩
    | cons x post ih =>
        intro pre s e hs
        obtain ⟨s₁, h₁, hs₁⟩ := hstep pre x post s e hs
        obtain ⟨s', h', hs'⟩ := ih (pre ++ [x]) s₁ (by rw [e]; simp) hs₁
        exact ⟨s', by rw [forEach, h₁]; exact h', hs'⟩
  exact go xs [] s rfl h₀

end HyperLogLog.Outcome
