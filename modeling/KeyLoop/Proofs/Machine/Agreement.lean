/-
# Runs that agree

`Agrees R run run'` compares two runs from the outside: from states related by
`R` both come through, with one answer and in related states, or both fail.
The faults and what a failure leaves behind are not compared, since a fault may
name what the relation leaves open.

A step counts and acts.  Where related machines have used up as much of their
limit, steps agree as soon as what they do agrees (`agrees_counted`).
-/
import KeyLoop.Proofs.Machine.Meaning

namespace KeyLoop

section Rules

variable {ε σ α β : Type} {R : σ → σ → Prop}

/-- One answer in related states, or two faults. -/
def Agree (R : σ → σ → Prop) : EStateM.Result ε σ β → EStateM.Result ε σ β → Prop
  | .ok a s, .ok b t => a = b ∧ R s t
  | .error _ _, .error _ _ => True
  | _, _ => False

/-- From related states the two runs come to the same end. -/
def Agrees (R : σ → σ → Prop) (run run' : EStateM ε σ β) : Prop :=
  ∀ s t, R s t → Agree R (run s) (run' t)

theorem Agree.cases {a b : EStateM.Result ε σ β} (h : Agree R a b) :
    (∃ x s t, a = .ok x s ∧ b = .ok x t ∧ R s t) ∨ ∃ e f s t, a = .error e s ∧ b = .error f t := by
  cases a with
  | ok x s =>
    cases b with
    | ok y t =>
      obtain ⟨rfl, hst⟩ := h
      exact .inl ⟨x, s, t, rfl, rfl, hst⟩
    | error f t => exact h.elim
  | error e s =>
    cases b with
    | ok y t => exact h.elim
    | error f t => exact .inr ⟨e, f, s, t, rfl, rfl⟩

theorem agrees_pure (a : β) : Agrees R (pure a : EStateM ε σ β) (pure a) := fun _ _ h => ⟨rfl, h⟩

theorem agrees_throw (e f : ε) : Agrees R (throw e : EStateM ε σ β) (throw f) :=
  fun _ _ _ => trivial

theorem agrees_bind {run run' : EStateM ε σ α} {next next' : α → EStateM ε σ β}
    (h : Agrees R run run') (hnext : ∀ a, Agrees R (next a) (next' a)) :
    Agrees R (run >>= next) (run' >>= next') := by
  intro s t hst
  simp only [bind, EStateM.bind]
  rcases (h s t hst).cases with ⟨a, s', t', hr, hr', hst'⟩ | ⟨e, f, s', t', hr, hr'⟩
  · rw [hr, hr']
    exact hnext a s' t' hst'
  · rw [hr, hr']
    exact trivial

end Rules

namespace Machine

variable {R : Machine → Machine → Prop}

/-- Actions that agree, each counted as one instruction. -/
theorem agrees_counted (hexhausted : ∀ m n, R m n → (n.Exhausted ↔ m.Exhausted))
    (hbegun : ∀ m n, R m n → R m.begun n.begun) {act act' : Run Unit} (h : Agrees R act act') :
    Agrees R (counted act) (counted act') := by
  intro m n hmn
  by_cases hlimit : m.Exhausted
  · rw [counted, counted, if_pos hlimit, if_pos ((hexhausted m n hmn).mpr hlimit)]
    exact trivial
  · rw [counted, counted, if_neg hlimit, if_neg (mt (hexhausted m n hmn).mp hlimit)]
    exact h m.begun n.begun (hbegun m n hmn)

/-- An unsupported instruction fails, whether or not the limit is reached first. -/
theorem agrees_unsupported {i j : Instruction} (hi : Unsupported i) (hj : Unsupported j) :
    Agrees R (step i) (step j) := by
  intro m n _
  rw [step_eq, step_eq, if_pos hi, if_pos hj]
  split <;> split <;> exact trivial

end Machine

end KeyLoop
