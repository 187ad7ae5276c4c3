/-!
# Results of chained computations

Reading, evaluating and differentiating chain computations that may fail. A chain gives a value when
each of its links does, and an error when its first link fails or the rest of it does.
-/

namespace SymbolicCalculus

variable {ε α β : Type}

/-- A chain gives a value if and only if both of its links do. -/
theorem bind_eq_ok_iff {x : Except ε α} {f : α → Except ε β} {b : β} :
    (x >>= f) = .ok b ↔ ∃ a, x = .ok a ∧ f a = .ok b := by
  constructor
  · intro h
    cases x with
    | error err => cases h
    | ok a => exact ⟨a, rfl, h⟩
  · rintro ⟨a, rfl, hf⟩
    exact hf

/-- A chain fails if and only if its first link does or the second one does after it. -/
theorem bind_eq_error_iff {x : Except ε α} {f : α → Except ε β} {err : ε} :
    (x >>= f) = .error err ↔ x = .error err ∨ ∃ a, x = .ok a ∧ f a = .error err := by
  constructor
  · intro h
    cases x with
    | error err' =>
        cases h
        exact Or.inl rfl
    | ok a => exact Or.inr ⟨a, rfl, h⟩
  · rintro (rfl | ⟨a, rfl, hf⟩)
    · rfl
    · exact hf

theorem map_map {γ : Type} (f : α → β) (g : β → γ) (x : Except ε α) :
    (x.map f).map g = x.map fun a => g (f a) := by
  cases x <;> rfl

theorem map_bind {γ : Type} (x : Except ε α) (f : α → Except ε β) (g : β → γ) :
    (x >>= f).map g = x >>= fun a => (f a).map g := by
  cases x <;> rfl

theorem bind_of_map {γ : Type} (f : α → β) (x : Except ε α) (g : β → Except ε γ) :
    (x.map f >>= g) = x >>= fun a => g (f a) := by
  cases x <;> rfl

theorem map_eq_ok_iff {f : α → β} {x : Except ε α} {b : β} :
    x.map f = .ok b ↔ ∃ a, x = .ok a ∧ f a = b := by
  cases x <;> simp [Except.map]

/-- The error of a computation that fails. -/
def failure? : Except ε α → Option ε
  | .error err => some err
  | .ok _ => none

theorem failure?_eq_some_iff {x : Except ε α} {err : ε} :
    failure? x = some err ↔ x = .error err := by
  cases x <;> simp [failure?]

theorem failure?_eq_none_iff {x : Except ε α} : failure? x = none ↔ ∃ a, x = .ok a := by
  cases x <;> simp [failure?]

/-- If the error of the rest does not depend on the first result, the earlier error counts. -/
theorem failure?_bind {x : Except ε α} {f : α → Except ε β} {rest : Option ε}
    (h : ∀ a, failure? (f a) = rest) : failure? (x >>= f) = (failure? x).or rest := by
  cases x with
  | error err => rfl
  | ok a => exact h a

theorem failure?_bind_pure (x : Except ε α) (g : α → β) :
    failure? (x >>= fun a => pure (g a)) = failure? x := by
  cases x <;> rfl

end SymbolicCalculus
