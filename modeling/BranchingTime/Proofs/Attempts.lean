import BranchingTime.Error

set_option autoImplicit false

/-! # Computations that may fail

What a composed computation succeeds with, what it fails with, and from which class its errors come,
is told by its parts. -/

namespace BranchingTime

variable {ε α β : Type} {P : ε → Prop} {x : Except ε α} {f f' : α → Except ε β} {g : α → β} {a : α}
  {b : β} {e : ε}

/-! ## Success and failure -/

theorem bind_eq_ok : x >>= f = .ok b ↔ ∃ a, x = .ok a ∧ f a = .ok b := by
  cases x <;> simp [bind, Except.bind]

theorem bind_eq_error : x >>= f = .error e ↔ x = .error e ∨ ∃ a, x = .ok a ∧ f a = .error e := by
  cases x <;> simp [bind, Except.bind]

/-- What is done with the result need only be the same for the result that there is. -/
theorem bind_congr_ok (h : ∀ a, x = .ok a → f a = f' a) : x >>= f = x >>= f' := by
  cases x with
  | ok a => exact h a rfl
  | error e => rfl

theorem map_eq_ok : x.map g = .ok b ↔ ∃ a, x = .ok a ∧ g a = b := by
  cases x <;> simp [Except.map]

theorem map_eq_error : x.map g = .error e ↔ x = .error e := by
  cases x <;> simp [Except.map]

/-! ## Failures within a class -/

/-- The computation fails, if it fails, with an error of the class. -/
def FailsWithin (P : ε → Prop) (x : Except ε α) : Prop := ∀ e, x = .error e → P e

theorem failsWithin_ok (P : ε → Prop) (a : α) : FailsWithin P (.ok a) := by
  simp [FailsWithin]

theorem failsWithin_error (h : P e) : FailsWithin P (.error e : Except ε α) := by
  simpa [FailsWithin] using h

theorem FailsWithin.bind (hx : FailsWithin P x) (hf : ∀ a, x = .ok a → FailsWithin P (f a)) :
    FailsWithin P (x >>= f) := by
  intro e h
  rcases bind_eq_error.1 h with h | ⟨a, ha, h⟩
  · exact hx e h
  · exact hf a ha e h

end BranchingTime
