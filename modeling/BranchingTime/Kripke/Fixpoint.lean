import BranchingTime.BitSet.Basic

set_option autoImplicit false

/-! # Repeating a step until nothing changes

A step on sets is repeated until it leaves the set as it is (`untilStable`). Whoever repeats a step
has to show that it cannot change a set for ever, by a rank that every change lowers. Steps that
change the set are counted, and the count survives a failure; a computation that counts is a
`CheckM`. -/

namespace BranchingTime

/-! ## Computations that count -/

/-- A computation that may fail and counts steps. -/
abbrev CheckM := ExceptT Error (StateM Nat)

namespace CheckM

variable {α : Type}

/-- What a computation gives if the count is `n` before, and the count after it. -/
def exec (x : CheckM α) (n : Nat) : Except Error α × Nat := x.run.run n

/-- What a computation gives. -/
def result (x : CheckM α) : Except Error α := (x.exec 0).1

/-- Count one step. -/
def tick : CheckM Unit := modify (· + 1)

/-- Go on with a value, or fail. -/
def permit (x : Except Misuse α) : CheckM α :=
  match x with
  | .ok a => pure a
  | .error e => throw (.misuse e)

end CheckM

/-! ## Repetition -/

/-- Repeat a step until it changes nothing, and count the changes. Every change lowers the rank of
    the set. -/
def untilStable (step : BitSet → Except Misuse BitSet) (rank : BitSet → Nat)
    (descends : ∀ y z, step y = .ok z → z ≠ y → rank z < rank y) (y : BitSet) : CheckM BitSet :=
  match h : step y with
  | .error e => throw (.misuse e)
  | .ok z =>
    if same : z = y then pure y
    else do
      CheckM.tick
      have : rank z < rank y := descends y z h same
      untilStable step rank descends z
termination_by rank y

section

variable {step : BitSet → Except Misuse BitSet} {rank : BitSet → Nat}
  {descends : ∀ y z, step y = .ok z → z ≠ y → rank z < rank y}

theorem untilStable_of_error {y : BitSet} {e : Misuse} (h : step y = .error e) :
    untilStable step rank descends y = throw (.misuse e) := by
  rw [untilStable]
  split
  · next h' =>
    rw [h] at h'
    cases h'
    rfl
  · next h' =>
    rw [h] at h'
    cases h'

theorem untilStable_of_eq {y : BitSet} (h : step y = .ok y) :
    untilStable step rank descends y = pure y := by
  rw [untilStable]
  split
  · next h' =>
    rw [h] at h'
    cases h'
  · next h' =>
    rw [h] at h'
    cases h'
    rw [dif_pos rfl]

theorem untilStable_of_ne {y z : BitSet} (h : step y = .ok z) (hne : z ≠ y) :
    untilStable step rank descends y = (do
      CheckM.tick
      untilStable step rank descends z) := by
  rw [untilStable]
  split
  · next h' =>
    rw [h] at h'
    cases h'
  · next h' =>
    rw [h] at h'
    cases h'
    rw [dif_neg hne]

end

end BranchingTime
