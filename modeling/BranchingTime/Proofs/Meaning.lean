import BranchingTime.Proofs.Paths
import BranchingTime.Proofs.Successors

set_option autoImplicit false

/-! # The meaning of formulas

`Formula.Holds` says at which states of a model a formula holds. It speaks of the paths through the
model, and not of sets of states or of iterations. Formulas outside the minimal set of operators
have a meaning of their own, which does not refer to normalization. -/

namespace BranchingTime

variable {ι : Type}

/-- What a connective says of the truth of its operands. -/
def Connective.combine : Connective → Prop → Prop → Prop
  | and, p, q => p ∧ q
  | or, p, q => p ∨ q
  | implies, p, q => p → q

/-- The formula holds at the state with the index `i`. -/
def Formula.Holds (m : Model ι) : Formula → Nat → Prop
  | atom name, i => ∃ s, m.states[i]? = some s ∧ s.has name = true
  | truth b, _ => b = true
  | not a, i => ¬ a.Holds m i
  | connect c a b, i => c.combine (a.Holds m i) (b.Holds m i)
  | unary q o a, i => holdsUnary m.Step q o (a.Holds m) i
  | binary q o a b, i => holdsBinary m.Step q o (a.Holds m) (b.Holds m) i

/-- Every state has a successor. -/
def Model.Serial (m : Model ι) : Prop := ∀ i < m.size, ∃ j, m.Step i j

/-- In a model in which every state has a successor, all paths go on. -/
theorem Model.Serial.goesOn {m : Model ι} (h : m.Serial) {i : Nat} (hi : i < m.size) :
    GoesOn m.Step i :=
  goesOn_of_serial (fun _ _ _ hstep => hstep.lt_right) h hi

end BranchingTime
