import Std.Data.TreeSet

set_option autoImplicit false

/-! # States

A state has an id that its model's author has chosen, properties, and the ids of the states that can
come next. It may be initial. The functions here build a state up, one part at a time. -/

namespace BranchingTime

/-- A state whose id is of type `ι`. -/
structure State (ι : Type) where
  id : ι
  isInitial : Bool
  /-- The names of the propositions that hold in the state. -/
  properties : Std.TreeSet String
  /-- The ids of the states that can come next. No state need have such an id. -/
  transitions : List ι

namespace State

variable {ι : Type}

/-- The state with the id `i` that is not initial, with no properties and no transitions. -/
def ofId (i : ι) : State ι := ⟨i, false, ∅, []⟩

/-- The same state, initial or not. -/
def setInitial (s : State ι) (b : Bool) : State ι := { s with isInitial := b }

/-- The state with one more property. -/
def addProperty (s : State ι) (p : String) : State ι :=
  { s with properties := s.properties.insert p }

/-- The state with more properties. -/
def addProperties (s : State ι) (ps : List String) : State ι := ps.foldl addProperty s

/-- Whether the proposition holds in the state. -/
def has (s : State ι) (p : String) : Bool := s.properties.contains p

/-- The state with one more transition, unless it has that one already. -/
def addTransition [DecidableEq ι] (s : State ι) (target : ι) : State ι :=
  if target ∈ s.transitions then s else { s with transitions := s.transitions ++ [target] }

/-- The state with more transitions. -/
def addTransitions [DecidableEq ι] (s : State ι) (targets : List ι) : State ι :=
  targets.foldl addTransition s

end State

end BranchingTime
