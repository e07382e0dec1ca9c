import BranchingTime.BitSet.Listing
import BranchingTime.Formula.Parser
import BranchingTime.Kripke.Satisfaction

set_option autoImplicit false

/-! # What a formula says of a whole model

A formula holds of a model if it holds at its initial states, at one of them or at all, as a
`Policy` says. Besides this verdict a checker tells the ids of the states at which a formula holds
and of the initial states at which it does not. -/

namespace BranchingTime

open CheckM (permit)

/-- Which initial states a formula has to hold at, so that it holds of a model. -/
inductive Policy where
  /-- At least one. -/
  | any
  /-- All of them. -/
  | all
deriving DecidableEq, Repr

namespace Checker

variable {ι : Type} [DecidableEq ι] [Hashable ι]

/-- Whether a formula that holds at the states of the set holds of the model. -/
def accepts (c : Checker ι) (policy : Policy) (set : BitSet) : Bool :=
  match policy with
  | .any => c.model.initials.any set.contains
  | .all => c.model.initials.all set.contains

/-- Whether a formula holds of the model. -/
def holds (c : Checker ι) (policy : Policy) (f : Formula) : CheckM Bool := do
  return c.accepts policy (← c.sat f)

/-- The ids of the states with the indices listed. -/
def idsAt (c : Checker ι) (indices : List Nat) : Except Misuse (List ι) :=
  indices.mapM fun i =>
    match c.model.state? i with
    | some s => .ok s.id
    | none => .error (.noState c.model.size i)

/-- The ids of the states in the set, in the order of the model. -/
def ids (c : Checker ι) (set : BitSet) : Except Misuse (List ι) := c.idsAt set.toList

/-- The ids of the states at which a formula holds. -/
def satisfying (c : Checker ι) (f : Formula) : CheckM (List ι) := do
  permit (c.ids (← c.sat f))

/-- The ids of the initial states at which a formula does not hold. -/
def violations (c : Checker ι) (f : Formula) : CheckM (List ι) := do
  let set ← c.sat f
  permit (c.idsAt (c.model.initials.filter fun i => !set.contains i))

end Checker

/-- Whether a formula holds of a model. -/
def check {ι : Type} [DecidableEq ι] [Hashable ι] (m : Model ι) (policy : Policy) (f : Formula) :
    Except Error Bool :=
  ((Checker.ofModel m).holds policy f).result

/-- Whether the formula that a text spells holds of a model. -/
def checkText {ι : Type} [DecidableEq ι] [Hashable ι] (m : Model ι) (policy : Policy)
    (text : String) : Except Error Bool := do
  check m policy (← Formula.parse text)

end BranchingTime
