import BranchingTime.BitSet.Size
import BranchingTime.Formula.Basic
import BranchingTime.Kripke.Fixpoint
import BranchingTime.Kripke.Model

set_option autoImplicit false

/-! # The states at which a formula holds

`Checker.sat` computes the set of states at which a normalized formula holds, from the sets of its
operands. Propositional operators are operations on sets, and `EX` is the set of predecessors. The
states of `EG a` are what is left of the states of `a` when states without a successor in the set
are taken out until there are none (`Checker.shrink`); those of `E(a U b)` are the states of `b` and
what is added when states of `a` with a successor in the set are put in until none is missing
(`Checker.grow`). Both end, as every step that changes the set makes it smaller, or larger. -/

namespace BranchingTime

open CheckM (permit)

/-- A model prepared for checking. -/
structure Checker (ι : Type) [DecidableEq ι] [Hashable ι] where
  model : Model ι
  /-- The successors of each state, by index. -/
  successors : Array (List Nat)
  successors_eq : successors = model.successors

namespace Checker

variable {ι : Type} [DecidableEq ι] [Hashable ι]

/-- Prepare a model for checking. -/
def ofModel (m : Model ι) : Checker ι := ⟨m, m.successors, rfl⟩

/-! ## Sets of states -/

/-- All states. -/
def states (c : Checker ι) : BitSet := .full c.model.size

/-- The states with a successor in the set. -/
def pre (c : Checker ι) (y : BitSet) : Except Misuse BitSet :=
  BitSet.ofIndices c.model.size <|
    (List.range c.model.size).filter fun i => (c.successors.getD i []).any y.contains

/-- Take the states without a successor in the set out of it. -/
def shrinkStep (c : Checker ι) (y : BitSet) : Except Misuse BitSet := do
  y.inter (← c.pre y)

/-- Put the states of `w` with a successor in the set into it. -/
def growStep (c : Checker ι) (w y : BitSet) : Except Misuse BitSet := do
  y.union (← w.inter (← c.pre y))

theorem size_lt_of_shrinkStep (c : Checker ι) (y z : BitSet) (h : c.shrinkStep y = .ok z)
    (hne : z ≠ y) : z.size < y.size := by
  unfold shrinkStep at h
  cases hpre : c.pre y with
  | error e =>
    rw [hpre] at h
    cases h
  | ok p =>
    rw [hpre] at h
    exact BitSet.size_lt_of_inter h hne

theorem room_lt_of_growStep (c : Checker ι) (w y z : BitSet) (h : c.growStep w y = .ok z)
    (hne : z ≠ y) : z.room < y.room := by
  unfold growStep at h
  cases hpre : c.pre y with
  | error e =>
    rw [hpre] at h
    cases h
  | ok p =>
    rw [hpre] at h
    cases hinter : w.inter p with
    | error e =>
      simp only [bind, Except.bind, hinter] at h
      cases h
    | ok v =>
      simp only [bind, Except.bind, hinter] at h
      exact BitSet.room_lt_of_union h hne

/-- What is left of the set when no state without a successor in it is left. -/
def shrink (c : Checker ι) (y : BitSet) : CheckM BitSet :=
  untilStable c.shrinkStep BitSet.size c.size_lt_of_shrinkStep y

/-- What the set has become when no state of `w` with a successor in it is missing. -/
def grow (c : Checker ι) (w y : BitSet) : CheckM BitSet :=
  untilStable (c.growStep w) BitSet.room (c.room_lt_of_growStep w) y

/-! ## Formulas -/

/-- The states at which a normalized formula holds. -/
def sat (c : Checker ι) : Formula → CheckM BitSet
  | .truth true => pure c.states
  | .truth false => pure (.empty c.model.size)
  | .atom name => permit (BitSet.ofIndices c.model.size (c.model.indicesWith name))
  | .not a => do
    return (← c.sat a).compl
  | .or a b => do
    let x ← c.sat a
    let y ← c.sat b
    permit (x.union y)
  | .and a b => do
    let x ← c.sat a
    let y ← c.sat b
    permit (x.inter y)
  | .implies a b => do
    let x ← c.sat a
    let y ← c.sat b
    let both ← permit (x.inter y)
    permit (both.union x.compl)
  | .ex a => do
    permit (c.pre (← c.sat a))
  | .eg a => do
    c.shrink (← c.sat a)
  | .eu a b => do
    let w ← c.sat a
    let y ← c.sat b
    c.grow w y
  | .unary q o a => throw (.internal (.notMinimal (Formula.unary q o a).label))
  | .binary q o a b => throw (.internal (.notMinimal (Formula.binary q o a b).label))

end Checker

end BranchingTime
