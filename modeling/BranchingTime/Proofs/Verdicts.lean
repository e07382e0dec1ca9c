import BranchingTime.Kripke.Verdict
import BranchingTime.Proofs.Satisfaction

set_option autoImplicit false

/-! # Verdicts

A set that represents a predicate on the states decides what a policy asks of the initial states. So
the verdict on a normalized formula is told by the states at which the formula holds. -/

namespace BranchingTime

/-- What the policy asks of a predicate on states, if the states listed are the initial ones. -/
def Policy.Accepts : Policy → List Nat → (Nat → Prop) → Prop
  | any, initials, P => ∃ i ∈ initials, P i
  | all, initials, P => ∀ i ∈ initials, P i

variable {ι : Type} {m : Model ι} {i : Nat}

theorem Model.mem_initials :
    i ∈ m.initials ↔ ∃ s, m.states[i]? = some s ∧ s.isInitial = true :=
  mem_indicesWhere

namespace Checker

variable [DecidableEq ι] [Hashable ι] {c : Checker ι} {s : BitSet} {P : Nat → Prop}
  {policy : Policy} {f : Formula}

theorem accepts_iff (hs : s.Represents c.model.size P) :
    c.accepts policy s = true ↔ policy.Accepts c.model.initials P := by
  have hmem : ∀ i ∈ c.model.initials, s.contains i = true ↔ P i :=
    fun i hi => hs.mem i (Model.lt_size_of_mem_indicesWhere hi)
  cases policy with
  | any =>
    rw [accepts, List.any_eq_true]
    exact exists_congr fun i => and_congr_right (hmem i)
  | all =>
    rw [accepts, List.all_eq_true]
    exact forall₂_congr hmem

/-- A normalized formula has a verdict, which is about the initial states at which it holds. -/
theorem exists_check_eq (m : Model ι) (policy : Policy) (hf : f.isNormal = true) :
    ∃ b, check m policy f = .ok b ∧ (b = true ↔ policy.Accepts m.initials (f.Holds m)) := by
  obtain ⟨s, k, hs, hrep⟩ := (ofModel m).finds_of_isNormal hf
  have hholds : ((ofModel m).holds policy f).Yields (.ok ((ofModel m).accepts policy s)) (k + 0) :=
    hs.bind (CheckM.yields_pure _)
  exact ⟨_, congrArg Prod.fst (hholds 0), accepts_iff hrep⟩

end Checker

end BranchingTime
