import BranchingTime.Proofs.Normalization

set_option autoImplicit false

/-! # Subformulas

The subformulas of a formula stand in prefix order: each before its own subformulas, and those of
its operands from left to right. What is asked of a whole formula is told by its subformulas: it is
normalized if all of them have operators of the minimal set, and no negation stands directly under
another if none of them is a double negation. -/

namespace BranchingTime.Formula

variable {a f : Formula}

/-- The formula and the subformulas of its operands, in prefix order. -/
def subformulas : Formula → List Formula
  | atom name => [atom name]
  | truth b => [truth b]
  | not a => not a :: a.subformulas
  | connect c a b => connect c a b :: (a.subformulas ++ b.subformulas)
  | unary q o a => unary q o a :: a.subformulas
  | binary q o a b => binary q o a b :: (a.subformulas ++ b.subformulas)

theorem isNormal_iff_forall_isMinimal :
    f.isNormal = true ↔ ∀ g ∈ f.subformulas, g.isMinimal = true := by
  induction f with
  | atom name => simp [isNormal, subformulas, isMinimal]
  | truth b => simp [isNormal, subformulas, isMinimal]
  | not a iha =>
    rw [subformulas, List.forall_mem_cons, ← iha]
    simp [isNormal, isMinimal]
  | connect c a b iha ihb =>
    rw [subformulas, List.forall_mem_cons, List.forall_mem_append, ← iha, ← ihb]
    simp [isNormal, isMinimal]
  | unary q o a iha =>
    rw [subformulas, List.forall_mem_cons, ← iha]
    simp [isNormal]
  | binary q o a b iha ihb =>
    rw [subformulas, List.forall_mem_cons, List.forall_mem_append, ← iha, ← ihb]
    simp [isNormal, and_assoc]

theorem isNegation_eq_false_iff : a.isNegation = false ↔ ∀ b, not b ≠ a := by
  cases a <;> simp [isNegation]

theorem isReduced_iff_forall_ne :
    f.isReduced = true ↔ ∀ a, not (not a) ∉ f.subformulas := by
  induction f with
  | atom name => simp [isReduced, subformulas]
  | truth b => simp [isReduced, subformulas]
  | not a iha =>
    simp [isReduced, subformulas, iha, isNegation_eq_false_iff, forall_and]
  | connect c a b iha ihb => simp [isReduced, subformulas, iha, ihb, forall_and]
  | unary q o a iha => simp [isReduced, subformulas, iha]
  | binary q o a b iha ihb => simp [isReduced, subformulas, iha, ihb, forall_and]

end BranchingTime.Formula
