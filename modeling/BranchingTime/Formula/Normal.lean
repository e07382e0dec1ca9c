import BranchingTime.Formula.Basic

set_option autoImplicit false

/-! # Normalization

`Formula.normalize` writes every operator in terms of the minimal set. Each operator has one rule,
which is applied to operands already normalized. Two negations, one directly under the other, are
taken away first. The rules negate their operands and results a good deal, and do so with
`Formula.negate`, which takes a negation away where there is one; so no negation stands directly
under another in the result. -/

namespace BranchingTime.Formula

/-- The negation of a formula, which takes one negation away from a negated formula. -/
def negate : Formula → Formula
  | not a => a
  | a => not a

/-- The rules for path operators with one operand. -/
def normalizeUnary : Quantifier → UnaryPath → Formula → Formula
  | .some, .next, a => ex a
  | .some, .always, a => eg a
  | .some, .eventually, a => eu (truth true) a
  | .every, .next, a => negate (ex (negate a))
  | .every, .always, a => negate (eu (truth true) (negate a))
  | .every, .eventually, a => negate (eg (negate a))

/-- The rules for path operators with two operands. -/
def normalizeBinary : Quantifier → BinaryPath → Formula → Formula → Formula
  | .some, .strongUntil, a, b => eu a b
  | .some, .release, a, b => and (eu b (and a b)) (negate (eg b))
  | .some, .weakUntil, a, b => and (eu (or a b) b) (negate (eg (or a b)))
  | .every, .strongUntil, a, b =>
    or (negate (eu (negate b) (and (negate a) (negate b)))) (eg (negate b))
  | .every, .release, a, b => negate (eu (negate a) (negate b))
  | .every, .weakUntil, a, b => negate (eu (negate b) (and (negate a) (negate b)))

/-- The formula in terms of the minimal set of operators. -/
def normalize : Formula → Formula
  | atom name => atom name
  | truth b => truth b
  | not (not a) => a.normalize
  | not a => negate a.normalize
  | connect c a b => connect c a.normalize b.normalize
  | unary q o a => normalizeUnary q o a.normalize
  | binary q o a b => normalizeBinary q o a.normalize b.normalize

end BranchingTime.Formula
