import BranchingTime.Formula.Construct
import BranchingTime.Formula.Normal

set_option autoImplicit false

/-! # From parse trees to formulas

`Formula.ofTree` reads a parse tree as a formula, node by node. It accepts trees in which every
operator has its number of operands, atoms have none, and every path operator has its quantifier;
the defect that comes first, going from the root down and from left to right, is reported. Parsing
builds no other trees, so here a defect is an internal failure. -/

namespace BranchingTime.Formula

/-- The formula of an atom token: a literal, if it spells one. -/
def ofName (name : String) : Formula :=
  if name = literal true then truth true
  else if name = literal false then truth false
  else atom name

mutual

/-- The formula that a parse tree stands for. -/
def ofTree : Tree Construct → Except Error Formula
  | .node .atom text _ children =>
    if children.isEmpty then .ok (ofName text)
    else .error (.internal (.atomWithOperands text))
  | .node .not text _ children => do
    return not (← ofOne text children)
  | .node (.connect c) text _ children => do
    let (a, b) ← ofTwo text children
    return connect c a b
  | .node (.quantified q (.unary o)) text _ children => do
    return unary q o (← ofOne text children)
  | .node (.quantified q (.binary o)) text _ children => do
    let (a, b) ← ofTwo text children
    return binary q o a b
  | .node (.path _) text _ _ => .error (.internal (.notMinimal text))
  | .node (.quantifier _) text _ _ => .error (.internal (.notMinimal text))
  | .node .opening text _ _ => .error (.internal (.notMinimal text))
  | .node .closing text _ _ => .error (.internal (.notMinimal text))

/-- The only operand of the operator `text`. -/
def ofOne (text : String) : List (Tree Construct) → Except Error Formula
  | [a] => ofTree a
  | children => .error (.internal (.operandCount text 1 children.length))

/-- The two operands of the operator `text`. -/
def ofTwo (text : String) : List (Tree Construct) → Except Error (Formula × Formula)
  | [a, b] => do
    let a ← ofTree a
    let b ← ofTree b
    return (a, b)
  | children => .error (.internal (.operandCount text 2 children.length))

end

section

variable {a b : Tree Construct} {f g : Formula}

theorem ofTree_not (text : String) (span : Option Span) (ha : ofTree a = .ok f) :
    ofTree (.node .not text span [a]) = .ok (.not f) := by
  simp only [ofTree, ofOne, ha]
  rfl

theorem ofTree_connect (c : Connective) (text : String) (span : Option Span)
    (ha : ofTree a = .ok f) (hb : ofTree b = .ok g) :
    ofTree (.node (.connect c) text span [a, b]) = .ok (.connect c f g) := by
  simp only [ofTree, ofTwo, ha, hb]
  rfl

theorem ofTree_unary (q : Quantifier) (o : UnaryPath) (text : String) (span : Option Span)
    (ha : ofTree a = .ok f) :
    ofTree (.node (.quantified q (.unary o)) text span [a]) = .ok (.unary q o f) := by
  simp only [ofTree, ofOne, ha]
  rfl

theorem ofTree_binary (q : Quantifier) (o : BinaryPath) (text : String) (span : Option Span)
    (ha : ofTree a = .ok f) (hb : ofTree b = .ok g) :
    ofTree (.node (.quantified q (.binary o)) text span [a, b]) = .ok (.binary q o f g) := by
  simp only [ofTree, ofTwo, ha, hb]
  rfl

end

/-- The normalized formula that a parse tree stands for. -/
def normalOfTree (t : Tree Construct) : Except Error Formula := do
  return (← ofTree t).normalize

end BranchingTime.Formula
