import Std.Data.TreeSet

set_option autoImplicit false

/-! # Branching time formulas

A formula speaks about the states of a transition system. A path quantifier says whether some path
or every path from a state is meant, and the path operator that comes with it says what holds along
the path. Six operators form the *minimal set* that a checker has to understand: the four
propositional ones, and of the others `EX`, `EG` and `EU`. A formula built from these alone is
*normalized*. -/

namespace BranchingTime

/-! ## Operators -/

/-- Which of the paths from a state are meant. -/
inductive Quantifier where
  /-- At least one of them. -/
  | some
  /-- All of them. -/
  | every
deriving DecidableEq, Repr

/-- What one formula says along a path. -/
inductive UnaryPath where
  /-- It holds at the second state. -/
  | next
  /-- It holds at some state. -/
  | eventually
  /-- It holds at every state. -/
  | always
deriving DecidableEq, Repr

/-- What two formulas say along a path. -/
inductive BinaryPath where
  /-- The second one holds at some state, and the first one at all states before. -/
  | strongUntil
  /-- The second one holds up to and including the first state, if any, where the first one
      does. -/
  | release
  /-- The first one holds at every state, or until the second one does. -/
  | weakUntil
deriving DecidableEq, Repr

/-- The propositional operators with two operands. -/
inductive Connective where
  | and
  | or
  | implies
deriving DecidableEq, Repr

namespace Quantifier

/-- The letter that denotes the quantifier. -/
def letter : Quantifier → Char
  | some => 'E'
  | every => 'A'

end Quantifier

namespace UnaryPath

/-- The letter that denotes the path operator. -/
def letter : UnaryPath → Char
  | next => 'X'
  | eventually => 'F'
  | always => 'G'

end UnaryPath

namespace BinaryPath

/-- The letter that denotes the path operator. -/
def letter : BinaryPath → Char
  | strongUntil => 'U'
  | release => 'R'
  | weakUntil => 'W'

end BinaryPath

namespace Connective

/-- The sign that denotes the connective. -/
def sign : Connective → String
  | and => "&"
  | or => "|"
  | implies => "->"

end Connective

/-! ## Formulas -/

/-- A formula of branching time logic over named propositions. -/
inductive Formula where
  | atom (name : String)
  | truth (value : Bool)
  | not (a : Formula)
  | connect (c : Connective) (a b : Formula)
  | unary (q : Quantifier) (o : UnaryPath) (a : Formula)
  | binary (q : Quantifier) (o : BinaryPath) (a b : Formula)
deriving DecidableEq, Repr

namespace Formula

/-! ## Operators by name

The first letter of a path formula's name is that of the quantifier, and the second that of the path
operator. -/

@[match_pattern] abbrev and (a b : Formula) : Formula := connect .and a b

@[match_pattern] abbrev or (a b : Formula) : Formula := connect .or a b

@[match_pattern] abbrev implies (a b : Formula) : Formula := connect .implies a b

@[match_pattern] abbrev ex (a : Formula) : Formula := unary .some .next a

@[match_pattern] abbrev ef (a : Formula) : Formula := unary .some .eventually a

@[match_pattern] abbrev eg (a : Formula) : Formula := unary .some .always a

@[match_pattern] abbrev ax (a : Formula) : Formula := unary .every .next a

@[match_pattern] abbrev af (a : Formula) : Formula := unary .every .eventually a

@[match_pattern] abbrev ag (a : Formula) : Formula := unary .every .always a

@[match_pattern] abbrev eu (a b : Formula) : Formula := binary .some .strongUntil a b

@[match_pattern] abbrev er (a b : Formula) : Formula := binary .some .release a b

@[match_pattern] abbrev ew (a b : Formula) : Formula := binary .some .weakUntil a b

@[match_pattern] abbrev au (a b : Formula) : Formula := binary .every .strongUntil a b

@[match_pattern] abbrev ar (a b : Formula) : Formula := binary .every .release a b

@[match_pattern] abbrev aw (a b : Formula) : Formula := binary .every .weakUntil a b

/-! ## Parts of a formula -/

/-- The name of the literal with the value `b`. -/
def literal (b : Bool) : String := if b then "\\T" else "\\F"

/-- The name of the formula's operator, of its atom, or of its literal. -/
def label : Formula → String
  | atom name => name
  | truth b => literal b
  | not _ => "!"
  | connect c _ _ => c.sign
  | unary q o _ => String.ofList [q.letter, o.letter]
  | binary q o _ _ => String.ofList [q.letter, o.letter]

/-- The operands of the formula's operator, from left to right. -/
def operands : Formula → List Formula
  | atom _ => []
  | truth _ => []
  | not a => [a]
  | connect _ a b => [a, b]
  | unary _ _ a => [a]
  | binary _ _ a b => [a, b]

/-- Whether the formula is an atom or a literal. -/
def isAtomic : Formula → Bool
  | atom _ => true
  | truth _ => true
  | _ => false

/-- Whether the formula's operator belongs to the minimal set. -/
def isMinimal : Formula → Bool
  | ex _ => true
  | eg _ => true
  | eu _ _ => true
  | unary _ _ _ => false
  | binary _ _ _ _ => false
  | _ => true

/-- Whether all operators of the formula belong to the minimal set. -/
def isNormal : Formula → Bool
  | atom _ => true
  | truth _ => true
  | not a => a.isNormal
  | connect _ a b => a.isNormal && b.isNormal
  | unary q o a => (unary q o a).isMinimal && a.isNormal
  | binary q o a b => (binary q o a b).isMinimal && a.isNormal && b.isNormal

theorem isNormal_iff (f : Formula) :
    f.isNormal = (f.isMinimal && f.operands.all isNormal) := by
  cases f <;> simp [isNormal, isMinimal, operands, Bool.and_assoc]

/-- The number of formulas on the longest way down to a leaf. -/
def depth : Formula → Nat
  | atom _ => 1
  | truth _ => 1
  | not a => a.depth + 1
  | connect _ a b => max a.depth b.depth + 1
  | unary _ _ a => a.depth + 1
  | binary _ _ a b => max a.depth b.depth + 1

/-- The names of the atoms from left to right, as often as they occur. -/
def names : Formula → List String
  | atom name => [name]
  | truth _ => []
  | not a => a.names
  | connect _ a b => a.names ++ b.names
  | unary _ _ a => a.names
  | binary _ _ a b => a.names ++ b.names

theorem mem_names_iff {f : Formula} {name : String} :
    name ∈ f.names ↔ f = atom name ∨ ∃ g ∈ f.operands, name ∈ g.names := by
  cases f <;> simp [names, operands, eq_comm]

/-! ## The set of names

The names are collected from a stack of formulas, on which a formula taken off it is replaced by its
operands. Every round takes one operator, atom or literal away from what is on the stack. -/

/-- The number of operators, atoms and literals. -/
def size : Formula → Nat
  | atom _ => 1
  | truth _ => 1
  | not a => a.size + 1
  | connect _ a b => a.size + b.size + 1
  | unary _ _ a => a.size + 1
  | binary _ _ a b => a.size + b.size + 1

/-- The number of operators, atoms and literals on a stack. -/
def stackSize : List Formula → Nat
  | [] => 0
  | f :: stack => f.size + stackSize stack

theorem stackSize_operands_lt (f : Formula) (stack : List Formula) :
    stackSize (f.operands.reverse ++ stack) < stackSize (f :: stack) := by
  cases f <;> simp [operands, stackSize, size] <;> omega

/-- The names found already, and those of the atoms in the formulas on the stack. -/
def collectAtoms (found : Std.TreeSet String) : List Formula → Std.TreeSet String
  | [] => found
  | f :: stack =>
    let found := if let atom name := f then found.insert name else found
    collectAtoms found (f.operands.reverse ++ stack)
termination_by stack => stackSize stack
decreasing_by exact stackSize_operands_lt f stack

/-- The names of the atoms. -/
def atoms (f : Formula) : Std.TreeSet String := collectAtoms ∅ [f]

theorem mem_collectAtoms {found : Std.TreeSet String} {stack : List Formula} {name : String} :
    name ∈ collectAtoms found stack ↔ name ∈ found ∨ ∃ f ∈ stack, name ∈ f.names := by
  fun_induction collectAtoms found stack with
  | case1 found => simp
  | case2 found f stack found' ih =>
    have hfound : name ∈ found' ↔ name ∈ found ∨ f = atom name := by
      cases f <;> simp [found', or_comm]
    rw [ih, hfound]
    simp only [List.mem_append, List.mem_reverse, List.mem_cons, or_and_right, exists_or,
      exists_eq_left, mem_names_iff (f := f), or_assoc]

theorem mem_atoms {f : Formula} {name : String} : name ∈ f.atoms ↔ name ∈ f.names := by
  simp [atoms, mem_collectAtoms]

end Formula

end BranchingTime
