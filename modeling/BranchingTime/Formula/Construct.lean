import BranchingTime.Formula.Basic
import BranchingTime.Precedence.Grammar

set_option autoImplicit false

/-! # The grammar of formula text

The operators of formula text bind as follows, the strongest first.

* `!`, the path operators `F`, `G` and `X`, and the quantifiers `E` and `A` apply to the next
  primary;
* `&` and `|` bind equally, and of two the left one binds first;
* `->` binds to the right;
* `U`, `R` and `W` bind equally, and to the right.

A path operator has a meaning only together with a quantifier applied to it. So a quantifier has to
be applied to a path operator, and the two become one node with the operands of the path operator;
no other node may have a path operator as an operand, nor may a whole tree be one. Of two negations
one applied to the other nothing is left, and parentheses leave only what they enclose. -/

namespace BranchingTime

/-! ## Kinds of nodes -/

/-- A path operator of either arity. -/
inductive PathOperator where
  | unary (o : UnaryPath)
  | binary (o : BinaryPath)
deriving DecidableEq, Repr

namespace PathOperator

/-- The letter that denotes the path operator. -/
def letter : PathOperator → Char
  | unary o => o.letter
  | binary o => o.letter

/-- The number of operands. -/
def arity : PathOperator → Nat
  | unary _ => 1
  | binary _ => 2

end PathOperator

/-- What a node of formula text is. -/
inductive Construct where
  | atom
  | not
  | connect (c : Connective)
  /-- A path operator that no quantifier is applied to. -/
  | path (o : PathOperator)
  /-- A quantifier that is not applied to a path operator. -/
  | quantifier (q : Quantifier)
  /-- A quantifier together with the path operator that it is applied to. -/
  | quantified (q : Quantifier) (o : PathOperator)
  | opening
  | closing
deriving DecidableEq, Repr

namespace Construct

/-- Whether the node is a path operator that no quantifier is applied to. -/
def isPath : Construct → Bool
  | path _ => true
  | _ => false

/-- The spelling of an operator; `atom` for all atoms. -/
protected def toString : Construct → String
  | atom => "atom"
  | not => "!"
  | connect c => c.sign
  | path o => o.letter.toString
  | quantifier q => q.letter.toString
  | quantified q o => String.ofList [q.letter, o.letter]
  | opening => "("
  | closing => ")"

instance : ToString Construct := ⟨Construct.toString⟩

/-! ## Symbols -/

/-- The symbol of an operator token. -/
def symbolOf? (text : String) : Option (Symbol Construct) :=
  match text with
  | "&" => some (.infixOp (connect .and) 30)
  | "|" => some (.infixOp (connect .or) 30)
  | "->" => some (.infixRightOp (connect .implies) 20)
  | "U" => some (.infixRightOp (path (.binary .strongUntil)) 10)
  | "R" => some (.infixRightOp (path (.binary .release)) 10)
  | "W" => some (.infixRightOp (path (.binary .weakUntil)) 10)
  | "!" => some (.prefixOp not)
  | "F" => some (.prefixOp (path (.unary .eventually)))
  | "G" => some (.prefixOp (path (.unary .always)))
  | "X" => some (.prefixOp (path (.unary .next)))
  | "E" => some (.prefixOp (quantifier .some))
  | "A" => some (.prefixOp (quantifier .every))
  | "(" => some (.group opening ")")
  | ")" => some (.closingOp closing)
  | _ => none

/-- The symbol of a token. -/
def symbol (t : Token) : Except Error (Symbol Construct) :=
  match t.kind with
  | .atom => .ok (.atom atom)
  | .operator =>
    match symbolOf? t.text with
    | some s => .ok s
    | none => .error (.malformed (.unknownOperator t.text))

/-! ## Refused nodes -/

/-- Why a node is refused. -/
inductive Refusal where
  /-- No quantifier is applied to a path operator. -/
  | barePath (text : String)
  /-- A quantifier is applied to something else than a path operator, or to nothing. -/
  | noPath (found : Option String)
deriving DecidableEq, Repr

/-- The wording of each reason. -/
def Refusal.message : Refusal → String
  | barePath text => "No matching CTL operator for LTL operator '" ++ text ++ "'."
  | noPath (some text) => "Expected an LTL operator but found '" ++ text ++ "'."
  | noPath none => "Expected an LTL operator but found end of input."

/-- The operands must not be path operators; the first one that is gives the reason. -/
def withoutPaths (children : List (Tree Construct)) : Except Refusal Unit :=
  match children.find? (·.kind.isPath) with
  | some t => .error (.barePath t.text)
  | none => .ok ()

/-- Whether a node may stand as it is. -/
def accept (t : Tree Construct) : Except Refusal Unit :=
  match t.kind with
  | quantifier _ =>
    match t.children with
    | child :: _ => if child.kind.isPath then .ok () else .error (.noPath (some child.text))
    | [] => .error (.noPath none)
  | not => withoutPaths t.children
  | connect _ => withoutPaths t.children
  | path _ => withoutPaths t.children
  | _ => .ok ()

/-- Whether a tree may stand as a whole formula. -/
def acceptRoot (t : Tree Construct) : Except Refusal Unit :=
  if t.kind.isPath then .error (.barePath t.text) else .ok ()

/-! ## Replaced nodes -/

/-- A quantifier applied to a path operator, its last operand, becomes one with it. -/
def bindPath (q : Quantifier) (t : Tree Construct) : Tree Construct :=
  match t.children.getLast? with
  | some (.node (path o) text span children) =>
    .node (quantified q o) (t.text ++ text) (Span.join? t.span span) children
  | _ => t

/-- What stands in the place of a node. -/
def reduce (t : Tree Construct) : Tree Construct :=
  match t with
  | .node (quantifier q) _ _ _ => bindPath q t
  | .node not _ _ (.node not text span [] :: _) => .node not text span []
  | .node not _ _ (.node not _ _ (inner :: _) :: _) => inner
  | .node opening _ _ (inner :: _) => inner
  | _ => t

/-- The grammar of formula text. -/
def grammar : Grammar Construct where
  symbol := symbol
  accept t := (accept t).mapError Refusal.message
  replace := reduce
  acceptRoot t := (acceptRoot t).mapError Refusal.message

end Construct

end BranchingTime
