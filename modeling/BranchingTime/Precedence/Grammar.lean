import BranchingTime.Error
import BranchingTime.Precedence.Tree
import BranchingTime.Token.Basic

set_option autoImplicit false

/-! # Operator precedence grammars

A grammar maps every token to a `Symbol`, which says how the token may be used: how strongly it
binds what stands to its left, how many operands it takes, and where they stand. The flags of a
symbol are independent; `Symbol.leading` and `Symbol.isTrailing` read off them what the token does
where an operand has to begin and where one has just ended.

A grammar also sees each node as soon as it is complete. It may refuse the node, giving a reason,
and it may put another tree in its place. -/

namespace BranchingTime

/-! ## Symbols -/

/-- How a token may be used. -/
structure Symbol (κ : Type) where
  kind : κ
  /-- How strongly the token binds the operand on its left, as an infix operator. A group reads
      its content at this power. -/
  power : UInt32
  /-- The number of operands: none for atoms, one for prefix, postfix and grouping symbols, two for
      infix symbols. -/
  arity : Nat
  /-- The text of the token that ends the group which this token begins. -/
  closer : Option String
  /-- The token ends a group, and begins no operand. -/
  closing : Bool
  /-- As many operands as the arity says follow the token, each read at the highest power. -/
  prefixed : Bool
  /-- The token follows its operand. -/
  postfixed : Bool
  /-- One primary operand follows the token, though its arity is higher. -/
  unary : Bool
  /-- Of equally strong infix operators the right one binds first. -/
  rightAssoc : Bool
deriving DecidableEq, Repr

namespace Symbol

variable {κ : Type}

/-- A symbol with no operands and no flags. -/
def plain (kind : κ) : Symbol κ := ⟨kind, 0, 0, none, false, false, false, false, false⟩

/-- An atom. -/
def atom (kind : κ) : Symbol κ := plain kind

/-- A prefix operator whose operand is the next primary. -/
def prefixOp (kind : κ) : Symbol κ := { plain kind with arity := 1 }

/-- A postfix operator. -/
def postfixOp (kind : κ) (power : UInt32) : Symbol κ :=
  { plain kind with arity := 1, postfixed := true, power }

/-- An infix operator of which the left one of two binds first. -/
def infixOp (kind : κ) (power : UInt32) : Symbol κ := { plain kind with arity := 2, power }

/-- An infix operator of which the right one of two binds first. -/
def infixRightOp (kind : κ) (power : UInt32) : Symbol κ :=
  { infixOp kind power with rightAssoc := true }

/-- The beginning of a group that ends with `closer`. -/
def group (kind : κ) (closer : String) : Symbol κ :=
  { plain kind with arity := 1, closer := some closer }

/-- The end of a group. -/
def closingOp (kind : κ) : Symbol κ := { plain kind with closing := true }

/-- What a token does where an operand has to begin. -/
inductive Leading where
  /-- It cannot stand there. -/
  | refused
  /-- It is the operand. -/
  | leaf
  /-- It begins a group. -/
  | group (closer : String)
  /-- It applies to the next primary. -/
  | single
  /-- It applies to the operands that follow. -/
  | many (count : Nat)
deriving DecidableEq, Repr

/-- What the token does where an operand has to begin. -/
def leading (s : Symbol κ) : Leading :=
  if s.closing || s.postfixed then .refused
  else
    match s.arity, s.closer with
    | 0, _ => .leaf
    | 1, some closer => .group closer
    | 1, none => .single
    | n + 2, _ => if s.unary then .single else if s.prefixed then .many (n + 2) else .refused

/-- Whether the token applies to an operand that has just ended. -/
def isTrailing (s : Symbol κ) : Bool := s.arity == 1 && s.postfixed

/-- Whether an expression to the right of an operator of power `right` goes on with the token. At
    its own power it does if it is right associative, except at power zero. -/
def binds (s : Symbol κ) (right : UInt32) : Bool :=
  decide (right < s.power) || (right != 0 && s.rightAssoc && right == s.power)

end Symbol

/-! ## Grammars -/

/-- The symbols of a language, and what it demands of the nodes built from them. -/
structure Grammar (κ : Type) where
  /-- The symbol of a token. -/
  symbol : Token → Except Error (Symbol κ)
  /-- A complete node is refused for the reason given, or accepted. -/
  accept : Tree κ → Except String Unit := fun _ => .ok ()
  /-- What stands in the place of an accepted node. -/
  replace : Tree κ → Tree κ := id
  /-- The tree of a whole input is refused for the reason given, or accepted. -/
  acceptRoot : Tree κ → Except String Unit := fun _ => .ok ()

namespace Grammar

variable {κ : Type}

/-- The grammar with the same symbols that accepts every node as it is. -/
def withoutHooks (g : Grammar κ) : Grammar κ where
  symbol := g.symbol

/-- A reason to refuse a node makes the input malformed. -/
def refusal (verdict : Except String Unit) : Except Error Unit :=
  verdict.mapError fun reason => .malformed (.rejected reason)

/-- What the grammar makes of a complete node. -/
def complete (g : Grammar κ) (node : Tree κ) : Except Error (Tree κ) := do
  refusal (g.accept node)
  return g.replace node

/-- The node of the token `t` with the symbol `s` and the operands `children`, completed. -/
def build (g : Grammar κ) (s : Symbol κ) (t : Token) (children : List (Tree κ)) :
    Except Error (Tree κ) :=
  g.complete (.node s.kind t.text t.span children)

end Grammar

end BranchingTime
