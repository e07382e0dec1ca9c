import BranchingTime.Text.Position

set_option autoImplicit false

/-! # Parse trees

A parse tree is built from tokens: a node has the kind that a grammar gave to its token, the token's
text, its range where it has one, and the trees of its operands. The type of kinds belongs to the
grammar. -/

namespace BranchingTime

/-- A parse tree whose nodes are of the kinds `κ`. -/
inductive Tree (κ : Type) where
  | node (kind : κ) (text : String) (span : Option Span) (children : List (Tree κ))
deriving Repr

namespace Tree

variable {κ : Type}

/-- What the grammar took the node's token for. -/
def kind : Tree κ → κ
  | node k _ _ _ => k

/-- The text of the node's token. -/
def text : Tree κ → String
  | node _ v _ _ => v

/-- The range of the node's token. -/
def span : Tree κ → Option Span
  | node _ _ s _ => s

/-- The operands, from left to right. -/
def children : Tree κ → List (Tree κ)
  | node _ _ _ cs => cs

/-- Whether the node has no operands. -/
def isLeaf (t : Tree κ) : Bool := t.children.isEmpty

/-! ## Ranges removed -/

mutual

/-- The same tree, with no range anywhere. -/
def eraseSpans : Tree κ → Tree κ
  | node k v _ cs => node k v none (eraseSpansAll cs)

/-- The same trees, with no range anywhere. -/
def eraseSpansAll : List (Tree κ) → List (Tree κ)
  | [] => []
  | t :: ts => t.eraseSpans :: eraseSpansAll ts

end

theorem eraseSpansAll_eq_map (ts : List (Tree κ)) : eraseSpansAll ts = ts.map eraseSpans := by
  induction ts with
  | nil => rfl
  | cons t ts ih => rw [eraseSpansAll, ih, List.map_cons]

/-! ## Text -/

mutual

/-- The tree as a nested list: a leaf is its text, any other node `(text operand …)`. -/
protected def toString : Tree κ → String
  | node _ v _ [] => v
  | node _ v _ (c :: cs) => "(" ++ v ++ spacedAll (c :: cs) ++ ")"

/-- Trees with a space before each. -/
def spacedAll : List (Tree κ) → String
  | [] => ""
  | t :: ts => " " ++ t.toString ++ spacedAll ts

end

instance : ToString (Tree κ) := ⟨Tree.toString⟩

end Tree

end BranchingTime
