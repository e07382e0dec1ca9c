import BranchingTime.Precedence.Parser

set_option autoImplicit false

/-! # Grammars given as tables

A grammar consists of functions. A table gives one as data, so that it can be read in: it lists the
symbols of a language row by row, and the first row that fits a token gives its symbol. Each row also
says which of its nodes are refused and what stands in the place of the others; the kind of a node is
the entry of the row that its token fitted. -/

namespace BranchingTime.Table

/-- What stands in the place of a node. -/
inductive Replacement where
  /-- The node itself. -/
  | keep
  /-- The first operand, if the node has operands. -/
  | unwrap
  /-- The node with its operands in the opposite order. -/
  | reverse
  /-- The node with its text between angle brackets. -/
  | bracket
deriving DecidableEq, Repr

/-- What a row says about its nodes. -/
structure Entry where
  /-- The row is for atoms, and not for one operator. -/
  isAtom : Bool
  /-- The spelling of the operator. -/
  text : String
  /-- The texts that are refused, each with the reason. -/
  rejects : List (String × String)
  replacement : Replacement
deriving DecidableEq, Repr

/-- A row: what it says about its nodes, and their symbol or the failure to give one. -/
structure Row where
  entry : Entry
  symbol : Except Error (Symbol Entry)

/-- Whether a row is for the token. -/
def Row.fits (r : Row) (t : Token) : Bool :=
  if t.isAtom then r.entry.isAtom else !r.entry.isAtom && r.entry.text == t.text

/-- A text is refused if the list names it. -/
def verdict (rejects : List (String × String)) (text : String) : Except String Unit :=
  match rejects.lookup text with
  | some reason => .error reason
  | none => .ok ()

/-- The tree that stands in the place of `t`. -/
def Replacement.apply {κ : Type} (r : Replacement) (t : Tree κ) : Tree κ :=
  match r with
  | .keep => t
  | .unwrap => t.children.headD t
  | .reverse => .node t.kind t.text t.span t.children.reverse
  | .bracket => .node t.kind ("<" ++ t.text ++ ">") t.span t.children

/-- The grammar of a table, which refuses a whole tree if `rootRejects` names its text. -/
def grammar (rows : List Row) (rootRejects : List (String × String)) : Grammar Entry where
  symbol t :=
    match rows.find? (·.fits t) with
    | some row => row.symbol
    | none => .error (.malformed (.unknownOperator t.text))
  accept t := verdict t.kind.rejects t.text
  replace t := t.kind.replacement.apply t
  acceptRoot t := verdict rootRejects t.text

end BranchingTime.Table
