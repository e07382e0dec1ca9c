import BranchingTime.Text.Position

set_option autoImplicit false

/-! # Tokens

A formula text is a sequence of tokens, each an atom or an operator. Tokens of a text know the
range they were read from; tokens that a caller builds need not have one. -/

namespace BranchingTime

/-- What a token is, whatever its text. -/
inductive Token.Kind where
  /-- The name of a proposition, or one of the literals `\T` and `\F`. -/
  | atom
  | operator
deriving DecidableEq, Repr

/-- A token of a formula. -/
structure Token where
  kind : Token.Kind
  /-- The name of an atom, without quotation marks, or the spelling of an operator. -/
  text : String
  span : Option Span
deriving DecidableEq, Repr

namespace Token

/-- An atom that comes from no text. -/
def atom (text : String) : Token := ⟨.atom, text, none⟩

/-- An operator that comes from no text. -/
def operator (text : String) : Token := ⟨.operator, text, none⟩

/-- The token as read from the range `s`. -/
def withSpan (t : Token) (s : Span) : Token := { t with span := some s }

/-- Whether the token is an atom. -/
def isAtom (t : Token) : Bool := t.kind = .atom

/-- Whether the token is an operator. -/
def isOperator (t : Token) : Bool := t.kind = .operator

instance : ToString Token := ⟨Token.text⟩

end Token

end BranchingTime
