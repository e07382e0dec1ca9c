set_option autoImplicit false

/-! # What can go wrong

A failure belongs to one of three kinds. A text or token list is *malformed* when it is no formula.
An *internal* failure means that a part received what its neighbour never hands over, such as an
operator the checker does not know. *Misuse* is an argument that an operation on sets or models
does not take. Each kind is a type whose constructors are the causes, and one function gives every
cause its wording. -/

namespace BranchingTime

/-! ## Malformed input -/

/-- What makes a text or a token list no formula. -/
inductive SyntaxError where
  /-- A character begins no lexeme, or no complete one. -/
  | unknownCharacter (c : Char)
  /-- The text ends inside quotation marks. -/
  | unterminated (delimiter : Char)
  /-- A quoted atom holds a backslash. -/
  | backslashInQuotes
  /-- The tokens end where an operand has to stand. -/
  | unexpectedEnd
  /-- The grammar has no symbol for an operator. -/
  | unknownOperator (text : String)
  /-- A token that can begin no operand stands where one has to. -/
  | notAValue (text : String)
  /-- A token that binds what precedes it does not take two operands. -/
  | notInfix (text : String)
  /-- A group is not followed by its closing token. -/
  | unclosed (closer : String) (found : Option String)
  /-- Tokens are left over after a complete expression. -/
  | trailing (text : String)
  /-- The grammar refuses a node, for the reason given. -/
  | rejected (reason : String)
deriving DecidableEq, Repr

namespace SyntaxError

/-- The wording of each cause. -/
def message : SyntaxError → String
  | unknownCharacter c => "Unknown character: '" ++ c.toString ++ "'."
  | unterminated d => "Expected '" ++ d.toString ++ "' but found end of input."
  | backslashInQuotes => "Backslashes are not allowed in strings!"
  | unexpectedEnd => "Unexpected end of input."
  | unknownOperator text => "Unknown operator '" ++ text ++ "'."
  | notAValue text => "Expected a value or prefix operator but found '" ++ text ++ "'."
  | notInfix text => "Expected an infix operator but found '" ++ text ++ "'."
  | unclosed closer (some text) => "Expected '" ++ closer ++ "' but found '" ++ text ++ "'."
  | unclosed closer none => "Expected '" ++ closer ++ "' but found end of input."
  | trailing text => "Expected end of input but found '" ++ text ++ "'."
  | rejected reason => reason

end SyntaxError

/-! ## Internal failures -/

/-- What no part of a working pipeline hands to the next one. -/
inductive InternalError where
  /-- An operator stands where only those of the minimal set are understood. -/
  | notMinimal (text : String)
  /-- An operator node has too few or too many operands. -/
  | operandCount (text : String) (expected actual : Nat)
  /-- An atom has operands. -/
  | atomWithOperands (text : String)
  /-- A grammar reports a failure of its own. -/
  | reported (message : String)
deriving DecidableEq, Repr

namespace InternalError

/-- The wording of each cause. -/
def message : InternalError → String
  | notMinimal text => "Expected an operator but found '" ++ text ++ "'."
  | operandCount text expected actual =>
    "Operator '" ++ text ++ "' expects " ++ toString expected ++ " operand(s) but has " ++
      toString actual ++ "."
  | atomWithOperands text => "Atom '" ++ text ++ "' has operands."
  | reported message => message

end InternalError

/-! ## Misuse of an operation -/

/-- An argument outside the domain of an operation. -/
inductive Misuse where
  /-- An index at or beyond the bound of a set cannot be inserted. -/
  | outOfBound (index bound : Nat)
  /-- Sets with different bounds cannot be combined. -/
  | differentBounds
  /-- A model has no state with the index. -/
  | noState (states index : Nat)
deriving DecidableEq, Repr

namespace Misuse

/-- The wording of each cause. -/
def message : Misuse → String
  | outOfBound index bound =>
    "state " ++ toString index ++ " out of universe 0.." ++ toString bound
  | differentBounds => "state sets over different universes"
  | noState states index =>
    "index out of bounds: the len is " ++ toString states ++ " but the index is " ++
      toString index

end Misuse

/-! ## All kinds together -/

/-- A failure of any kind. -/
inductive Error where
  | malformed (cause : SyntaxError)
  | internal (cause : InternalError)
  | misuse (cause : Misuse)
deriving DecidableEq, Repr

namespace Error

/-- The wording of a failure, which does not tell its kind. -/
def message : Error → String
  | malformed cause => cause.message
  | internal cause => cause.message
  | misuse cause => cause.message

/-- Whether the input is at fault. -/
def isMalformed : Error → Bool
  | malformed _ => true
  | _ => false

/-- Whether a part of the library is at fault. -/
def isInternal : Error → Bool
  | internal _ => true
  | _ => false

instance : ToString Error := ⟨message⟩

end Error

end BranchingTime
