import BranchingTime.Formula.OfTree
import BranchingTime.Precedence.Parser
import BranchingTime.Token.Lexer

set_option autoImplicit false

/-! # Reading formulas

A formula is read from a text or from tokens in three steps: the text is cut into tokens, all of
them before anything else is done; the tokens are parsed; and the parse tree is read as a formula
and normalized. -/

namespace BranchingTime.Formula

/-- The parse tree of a formula given as tokens. -/
def treeOfTokens (ts : List Token) : Except Error (Tree Construct) :=
  Construct.grammar.parse ts

/-- The normalized formula that is given as tokens. -/
def ofTokens (ts : List Token) : Except Error Formula := do
  normalOfTree (← treeOfTokens ts)

/-- The normalized formula that a text spells. -/
def parse (text : String) : Except Error Formula := do
  ofTokens (← tokenize text)

end BranchingTime.Formula
