import BranchingTime.Formula.Basic
import BranchingTime.Text.Alphabet

set_option autoImplicit false

/-! # Formulas as text

`Formula.render` writes a formula so that reading the text gives the formula back, normalized. An
operand goes between parentheses unless it is atomic or the negation of something atomic, and a name
that reads as no single word, or as operators, goes between quotation marks. Nothing inside
quotation marks is escaped, so three sorts of name have no spelling: the empty name, a name with a
backslash, and a name with both quotation marks. They are written all the same, but the text does
not spell the formula. -/

namespace BranchingTime.Formula

/-- Whether a name may stand without quotation marks: it is a word, and not one that stands for
    operators. -/
def isPlainName (name : String) : Bool :=
  !name.toList.isEmpty && name.toList.all isNameChar && !name.toList.all isReserved

/-- A name, between quotation marks unless it may stand without. -/
def spell (name : String) : String :=
  if isPlainName name then name
  else if name.toList.contains '"' then "'" ++ name ++ "'"
  else "\"" ++ name ++ "\""

/-- Whether the formula needs no parentheses as an operand. -/
def isTight : Formula → Bool
  | not a => a.isAtomic
  | a => a.isAtomic

/-- A text, between parentheses unless `bare`. -/
def enclose (bare : Bool) (text : String) : String :=
  if bare then text else "(" ++ text ++ ")"

/-- The text of a formula. -/
def render : Formula → String
  | atom name => spell name
  | truth b => literal b
  | not a => "!" ++ enclose a.isAtomic a.render
  | connect c a b =>
    enclose a.isTight a.render ++ " " ++ c.sign ++ " " ++ enclose b.isTight b.render
  | unary q o a => String.ofList [q.letter, o.letter] ++ " " ++ enclose a.isTight a.render
  | binary q o a b =>
    q.letter.toString ++ "(" ++ enclose a.isTight a.render ++ " " ++ o.letter.toString ++ " " ++
      enclose b.isTight b.render ++ ")"

instance : ToString Formula := ⟨render⟩

end BranchingTime.Formula
