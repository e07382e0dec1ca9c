import BranchingTime.Precedence.Grammar

set_option autoImplicit false

/-! # Operator precedence parsing

`g.parse ts` builds the tree of a whole token list under the grammar `g`. An expression is a
primary operand followed by infix operators and their right operands. It goes on as long as the next
operator binds its left operand more strongly than the operator to the left of the expression does,
which is what the argument `right` of `expression` and `infixes` stands for. A primary operand is an
atom, a group, or a prefix operator with its operands; postfix operators that follow an atom or a
group belong to it.

Each function gives what it has built together with the tokens it has left over, and the type of the
result says that these are fewer than before (`Parsed`); that is why the recursion ends. The symbol
of a token is looked up where the parser first needs it and not earlier, so of several errors the
one that comes first in the input is reported. -/

namespace BranchingTime

/-- Something built from tokens, and the remaining tokens, of which there are less than `bound`. -/
structure Parsed (α : Type) (bound : Nat) where
  value : α
  rest : List Token
  shorter : rest.length < bound

/-- The same result under a weaker bound. -/
def Parsed.weaken {α : Type} {m n : Nat} (r : Parsed α m) (h : m ≤ n) : Parsed α n :=
  ⟨r.value, r.rest, Nat.lt_of_lt_of_le r.shorter h⟩

/-- Something built, with all tokens of `ts` left. -/
def Parsed.here {α : Type} (value : α) (ts : List Token) : Parsed α (ts.length + 1) :=
  ⟨value, ts, Nat.lt_succ_self _⟩

namespace Grammar

variable {κ : Type}

/-- The highest power, at which the operands of a prefix operator with several operands are read. -/
def highestPower : UInt32 := 0xFFFFFFFF

/-- Apply the postfix operators at the head of the tokens to `left`. -/
def postfixes (g : Grammar κ) (left : Tree κ) :
    (ts : List Token) → Except Error (Parsed (Tree κ) (ts.length + 1))
  | [] => .ok (.here left [])
  | t :: ts => do
    let s ← g.symbol t
    if s.isTrailing then
      let node ← g.build s t [left]
      let r ← g.postfixes node ts
      return r.weaken (Nat.le_succ _)
    else
      return .here left (t :: ts)

/-- Go past the token that ends a group. It is told by its text alone. -/
def passCloser (g : Grammar κ) (closer : String) :
    (ts : List Token) → Except Error (Parsed Unit ts.length)
  | [] => .error (.malformed (.unclosed closer none))
  | t :: ts =>
    if t.text = closer then do
      let _ ← g.symbol t
      return .here () ts
    else
      .error (.malformed (.unclosed closer (some t.text)))

mutual

/-- Read a primary operand. -/
def primary (g : Grammar κ) : (ts : List Token) → Except Error (Parsed (Tree κ) ts.length)
  | [] => .error (.malformed .unexpectedEnd)
  | t :: ts => do
    let s ← g.symbol t
    match s.leading with
    | .refused => .error (.malformed (.notAValue t.text))
    | .leaf =>
      let node ← g.build s t []
      g.postfixes node ts
    | .group closer =>
      let content ← g.expression s.power ts
      let node ← g.build s t [content.value]
      let closed ← g.passCloser closer content.rest
      let r ← g.postfixes node closed.rest
      return r.weaken
        (Nat.succ_le_succ (Nat.le_of_lt (Nat.lt_trans closed.shorter content.shorter)))
    | .single =>
      let operand ← g.primary ts
      let node ← g.build s t [operand.value]
      return ⟨node, operand.rest, Nat.lt_succ_of_lt operand.shorter⟩
    | .many count =>
      let r ← g.operands count ts
      let node ← g.build s t r.value
      return ⟨node, r.rest, r.shorter⟩
termination_by ts => (ts.length, 0)

/-- Read an expression that stands to the right of an operator of power `right`. -/
def expression (g : Grammar κ) (right : UInt32) (ts : List Token) :
    Except Error (Parsed (Tree κ) ts.length) := do
  let left ← g.primary ts
  let r ← g.infixes right left.value left.rest
  return r.weaken left.shorter
termination_by (ts.length, 1)
decreasing_by
  · exact Prod.Lex.right _ Nat.one_pos
  · exact Prod.Lex.left _ _ left.shorter

/-- Go on with the expression `left`, which stands to the right of an operator of power `right`. -/
def infixes (g : Grammar κ) (right : UInt32) (left : Tree κ) :
    (ts : List Token) → Except Error (Parsed (Tree κ) (ts.length + 1))
  | [] => .ok (.here left [])
  | t :: ts => do
    let s ← g.symbol t
    if s.binds right then
      if s.arity = 2 then
        let operand ← g.expression s.power ts
        let node ← g.build s t [left, operand.value]
        let r ← g.infixes right node operand.rest
        return r.weaken (Nat.succ_le_succ (Nat.le_succ_of_le (Nat.le_of_lt operand.shorter)))
      else
        .error (.malformed (.notInfix t.text))
    else
      return .here left (t :: ts)
termination_by ts => (ts.length, 2)
decreasing_by
  · exact Prod.Lex.left _ _ (Nat.lt_succ_self _)
  · exact Prod.Lex.left _ _ (Nat.lt_succ_of_lt operand.shorter)

/-- Read as many operands as `count` says. -/
def operands (g : Grammar κ) (count : Nat) (ts : List Token) :
    Except Error (Parsed (List (Tree κ)) (ts.length + 1)) :=
  match count with
  | 0 => .ok (.here [] ts)
  | n + 1 => do
    let first ← g.expression highestPower ts
    let others ← g.operands n first.rest
    return ⟨first.value :: others.value, others.rest,
      Nat.lt_trans others.shorter (Nat.succ_lt_succ first.shorter)⟩
termination_by (ts.length, 2)
decreasing_by
  · exact Prod.Lex.right _ (Nat.lt_succ_self 1)
  · exact Prod.Lex.left _ _ first.shorter

end

/-- The tree of a whole token list. -/
def parse (g : Grammar κ) (ts : List Token) : Except Error (Tree κ) := do
  let r ← g.expression 0 ts
  match r.rest with
  | t :: _ => .error (.malformed (.trailing t.text))
  | [] =>
    refusal (g.acceptRoot r.value)
    return r.value

end Grammar

end BranchingTime
