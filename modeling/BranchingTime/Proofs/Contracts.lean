import BranchingTime.Token.Basic

set_option autoImplicit false

/-! # Contracts of the functions of the parser

The four functions of the precedence parser call one another, so what is to be shown of one of them
is shown of all at once: a `Contract` says something of each, for the tokens that it is called with.
Nearly all calls are on fewer tokens. Two are on the same tokens, as an expression begins with a
primary operand, and several operands begin with an expression. So a contract holds for all tokens
if each function keeps its part wherever all parts hold for fewer tokens, and where the function that
it begins with has kept its own (`Contract.IsInductive.holdsAt`). -/

namespace BranchingTime

/-- What is said of the functions of the parser, of each for the tokens that it is called with. -/
structure Contract where
  primary : List Token → Prop
  expression : List Token → Prop
  infixes : List Token → Prop
  operands : List Token → Prop

namespace Contract

/-- All parts of the contract hold for the tokens. -/
structure HoldsAt (C : Contract) (ts : List Token) : Prop where
  primary : C.primary ts
  expression : C.expression ts
  infixes : C.infixes ts
  operands : C.operands ts

/-- All parts of the contract hold for fewer tokens than these. -/
def HoldsBelow (C : Contract) (ts : List Token) : Prop :=
  ∀ {us : List Token}, us.length < ts.length → C.HoldsAt us

theorem HoldsBelow.tail {C : Contract} {t : Token} {ts : List Token}
    (h : C.HoldsBelow (t :: ts)) : C.HoldsAt ts :=
  h (Nat.lt_succ_self _)

/-- Each function keeps its part if all parts hold for fewer tokens, and if the function that it
    begins with keeps its part for the same tokens. -/
structure IsInductive (C : Contract) : Prop where
  primary : ∀ {ts}, C.HoldsBelow ts → C.primary ts
  expression : ∀ {ts}, C.HoldsBelow ts → C.primary ts → C.expression ts
  infixes : ∀ {ts}, C.HoldsBelow ts → C.infixes ts
  operands : ∀ {ts}, C.HoldsBelow ts → C.expression ts → C.operands ts

/-- **A contract that is kept wherever it holds for fewer tokens holds for all tokens.** -/
theorem IsInductive.holdsAt {C : Contract} (h : C.IsInductive) (ts : List Token) :
    C.HoldsAt ts := by
  induction hlength : ts.length using Nat.strongRecOn generalizing ts with
  | ind n ih =>
    have hbelow : C.HoldsBelow ts := by
      intro us hlt
      exact ih us.length (hlength ▸ hlt) us rfl
    have hprimary := h.primary hbelow
    have hexpression := h.expression hbelow hprimary
    exact ⟨hprimary, hexpression, h.infixes hbelow, h.operands hbelow hexpression⟩

end Contract

end BranchingTime
