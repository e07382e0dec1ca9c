import BranchingTime.Precedence.Parser

set_option autoImplicit false

/-! # Runs of the precedence parser

What the parser builds from the front of a token list, and which tokens it leaves, follows from what
it builds from the parts (`Grammar.Gives`). Each rule below is one turn of the parser that succeeds.
Whether it goes on is decided by the next token alone: behind an operand that is settled there is no
postfix operator, and behind an expression that is closed there is nothing that binds it. -/

namespace BranchingTime

namespace Grammar

variable {κ α : Type} {n : Nat} {g : Grammar κ} {s : Symbol κ} {t u : Token}
  {ts us vs rest : List Token} {left operand node content tree : Tree κ} {power right : UInt32}
  {closer : String}

/-- The parser gives `a` and leaves `rest`. -/
def Gives (x : Except Error (Parsed α n)) (a : α) (rest : List Token) : Prop :=
  ∃ h, x = .ok ⟨a, rest, h⟩

/-! ## Where an operand or an expression ends -/

/-- No postfix operator comes next. -/
def Settled (g : Grammar κ) (rest : List Token) : Prop :=
  ∀ t ∈ rest.head?, ∃ s, g.symbol t = .ok s ∧ s.isTrailing = false

/-- Nothing that binds an operand on its left comes next. -/
def Closed (g : Grammar κ) (rest : List Token) : Prop :=
  ∀ t ∈ rest.head?, ∃ s, g.symbol t = .ok s ∧ s.isTrailing = false ∧ ∀ p, s.binds p = false

/-- Nothing comes next that an expression to the right of an operator of power `power` goes on
    with. -/
def StopsAt (g : Grammar κ) (power : UInt32) (rest : List Token) : Prop :=
  ∀ t ∈ rest.head?, ∃ s, g.symbol t = .ok s ∧ s.binds power = false

theorem Closed.settled (h : g.Closed rest) : g.Settled rest := by
  intro t ht
  obtain ⟨s, hs, htrailing, -⟩ := h t ht
  exact ⟨s, hs, htrailing⟩

theorem closed_nil (g : Grammar κ) : g.Closed [] := by
  intro t ht
  cases ht

theorem settled_cons (hs : g.symbol t = .ok s) (h : s.isTrailing = false) :
    g.Settled (t :: rest) := by
  intro u hu
  cases hu
  exact ⟨s, hs, h⟩

theorem postfixes_of_settled (left : Tree κ) (h : g.Settled rest) :
    g.postfixes left rest = .ok (.here left rest) := by
  cases rest with
  | nil => rfl
  | cons t ts =>
    obtain ⟨s, hs, htrailing⟩ := h t rfl
    simp [postfixes, hs, bind, Except.bind, htrailing, pure, Except.pure]

theorem stopsAt_nil (g : Grammar κ) (power : UInt32) : g.StopsAt power [] := by
  intro t ht
  cases ht

theorem stopsAt_cons (hs : g.symbol t = .ok s) (h : s.binds power = false) :
    g.StopsAt power (t :: rest) := by
  intro u hu
  cases hu
  exact ⟨s, hs, h⟩

theorem Closed.stopsAt (h : g.Closed rest) (power : UInt32) : g.StopsAt power rest := by
  intro t ht
  obtain ⟨s, hs, -, hbinds⟩ := h t ht
  exact ⟨s, hs, hbinds power⟩

/-- A token that binds to the right of an operator binds to the right of every weaker one. -/
theorem binds_of_le (hle : power ≤ right) (h : s.binds right = true) : s.binds power = true := by
  simp only [Symbol.binds, Bool.or_eq_true, decide_eq_true_eq, Bool.and_eq_true, bne_iff_ne,
    beq_iff_eq, UInt32.lt_iff_toNat_lt, UInt32.le_iff_toNat_le, ne_eq, ← UInt32.toNat_inj,
    UInt32.toNat_zero] at h hle ⊢
  rcases h with h | ⟨⟨hzero, hassoc⟩, heq⟩
  · left
    omega
  · by_cases hsame : power.toNat = right.toNat
    · exact Or.inr ⟨⟨hsame ▸ hzero, hassoc⟩, hsame.trans heq⟩
    · left
      omega

theorem StopsAt.of_le (h : g.StopsAt power rest) (hle : power ≤ right) : g.StopsAt right rest := by
  intro t ht
  obtain ⟨s, hs, hbinds⟩ := h t ht
  refine ⟨s, hs, ?_⟩
  cases hright : s.binds right with
  | false => rfl
  | true => exact absurd (binds_of_le hle hright) (by simp [hbinds])

theorem infixes_of_stopsAt (left : Tree κ) (h : g.StopsAt power rest) :
    Gives (g.infixes power left rest) left rest := by
  cases rest with
  | nil => exact ⟨_, by rw [infixes]; rfl⟩
  | cons t ts =>
    obtain ⟨s, hs, hbinds⟩ := h t rfl
    refine ⟨Nat.lt_succ_self _, ?_⟩
    rw [infixes, hs]
    simp [bind, Except.bind, hbinds, pure, Except.pure, Parsed.here]

theorem infixes_of_closed (power : UInt32) (left : Tree κ) (h : g.Closed rest) :
    Gives (g.infixes power left rest) left rest :=
  infixes_of_stopsAt left (h.stopsAt power)

/-! ## Operands -/

theorem primary_leaf (hs : g.symbol t = .ok s) (hleaf : s.leading = .leaf)
    (hnode : g.build s t [] = .ok node) (hrest : g.Settled rest) :
    Gives (g.primary (t :: rest)) node rest := by
  refine ⟨Nat.lt_succ_self _, ?_⟩
  rw [primary, hs]
  simp only [bind, Except.bind, hleaf, hnode, postfixes_of_settled node hrest]
  rfl

theorem primary_single (hs : g.symbol t = .ok s) (hsingle : s.leading = .single)
    (hoperand : Gives (g.primary ts) operand rest) (hnode : g.build s t [operand] = .ok node) :
    Gives (g.primary (t :: ts)) node rest := by
  obtain ⟨hlt, hoperand⟩ := hoperand
  refine ⟨Nat.lt_succ_of_lt hlt, ?_⟩
  rw [primary, hs]
  simp only [bind, Except.bind, hsingle, hoperand, hnode]
  rfl

theorem primary_group (hs : g.symbol t = .ok s) (hgroup : s.leading = .group closer)
    (hcontent : Gives (g.expression s.power ts) content (u :: rest)) (hu : u.text = closer)
    (hclosing : ∃ s', g.symbol u = .ok s') (hnode : g.build s t [content] = .ok node)
    (hrest : g.Settled rest) : Gives (g.primary (t :: ts)) node rest := by
  obtain ⟨hlt, hcontent⟩ := hcontent
  obtain ⟨s', hs'⟩ := hclosing
  refine ⟨?_, ?_⟩
  · simp only [List.length_cons] at hlt ⊢
    omega
  · rw [primary, hs]
    simp only [bind, Except.bind, hgroup, hcontent, hnode, passCloser, hu, if_true, hs', pure,
      Except.pure, Parsed.here, postfixes_of_settled node hrest, Parsed.weaken]

/-! ## Expressions -/

theorem expression_of_primary (hleft : Gives (g.primary ts) left us)
    (hinfixes : Gives (g.infixes power left us) tree rest) :
    Gives (g.expression power ts) tree rest := by
  obtain ⟨hlt, hleft⟩ := hleft
  obtain ⟨hle, hinfixes⟩ := hinfixes
  refine ⟨?_, ?_⟩
  · omega
  · rw [expression, hleft]
    simp only [bind, Except.bind, hinfixes]
    rfl

theorem infixes_step (hs : g.symbol t = .ok s) (hbinds : s.binds power = true)
    (harity : s.arity = 2) (hoperand : Gives (g.expression s.power ts) operand us)
    (hnode : g.build s t [left, operand] = .ok node)
    (hinfixes : Gives (g.infixes power node us) tree rest) :
    Gives (g.infixes power left (t :: ts)) tree rest := by
  obtain ⟨hlt, hoperand⟩ := hoperand
  obtain ⟨hle, hinfixes⟩ := hinfixes
  refine ⟨?_, ?_⟩
  · simp only [List.length_cons]
    omega
  · rw [infixes, hs]
    simp only [bind, Except.bind, hbinds, if_true, harity, hoperand, hnode, hinfixes]
    rfl

/-! ## Tokens that are read as a whole -/

/-- The tokens are read as one operand, which is the tree. -/
def IsOperand (g : Grammar κ) (ts : List Token) (tree : Tree κ) : Prop :=
  ∀ rest, g.Settled rest → Gives (g.primary (ts ++ rest)) tree rest

/-- The tokens are read as one expression, which is the tree. -/
def IsExpression (g : Grammar κ) (ts : List Token) (tree : Tree κ) : Prop :=
  ∀ rest, g.Closed rest → Gives (g.expression 0 (ts ++ rest)) tree rest

/-- What makes a symbol an infix operator that an expression goes on with. -/
structure IsInfix (s : Symbol κ) : Prop where
  arity : s.arity = 2
  binds : s.binds 0 = true
  trailing : s.isTrailing = false

theorem isOperand_leaf (hs : g.symbol t = .ok s) (hleaf : s.leading = .leaf)
    (hnode : g.build s t [] = .ok node) : g.IsOperand [t] node := by
  intro rest hrest
  exact primary_leaf hs hleaf hnode hrest

theorem IsOperand.single (h : g.IsOperand ts operand) (hs : g.symbol t = .ok s)
    (hsingle : s.leading = .single) (hnode : g.build s t [operand] = .ok node) :
    g.IsOperand (t :: ts) node := by
  intro rest hrest
  exact primary_single hs hsingle (h rest hrest) hnode

theorem IsOperand.isExpression (h : g.IsOperand ts tree) : g.IsExpression ts tree := by
  intro rest hrest
  exact expression_of_primary (h rest hrest.settled) (infixes_of_closed 0 tree hrest)

/-- Two operands with an infix operator between them are one expression. -/
theorem IsOperand.connected (hleft : g.IsOperand ts left) (hright : g.IsOperand us operand)
    (hs : g.symbol t = .ok s) (h : IsInfix s) (hnode : g.build s t [left, operand] = .ok node) :
    g.IsExpression (ts ++ t :: us) node := by
  intro rest hrest
  have hinner : Gives (g.expression s.power (us ++ rest)) operand rest :=
    expression_of_primary (hright rest hrest.settled) (infixes_of_closed _ _ hrest)
  have hinfixes : Gives (g.infixes 0 left (t :: (us ++ rest))) node rest :=
    infixes_step hs h.binds h.arity hinner hnode (infixes_of_closed 0 node hrest)
  rw [List.append_assoc]
  exact expression_of_primary (hleft _ (settled_cons hs h.trailing)) hinfixes

/-- An expression between the two tokens of a group is one operand. -/
theorem IsExpression.group (h : g.IsExpression ts content) (hs : g.symbol t = .ok s)
    (hgroup : s.leading = .group u.text) (hpower : s.power = 0) (hclosed : g.Closed [u])
    (hnode : g.build s t [content] = .ok node) : g.IsOperand (t :: (ts ++ [u])) node := by
  intro rest hrest
  obtain ⟨s', hs', htrailing, hbinds⟩ := hclosed u rfl
  have hu : g.Closed (u :: rest) := by
    intro v hv
    cases hv
    exact ⟨s', hs', htrailing, hbinds⟩
  have hcontent : Gives (g.expression s.power (ts ++ u :: rest)) content (u :: rest) :=
    hpower ▸ h (u :: rest) hu
  rw [List.cons_append, List.append_assoc]
  exact primary_group hs hgroup hcontent rfl ⟨s', hs'⟩ hnode hrest

/-- An expression is a whole input if the grammar accepts it as one. -/
theorem IsExpression.parse (h : g.IsExpression ts tree) (haccept : g.acceptRoot tree = .ok ()) :
    g.parse ts = .ok tree := by
  have hall : Gives (g.expression 0 (ts ++ [])) tree [] := h [] (closed_nil g)
  rw [List.append_nil] at hall
  obtain ⟨hlt, hgives⟩ := hall
  simp only [Grammar.parse, hgives, bind, Except.bind, refusal, haccept]
  rfl

end Grammar

end BranchingTime
