import BranchingTime.Proofs.Analysis
import BranchingTime.Proofs.Hooks

set_option autoImplicit false

/-! # Powers of operators against the shape of trees

Where an operator may stand below another one in a parse tree is a matter of their powers. This
follows from how long an expression goes on. What is read to the right of an operator of some power
binds at that power, so a right operand is stronger than the operator, or as strong and right
associative. The left operand is what has been read before. If it is infix itself, its own right
operand has ended in front of the operator, because the operator does not bind at its power: so the
operator is weaker, or as strong and not right associative.

The powers are not in the tree. So the table is used with the symbols themselves for kinds
(`Grammar.labelled`): the parser builds the same tree, with the symbol of its token at each node.
An operator with two operands has to be infix wherever it stands, or its nodes would not tell what
it has been used for. -/

namespace BranchingTime

/-! ## Symbols -/

namespace Symbol

variable {κ : Type} {s : Symbol κ} {left right : UInt32}

/-- The same symbol, with itself for its kind. -/
def itself (s : Symbol κ) : Symbol (Symbol κ) := s.relabel fun _ => s

@[simp] theorem kind_itself (s : Symbol κ) : s.itself.kind = s := rfl

@[simp] theorem power_itself (s : Symbol κ) : s.itself.power = s.power := rfl

@[simp] theorem leading_itself (s : Symbol κ) : s.itself.leading = s.leading := rfl

theorem binds_iff : s.binds right = true ↔
    right < s.power ∨ (right ≠ 0 ∧ s.rightAssoc = true) ∧ right = s.power := by
  simp only [binds, Bool.or_eq_true, decide_eq_true_eq, Bool.and_eq_true, bne_iff_ne, beq_iff_eq]

theorem power_ne_zero_of_binds (h : s.binds right = true) : s.power ≠ 0 := by
  rcases binds_iff.1 h with hlt | ⟨⟨hzero, -⟩, heq⟩
  · intro hzero
    exact UInt32.not_lt_zero (hzero ▸ hlt)
  · exact heq ▸ hzero

/-- At the highest power only right associative operators of that power bind. -/
theorem power_of_binds_highestPower (h : s.binds Grammar.highestPower = true) :
    s.power = Grammar.highestPower ∧ s.rightAssoc = true := by
  rcases binds_iff.1 h with hlt | ⟨⟨-, hassoc⟩, heq⟩
  · have hmax : s.power.toNat < 2 ^ 32 := s.power.toNat_lt
    have hpower : 2 ^ 32 - 1 < s.power.toNat := UInt32.lt_iff_toNat_lt.1 hlt
    omega
  · exact ⟨heq.symm, hassoc⟩

theorem power_of_not_binds (hzero : right ≠ 0) (h : s.binds right = false) :
    s.power < right ∨ right = s.power ∧ s.rightAssoc = false := by
  rw [Bool.eq_false_iff, ne_eq, binds_iff, not_or, UInt32.not_lt] at h
  obtain ⟨hle, hassoc⟩ := h
  rcases UInt32.lt_or_eq_of_le hle with hlt | heq
  · exact Or.inl hlt
  · exact Or.inr ⟨heq.symm, by simpa [heq, hzero] using hassoc⟩

end Symbol

/-! ## Nodes -/

namespace Tree

variable {κ : Type}

/-- The token of the node stands between two operands. -/
def IsInfix (node : Tree (Symbol κ)) : Prop := node.kind.arity = 2

/-- Infix operands stand below the node only where the powers allow it: on its sides, as the content
    of a group, or as one of several operands behind the token. -/
structure RespectsPowers (node : Tree (Symbol κ)) : Prop where
  joined : node.IsInfix → ∃ left right, node.children = [left, right] ∧
    (left.IsInfix → node.kind.power < left.kind.power ∨
      left.kind.power = node.kind.power ∧ node.kind.rightAssoc = false) ∧
    (right.IsInfix → node.kind.power < right.kind.power ∨
      right.kind.power = node.kind.power ∧ right.kind.rightAssoc = true)
  grouped : ∀ closer, node.kind.leading = .group closer → ∀ content ∈ node.children,
    content.IsInfix → node.kind.power < content.kind.power ∨
      content.kind.power = node.kind.power ∧ node.kind.power ≠ 0 ∧ content.kind.rightAssoc = true
  several : ∀ count, node.kind.leading = .many count → ∀ operand ∈ node.children,
    operand.IsInfix → operand.kind.power = Grammar.highestPower ∧ operand.kind.rightAssoc = true

/-- All nodes of the tree respect the powers. -/
def IsOrdered (tree : Tree (Symbol κ)) : Prop := ∀ node ∈ tree.nodes, node.RespectsPowers

theorem isOrdered_node {s : Symbol κ} {text : String} {span : Option Span}
    {children : List (Tree (Symbol κ))} (h : (node s text span children).RespectsPowers)
    (hchildren : ∀ child ∈ children, child.IsOrdered) : (node s text span children).IsOrdered := by
  intro u hu
  rw [nodes, List.mem_cons, mem_nodesAll] at hu
  rcases hu with rfl | ⟨child, hchild, hu⟩
  · exact h
  · exact hchildren child hchild u hu

end Tree

namespace Grammar

variable {κ : Type} {g : Grammar κ} {s : Symbol κ} {t : Token} {ts us rest : List Token}
  {left tree : Tree (Symbol κ)} {right : UInt32}

/-- The grammar with the same symbols, each of its own kind, and no hooks. -/
def labelled (g : Grammar κ) : Grammar (Symbol κ) where
  symbol t := (g.symbol t).map Symbol.itself

/-- Wherever an operator with two operands stands, it stands between them. -/
def InfixOnly (g : Grammar κ) : Prop :=
  ∀ t s, g.symbol t = .ok s → s.arity = 2 → s.prefixed = false ∧ s.unary = false

theorem InfixOnly.leading_eq_refused (hg : g.InfixOnly) (hs : g.symbol t = .ok s)
    (harity : s.arity = 2) : s.leading = .refused := by
  obtain ⟨hprefixed, hunary⟩ := hg t s hs harity
  simp [Symbol.leading, harity, hprefixed, hunary]

theorem InfixOnly.arity_ne_two (hg : g.InfixOnly) (hs : g.symbol t = .ok s)
    (hleading : s.leading ≠ .refused) : s.arity ≠ 2 :=
  fun harity => hleading (hg.leading_eq_refused hs harity)

/-! ## What the parser builds -/

/-- What is read as a primary operand is no infix node. -/
structure IsPrimary (tree : Tree (Symbol κ)) : Prop where
  ordered : tree.IsOrdered
  not_isInfix : ¬ tree.IsInfix

/-- What is read to the right of an operator of power `right`: an infix node of it binds there. -/
structure IsRightOf (right : UInt32) (tree : Tree (Symbol κ)) : Prop where
  ordered : tree.IsOrdered
  binds : tree.IsInfix → tree.kind.binds right = true

/-- What has been read before `rest`: if it is an infix node, its right operand has ended here. -/
def EndsBefore (g : Grammar κ) (tree : Tree (Symbol κ)) (rest : List Token) : Prop :=
  tree.IsInfix → g.labelled.StopsAt tree.kind.power rest

theorem isPrimary_node {s : Symbol κ} {text : String} {span : Option Span}
    {children : List (Tree (Symbol κ))} (harity : s.arity ≠ 2)
    (hgrouped : ∀ closer, s.leading = .group closer → ∀ child ∈ children, IsRightOf s.power child)
    (hseveral : ∀ count, s.leading = .many count → ∀ child ∈ children,
      IsRightOf highestPower child)
    (hchildren : ∀ child ∈ children, child.IsOrdered) :
    IsPrimary (.node s text span children) where
  ordered := by
    refine Tree.isOrdered_node ⟨fun h => absurd h harity, ?_, ?_⟩ hchildren
    · intro closer hleading content hcontent hinfix
      rcases Symbol.binds_iff.1 ((hgrouped closer hleading content hcontent).binds hinfix) with
        hlt | ⟨⟨hzero, hassoc⟩, heq⟩
      · exact Or.inl hlt
      · exact Or.inr ⟨heq.symm, hzero, hassoc⟩
    · intro count hleading operand hoperand hinfix
      exact Symbol.power_of_binds_highestPower
        ((hseveral count hleading operand hoperand).binds hinfix)
  not_isInfix := harity

/-- A node that is neither a group nor applied to several operands behind it. -/
theorem isPrimary_of_leading {s : Symbol κ} {text : String} {span : Option Span}
    {children : List (Tree (Symbol κ))} (harity : s.arity ≠ 2)
    (hgroup : ∀ closer, s.leading ≠ .group closer) (hmany : ∀ count, s.leading ≠ .many count)
    (hchildren : ∀ child ∈ children, child.IsOrdered) :
    IsPrimary (.node s text span children) :=
  isPrimary_node harity (fun closer h => absurd h (hgroup closer))
    (fun count h => absurd h (hmany count)) hchildren

theorem isPrimary_of_postfixes (hleft : IsPrimary left)
    (h : Gives (g.labelled.postfixes left ts) tree rest) : IsPrimary tree := by
  induction ts generalizing left with
  | nil =>
    cases h.postfixTurn with
    | stop => exact hleft
  | cons t ts ih =>
    cases h.postfixTurn with
    | stop => exact hleft
    | apply hs htrailing hnode hpostfixes =>
      obtain ⟨s, hsymbol, rfl⟩ := map_eq_ok.1 hs
      obtain ⟨harity, hpostfixed⟩ := Bool.and_eq_true_iff.1 htrailing
      have hleading : s.leading = .refused := Symbol.leading_eq_refused (Or.inr hpostfixed)
      have hone : s.arity = 1 := eq_of_beq harity
      cases hnode
      refine ih (isPrimary_of_leading ?_ ?_ ?_ ?_) hpostfixes
      · simp [hone]
      · simp [hleading]
      · simp [hleading]
      · simpa using hleft.ordered

theorem IsPrimary.isRightOf (h : IsPrimary tree) (right : UInt32) : IsRightOf right tree where
  ordered := h.ordered
  binds := fun hinfix => absurd hinfix h.not_isInfix

/-- An operator with the expression that ends in front of it and what is read to its right. -/
theorem isRightOf_node {operand : Tree (Symbol κ)} (hg : g.InfixOnly) (hs : g.symbol t = .ok s)
    (hbinds : s.binds right = true) (harity : s.arity = 2) (hleft : IsRightOf right left)
    (hends : g.EndsBefore left (t :: ts)) (hoperand : IsRightOf s.power operand) :
    IsRightOf right (.node s t.text t.span [left, operand]) where
  ordered := by
    have hleading : s.leading = .refused := hg.leading_eq_refused hs harity
    refine Tree.isOrdered_node ⟨fun _ => ⟨left, operand, rfl, ?_, ?_⟩, ?_, ?_⟩ ?_
    -- an infix left operand has ended in front of the operator, which does not bind at its power
    · intro hinfix
      obtain ⟨s', hs', hstops⟩ := hends hinfix t rfl
      obtain ⟨_, hs'', rfl⟩ := map_eq_ok.1 hs'
      cases hs.symm.trans hs''
      exact Symbol.power_of_not_binds (Symbol.power_ne_zero_of_binds (hleft.binds hinfix)) hstops
    · intro hinfix
      rcases Symbol.binds_iff.1 (hoperand.binds hinfix) with hlt | ⟨⟨-, hassoc⟩, heq⟩
      · exact Or.inl hlt
      · exact Or.inr ⟨heq.symm, hassoc⟩
    · intro closer h
      cases hleading.symm.trans h
    · intro count h
      cases hleading.symm.trans h
    · simpa using ⟨hleft.ordered, hoperand.ordered⟩
  binds := fun _ => hbinds

/-- What the parser reads respects the powers. -/
def powerContract (g : Grammar κ) : Contract where
  primary ts := ∀ ⦃tree rest⦄, Gives (g.labelled.primary ts) tree rest → IsPrimary tree
  expression ts := ∀ ⦃right tree rest⦄, Gives (g.labelled.expression right ts) tree rest →
    IsRightOf right tree ∧ g.labelled.StopsAt right rest
  infixes ts := ∀ ⦃right left tree rest⦄, IsRightOf right left → g.EndsBefore left ts →
    Gives (g.labelled.infixes right left ts) tree rest →
    IsRightOf right tree ∧ g.labelled.StopsAt right rest
  operands ts := ∀ ⦃count trees rest⦄, Gives (g.labelled.operands count ts) trees rest →
    ∀ tree ∈ trees, IsRightOf highestPower tree

theorem InfixOnly.isPrimary_of_primary (hg : g.InfixOnly) (hk : g.powerContract.HoldsBelow ts)
    (h : Gives (g.labelled.primary ts) tree rest) : IsPrimary tree := by
  cases h.primaryTurn with
  | leaf hs hleading hnode hpostfixes =>
    obtain ⟨s, hsymbol, rfl⟩ := map_eq_ok.1 hs
    rw [Symbol.leading_itself] at hleading
    cases hnode
    refine isPrimary_of_postfixes (isPrimary_of_leading ?_ ?_ ?_ ?_) hpostfixes
    · exact hg.arity_ne_two hsymbol (by simp [hleading])
    · simp [hleading]
    · simp [hleading]
    · simp
  | group hs hleading hcontent hclosing hnode hpostfixes =>
    obtain ⟨s, hsymbol, rfl⟩ := map_eq_ok.1 hs
    rw [Symbol.leading_itself] at hleading
    obtain ⟨hread, -⟩ := hk.tail.expression hcontent
    cases hnode
    refine isPrimary_of_postfixes (isPrimary_node ?_ ?_ ?_ ?_) hpostfixes
    · exact hg.arity_ne_two hsymbol (by simp [hleading])
    · simpa using fun _ _ => hread
    · simp [hleading]
    · simpa using hread.ordered
  | single hs hleading hoperand hnode =>
    obtain ⟨s, hsymbol, rfl⟩ := map_eq_ok.1 hs
    rw [Symbol.leading_itself] at hleading
    have hread := hk.tail.primary hoperand
    cases hnode
    refine isPrimary_of_leading ?_ ?_ ?_ ?_
    · exact hg.arity_ne_two hsymbol (by simp [hleading])
    · simp [hleading]
    · simp [hleading]
    · simpa using hread.ordered
  | many hs hleading hoperands hnode =>
    obtain ⟨s, hsymbol, rfl⟩ := map_eq_ok.1 hs
    rw [Symbol.leading_itself] at hleading
    have hread := hk.tail.operands hoperands
    cases hnode
    refine isPrimary_node ?_ ?_ ?_ ?_
    · exact hg.arity_ne_two hsymbol (by simp [hleading])
    · simp [hleading]
    · exact fun _ _ => hread
    · exact fun child hchild => (hread child hchild).ordered

theorem isRightOf_of_expression (hk : g.powerContract.HoldsBelow ts)
    (hprimary : g.powerContract.primary ts)
    (h : Gives (g.labelled.expression right ts) tree rest) :
    IsRightOf right tree ∧ g.labelled.StopsAt right rest := by
  obtain ⟨left, us, hleft, hinfixes⟩ := h.expression
  have hread := hprimary hleft
  obtain ⟨hlt, -⟩ := hleft
  exact (hk hlt).infixes (hread.isRightOf right) (fun h => absurd h hread.not_isInfix) hinfixes

theorem InfixOnly.isRightOf_of_infixes (hg : g.InfixOnly) (hk : g.powerContract.HoldsBelow ts)
    (hleft : IsRightOf right left) (hends : g.EndsBefore left ts)
    (h : Gives (g.labelled.infixes right left ts) tree rest) :
    IsRightOf right tree ∧ g.labelled.StopsAt right rest := by
  cases h.infixTurn with
  | stop hstops => exact ⟨hleft, hstops⟩
  | apply hs hbinds harity hoperand hnode hinfixes =>
    obtain ⟨s, hsymbol, rfl⟩ := map_eq_ok.1 hs
    obtain ⟨hread, hstops⟩ := hk.tail.expression hoperand
    obtain ⟨hlt, -⟩ := hoperand
    cases hnode
    have hnode := isRightOf_node hg hsymbol hbinds harity hleft hends hread
    exact (hk (Nat.lt_succ_of_lt hlt)).infixes hnode (fun _ => hstops) hinfixes

theorem isRightOf_of_operands {count : Nat} {trees : List (Tree (Symbol κ))}
    (hk : g.powerContract.HoldsBelow ts) (hexpression : g.powerContract.expression ts)
    (h : Gives (g.labelled.operands count ts) trees rest) :
    ∀ tree ∈ trees, IsRightOf highestPower tree := by
  rcases h.operands with ⟨-, rfl, -⟩ | ⟨n, first, us, others, -, rfl, hfirst, hothers⟩
  · simp
  · obtain ⟨hread, -⟩ := hexpression hfirst
    obtain ⟨hlt, -⟩ := hfirst
    simpa using ⟨hread, (hk hlt).operands hothers⟩

theorem InfixOnly.isInductive_powerContract (hg : g.InfixOnly) : g.powerContract.IsInductive where
  primary hk _ _ h := hg.isPrimary_of_primary hk h
  expression hk hprimary _ _ _ h := isRightOf_of_expression hk hprimary h
  infixes hk _ _ _ _ hleft hends h := hg.isRightOf_of_infixes hk hleft hends h
  operands hk hexpression _ _ _ h := isRightOf_of_operands hk hexpression h

/-! ## Whole trees -/

theorem relabels_labelled (g : Grammar κ) : Relabels Symbol.kind g.labelled g.withoutHooks := by
  intro t
  show g.symbol t = ((g.symbol t).map Symbol.itself).map (Symbol.relabel Symbol.kind)
  cases g.symbol t <;> rfl

/-- The symbols at the nodes of a tree that the parser builds. -/
theorem exists_labelled_of_parse {built : Tree κ} (h : g.withoutHooks.parse ts = .ok built) :
    ∃ tree, g.labelled.parse ts = .ok tree ∧ tree.relabel Symbol.kind = built := by
  have hfollows := (relabels_labelled g).parse_follows ts
  cases hlabelled : g.labelled.withoutHooks.parse ts with
  | error e =>
    obtain ⟨e', he'⟩ := hfollows.error e hlabelled
    rw [h] at he'
    cases he'
  | ok tree =>
    have hparse := hfollows.ok tree hlabelled
    rw [h, recast, rebuild_withoutHooks] at hparse
    cases hparse
    exact ⟨tree, hlabelled, rfl⟩

/-- **In the tree of a whole input each operator stands where the powers allow it**, whatever
    operators of equal power associate to, and at the root none has the power zero. -/
theorem respectsPowers_of_parse (g : Grammar κ) (hg : g.InfixOnly) {built : Tree κ}
    (h : g.withoutHooks.parse ts = .ok built) :
    ∃ tree, g.labelled.parse ts = .ok tree ∧ tree.relabel Symbol.kind = built ∧
      (∀ node ∈ tree.nodes, node.RespectsPowers) ∧ (tree.IsInfix → tree.kind.power ≠ 0) := by
  obtain ⟨tree, hparse, hbuilt⟩ := exists_labelled_of_parse h
  obtain ⟨hgives, -⟩ := parse_eq_ok_iff.1 hparse
  obtain ⟨hread, -⟩ := (hg.isInductive_powerContract.holdsAt ts).expression hgives
  exact ⟨tree, hparse, hbuilt, hread.ordered,
    fun hinfix => Symbol.power_ne_zero_of_binds (hread.binds hinfix)⟩

/-- A table with operators of equal power that associate on different sides, one of the highest
    power, groups, and an operator with three operands. -/
def arithmeticSymbol (t : Token) : Except Error (Symbol String) :=
  match t.text with
  | "x" => .ok (.atom "operand")
  | "(" => .ok (.group "group" ")")
  | ")" => .ok (.closingOp "end")
  | "+" => .ok (.infixOp "sum" 10)
  | "-" => .ok (.infixRightOp "difference" 10)
  | "*" => .ok (.infixOp "product" 20)
  | "." => .ok (.infixRightOp "composite" highestPower)
  | "if" => .ok { Symbol.plain "if" with arity := 3, prefixed := true }
  | text => .error (.malformed (.unknownOperator text))

/-- The grammar with this table and no hooks. -/
def arithmetic : Grammar String where
  symbol := arithmeticSymbol

/-- The tokens of `x + if x . x (x - x) x * x - x`. -/
def arithmeticTokens : List Token :=
  ["x", "+", "if", "x", ".", "x", "(", "x", "-", "x", ")", "x", "*", "x", "-", "x"].map
    Token.operator

/-- The tree that they stand for. -/
def arithmeticTree : Tree String :=
  let x := Tree.node "operand" "x" none []
  let condition := Tree.node "composite" "." none [x, x]
  let grouped := Tree.node "group" "(" none [.node "difference" "-" none [x, x]]
  let product := Tree.node "product" "*" none [.node "if" "if" none [condition, grouped, x], x]
  .node "sum" "+" none [x, .node "difference" "-" none [product, x]]

theorem infixOnly_arithmetic : arithmetic.InfixOnly := by
  intro t s hs harity
  simp only [arithmetic, arithmeticSymbol] at hs
  split at hs <;> cases hs
  all_goals first | exact ⟨rfl, rfl⟩ | cases harity

theorem respectsPowers_of_parse_arithmetic :
    arithmetic.withoutHooks.parse arithmeticTokens = .ok arithmeticTree ∧
    arithmetic.InfixOnly ∧
    ∃ tree, arithmetic.labelled.parse arithmeticTokens = .ok tree ∧
      tree.relabel Symbol.kind = arithmeticTree ∧
      (∀ node ∈ tree.nodes, node.RespectsPowers) ∧ (tree.IsInfix → tree.kind.power ≠ 0) := by
  have hparse : arithmetic.withoutHooks.parse arithmeticTokens = .ok arithmeticTree := by
    show parse { symbol := arithmeticSymbol, replace := fun tree => tree } arithmeticTokens = _
    cbv
  exact ⟨hparse, infixOnly_arithmetic,
    respectsPowers_of_parse arithmetic infixOnly_arithmetic hparse⟩

end Grammar

end BranchingTime
