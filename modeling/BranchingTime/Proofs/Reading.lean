import BranchingTime.Formula.Parser
import BranchingTime.Proofs.Lexing
import BranchingTime.Proofs.Normalization
import BranchingTime.Proofs.Turns

set_option autoImplicit false

/-! # Tokens that are read as a formula

Under the grammar of formula text tokens are read as a formula if the parser builds a tree from them
that stands for the formula, either as one operand (`IsOperandOf`) or as a whole expression
(`IsExpressionOf`). Each operator has one rule, which puts the tokens of the operator around those
of its operands; the ranges of the tokens do not matter. A negation is read through
`Formula.negate`, as the grammar takes double negations away. -/

namespace BranchingTime

namespace Construct

open Grammar (IsInfix)
open Formula (ofTree ofOne ofTwo ofTree_not ofTree_connect ofTree_unary ofTree_binary)

variable {t u v w : Token} {ts us : List Token} {s : Symbol Construct}
  {tree a b : Tree Construct} {children : List (Tree Construct)} {text : String} {f g : Formula}

/-! ## Symbols -/

/-- The symbol of a token does not depend on its range. -/
theorem symbol_of_bare (h : t.bare = u) : symbol t = symbol u := by
  rw [← h]
  rfl

theorem text_of_bare (h : t.bare = u) : t.text = u.text := by
  rw [← h]
  rfl

theorem symbol_quantifier (q : Quantifier) :
    symbol (Token.operator q.letter.toString) = .ok (.prefixOp (quantifier q)) := by
  cases q <;> rfl

theorem symbol_unaryPath (o : UnaryPath) :
    symbol (Token.operator o.letter.toString) = .ok (.prefixOp (path (.unary o))) := by
  cases o <;> rfl

theorem symbol_binaryPath (o : BinaryPath) :
    symbol (Token.operator o.letter.toString) =
      .ok (.infixRightOp (path (.binary o)) 10) := by
  cases o <;> rfl

theorem symbol_sign (c : Connective) :
    ∃ s, symbol (Token.operator c.sign) = .ok s ∧ s.kind = connect c ∧ IsInfix s := by
  cases c with
  | and => exact ⟨_, rfl, rfl, rfl, rfl, rfl⟩
  | or => exact ⟨_, rfl, rfl, rfl, rfl, rfl⟩
  | implies => exact ⟨_, rfl, rfl, rfl, rfl, rfl⟩

/-! ## Trees of formulas -/

/-- A path operator without a quantifier stands for no formula. -/
theorem isPath_eq_false_of_ofTree (h : ofTree tree = .ok f) : tree.kind.isPath = false := by
  obtain ⟨kind, text, span, children⟩ := tree
  cases kind with
  | path o => simp [ofTree] at h
  | _ => rfl

theorem exists_of_ofOne (h : ofOne text children = .ok f) :
    ∃ a, children = [a] ∧ ofTree a = .ok f := by
  rcases children with _ | ⟨a, _ | ⟨b, cs⟩⟩
  · cases h
  · exact ⟨a, rfl, h⟩
  · cases h

theorem exists_of_ofTwo (h : ofTwo text children = .ok (f, g)) :
    ∃ a b, children = [a, b] ∧ ofTree a = .ok f ∧ ofTree b = .ok g := by
  rcases children with _ | ⟨a, _ | ⟨b, _ | ⟨c, cs⟩⟩⟩
  · cases h
  · cases h
  · obtain ⟨_, ha, h⟩ := bind_eq_ok.1 h
    obtain ⟨_, hb, h⟩ := bind_eq_ok.1 h
    cases h
    exact ⟨a, b, rfl, ha, hb⟩
  · cases h

theorem exists_of_ofTree_not {text : String} {span : Option Span}
    (h : ofTree (.node not text span children) = .ok f) :
    ∃ a g, children = [a] ∧ ofTree a = .ok g ∧ f = .not g := by
  rw [ofTree] at h
  obtain ⟨g, hg, hf⟩ := bind_eq_ok.1 h
  obtain ⟨a, rfl, ha⟩ := exists_of_ofOne hg
  cases hf
  exact ⟨a, g, rfl, ha, rfl⟩

/-- Only the node of a negation stands for one. -/
theorem isNegation_eq_false_of_ofTree (h : ofTree tree = .ok f) (hkind : tree.kind ≠ not) :
    f.isNegation = false := by
  obtain ⟨kind, text, span, children⟩ := tree
  rcases kind with _ | _ | c | o | q | ⟨q, o | o⟩ | _ | _ <;> rw [ofTree] at h
  · split at h
    · cases h
      unfold Formula.ofName
      split_ifs <;> rfl
    · cases h
  · exact absurd rfl hkind
  · cases hab : ofTwo text children <;> rw [hab] at h <;> cases h
    rfl
  · cases h
  · cases h
  · cases ha : ofOne text children <;> rw [ha] at h <;> cases h
    rfl
  · cases hab : ofTwo text children <;> rw [hab] at h <;> cases h
    rfl
  · cases h
  · cases h

/-! ## Completed nodes -/

theorem build_of_accept (h : accept (.node s.kind t.text t.span children) = .ok ()) :
    grammar.build s t children = .ok (reduce (.node s.kind t.text t.span children)) := by
  show grammar.complete _ = _
  simp only [Grammar.complete, grammar, h]
  rfl

theorem withoutPaths_of_ofTree (h : ∀ a ∈ children, ∃ f, ofTree a = .ok f) :
    withoutPaths children = .ok () := by
  have hnone : children.find? (·.kind.isPath) = none := by
    rw [List.find?_eq_none]
    intro a ha
    obtain ⟨f, hf⟩ := h a ha
    simp [isPath_eq_false_of_ofTree hf]
  simp [withoutPaths, hnone]

/-- The node of a negation stands for the operand negated, also where nothing is left of two
    negations. -/
theorem build_not (t : Token) (ha : ofTree a = .ok f) :
    ∃ node, grammar.build (.prefixOp not) t [a] = .ok node ∧ ofTree node = .ok f.negate := by
  have hpaths : withoutPaths [a] = .ok () := withoutPaths_of_ofTree (by simp [ha])
  have hbuild : grammar.build (.prefixOp not) t [a] = .ok (reduce (.node not t.text t.span [a])) :=
    build_of_accept hpaths
  refine ⟨_, hbuild, ?_⟩
  -- the grammar puts the inner operand in the place of two negations
  by_cases hkind : a.kind = not
  · obtain ⟨kind, text, span, children⟩ := a
    cases hkind
    obtain ⟨b, g, rfl, hb, rfl⟩ := exists_of_ofTree_not ha
    exact hb
  · have hsame : reduce (.node not t.text t.span [a]) = .node not t.text t.span [a] := by
      obtain ⟨kind, text, span, children⟩ := a
      cases kind with
      | not => exact absurd rfl hkind
      | _ => rfl
    rw [hsame, Formula.negate_of_not_isNegation (isNegation_eq_false_of_ofTree ha hkind)]
    exact ofTree_not _ _ ha

theorem build_connect (c : Connective) (hs : s.kind = connect c) (t : Token)
    (ha : ofTree a = .ok f) (hb : ofTree b = .ok g) :
    ∃ node, grammar.build s t [a, b] = .ok node ∧ ofTree node = .ok (.connect c f g) := by
  have hpaths : withoutPaths [a, b] = .ok () := withoutPaths_of_ofTree (by simp [ha, hb])
  refine ⟨_, build_of_accept ?_, ?_⟩
  · rw [hs]
    exact hpaths
  · rw [hs]
    exact ofTree_connect c _ _ ha hb

theorem build_path (o : PathOperator) (hs : s.kind = path o) (t : Token)
    (children : List (Tree Construct)) (h : ∀ a ∈ children, ∃ f, ofTree a = .ok f) :
    grammar.build s t children = .ok (.node (path o) t.text t.span children) := by
  have haccept : accept (.node s.kind t.text t.span children) = .ok () := by
    rw [hs]
    exact withoutPaths_of_ofTree h
  rw [build_of_accept haccept, hs]
  rfl

theorem build_quantifier (q : Quantifier) (o : PathOperator) (t : Token) (text : String)
    (span : Option Span) (children : List (Tree Construct)) :
    grammar.build (.prefixOp (quantifier q)) t [.node (path o) text span children] =
      .ok (.node (quantified q o) (t.text ++ text) (Span.join? t.span span) children) :=
  build_of_accept rfl

theorem build_opening (t : Token) (a : Tree Construct) :
    grammar.build (.group opening ")") t [a] = .ok a :=
  build_of_accept rfl

/-! ## Tokens of a formula -/

/-- The tokens are read as one operand, which stands for the formula. -/
def IsOperandOf (ts : List Token) (f : Formula) : Prop :=
  ∃ tree, grammar.IsOperand ts tree ∧ ofTree tree = .ok f

/-- The tokens are read as one expression, which stands for the formula. -/
def IsExpressionOf (ts : List Token) (f : Formula) : Prop :=
  ∃ tree, grammar.IsExpression ts tree ∧ ofTree tree = .ok f

theorem IsOperandOf.isExpressionOf (h : IsOperandOf ts f) : IsExpressionOf ts f := by
  obtain ⟨tree, hread, htree⟩ := h
  exact ⟨tree, hread.isExpression, htree⟩

theorem isOperandOf_atom {name : String} (ht : t.bare = Token.atom name) :
    IsOperandOf [t] (Formula.ofName name) := by
  have hs : grammar.symbol t = .ok (.atom atom) := symbol_of_bare ht
  refine ⟨.node atom t.text t.span [], Grammar.isOperand_leaf hs rfl (build_of_accept rfl), ?_⟩
  rw [text_of_bare ht]
  rfl

theorem IsOperandOf.not (ht : t.bare = Token.operator "!") (h : IsOperandOf ts f) :
    IsOperandOf (t :: ts) f.negate := by
  obtain ⟨tree, hread, htree⟩ := h
  have hs : grammar.symbol t = .ok (.prefixOp Construct.not) := symbol_of_bare ht
  obtain ⟨node, hnode, hf⟩ := build_not t htree
  exact ⟨node, hread.single hs rfl hnode, hf⟩

theorem IsOperandOf.connect (c : Connective) (ht : t.bare = Token.operator c.sign)
    (ha : IsOperandOf ts f) (hb : IsOperandOf us g) :
    IsExpressionOf (ts ++ t :: us) (.connect c f g) := by
  obtain ⟨a, hreada, ha⟩ := ha
  obtain ⟨b, hreadb, hb⟩ := hb
  obtain ⟨s, hs, hkind, hinfix⟩ := symbol_sign c
  obtain ⟨node, hnode, hf⟩ := build_connect c hkind t ha hb
  exact ⟨node, hreada.connected hreadb ((symbol_of_bare ht).trans hs) hinfix hnode, hf⟩

theorem closed_closing (ht : t.bare = Token.operator ")") : grammar.Closed [t] := by
  intro u hu
  cases hu
  refine ⟨.closingOp closing, symbol_of_bare ht, rfl, fun p => ?_⟩
  simp [Symbol.binds, Symbol.closingOp, Symbol.plain]

/-- Parentheses make an operand of every expression, path operators included. -/
theorem isOperand_enclosed (ht : t.bare = Token.operator "(") (hu : u.bare = Token.operator ")")
    (h : grammar.IsExpression ts tree) : grammar.IsOperand (t :: (ts ++ [u])) tree := by
  have hs : grammar.symbol t = .ok (.group opening ")") := symbol_of_bare ht
  have hclose : u.text = ")" := text_of_bare hu
  exact h.group hs (hclose ▸ rfl) rfl (closed_closing hu) (build_opening t tree)

theorem IsExpressionOf.enclosed (ht : t.bare = Token.operator "(")
    (hu : u.bare = Token.operator ")") (h : IsExpressionOf ts f) :
    IsOperandOf (t :: (ts ++ [u])) f := by
  obtain ⟨tree, hread, htree⟩ := h
  exact ⟨tree, isOperand_enclosed ht hu hread, htree⟩

theorem IsOperandOf.unary (q : Quantifier) (o : UnaryPath)
    (ht : t.bare = Token.operator q.letter.toString)
    (hu : u.bare = Token.operator o.letter.toString) (h : IsOperandOf ts f) :
    IsOperandOf (t :: u :: ts) (.unary q o f) := by
  obtain ⟨a, hread, ha⟩ := h
  have hq : grammar.symbol t = .ok (.prefixOp (quantifier q)) :=
    (symbol_of_bare ht).trans (symbol_quantifier q)
  have ho : grammar.symbol u = .ok (.prefixOp (path (.unary o))) :=
    (symbol_of_bare hu).trans (symbol_unaryPath o)
  have hpath := build_path (s := .prefixOp (path (.unary o))) (.unary o) rfl u [a] (by simp [ha])
  exact ⟨_, (hread.single ho rfl hpath).single hq rfl (build_quantifier _ _ _ _ _ _),
    ofTree_unary q o _ _ ha⟩

theorem IsOperandOf.binary (q : Quantifier) (o : BinaryPath)
    (ht : t.bare = Token.operator q.letter.toString) (hv : v.bare = Token.operator "(")
    (hu : u.bare = Token.operator o.letter.toString) (hw : w.bare = Token.operator ")")
    (ha : IsOperandOf ts f) (hb : IsOperandOf us g) :
    IsOperandOf (t :: v :: (ts ++ u :: us ++ [w])) (.binary q o f g) := by
  obtain ⟨a, hreada, ha⟩ := ha
  obtain ⟨b, hreadb, hb⟩ := hb
  have hq : grammar.symbol t = .ok (.prefixOp (quantifier q)) :=
    (symbol_of_bare ht).trans (symbol_quantifier q)
  have ho : grammar.symbol u = .ok (.infixRightOp (path (.binary o)) 10) :=
    (symbol_of_bare hu).trans (symbol_binaryPath o)
  have hpath := build_path (s := .infixRightOp (path (.binary o)) 10) (.binary o) rfl u
    [a, b] (by simp [ha, hb])
  -- the parentheses hold a path operator, which stands for no formula before the quantifier is read
  have hgroup := isOperand_enclosed hv hw (hreada.connected hreadb ho ⟨rfl, rfl, rfl⟩ hpath)
  exact ⟨_, hgroup.single hq rfl (build_quantifier _ _ _ _ _ _), ofTree_binary q o _ _ ha hb⟩

end Construct

end BranchingTime
