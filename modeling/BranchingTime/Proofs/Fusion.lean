import BranchingTime.Proofs.Failures
import BranchingTime.Proofs.Leaves
import BranchingTime.Proofs.Trees

set_option autoImplicit false

/-! # What parsing hands to the reading of formulas

Path operators are nodes of their own for a while: the parser builds them, and parentheses pass them
on, until a quantifier takes them in or another node refuses them. In a whole tree none is left
over. Every node has the operands of its operator and none is a bare path operator, a bare
quantifier or a parenthesis (`Construct.IsComplete`), so the tree is read as a formula. Thus
whatever the tokens are, only they can be at fault (`Construct.isComplete_of_treeOfTokens`). -/

namespace BranchingTime

namespace Construct

variable {s : Symbol Construct} {t : Token} {right : UInt32} {tree : Tree Construct}
  {ts : List Token} {e : Error}

/-- A node that stands for an operator with its operands, or for an atom. -/
def IsComplete : Tree Construct → Prop
  | .node atom _ _ children => children = []
  | .node not _ _ children => ∃ a, children = [a] ∧ a.kind ≠ not
  | .node (connect _) _ _ children => ∃ a b, children = [a, b]
  | .node (quantified _ o) _ _ children => children.length = o.arity
  | .node (path _) _ _ _ => False
  | .node (quantifier _) _ _ _ => False
  | .node opening _ _ _ => False
  | .node closing _ _ _ => False

/-- Of the trees that the parser builds only a path operator at the root is not complete. -/
theorem IsBuilt.isComplete (h : IsBuilt tree) (hpath : tree.kind.isPath = false) :
    ∀ u ∈ tree.nodes, IsComplete u := by
  induction h with
  | @node kind text span children hcount hpaths hnot hchildren ih =>
    intro u hu
    rw [Tree.nodes, List.mem_cons, Tree.mem_nodesAll] at hu
    rcases hu with rfl | ⟨a, ha, hu⟩
    · cases kind <;> simp [operandCount] at hcount
      case atom => simpa [IsComplete] using hcount.symm
      case not =>
        obtain ⟨a, rfl⟩ := List.length_eq_one_iff.1 hcount.symm
        exact ⟨a, rfl, hnot rfl a List.mem_cons_self⟩
      case connect => exact List.length_eq_two.1 hcount.symm
      case path => simp [Tree.kind, isPath] at hpath
      case quantified => exact hcount.symm
    · exact ih a ha (hpaths a ha) u hu

theorem exists_ofOne (text : String) {children : List (Tree Construct)}
    (hcount : children.length = 1) (h : ∀ a ∈ children, ∃ f, Formula.ofTree a = .ok f) :
    ∃ f, Formula.ofOne text children = .ok f := by
  obtain ⟨a, rfl⟩ := List.length_eq_one_iff.1 hcount
  rw [Formula.ofOne]
  exact h a List.mem_cons_self

theorem exists_ofTwo (text : String) {children : List (Tree Construct)}
    (hcount : children.length = 2) (h : ∀ a ∈ children, ∃ f, Formula.ofTree a = .ok f) :
    ∃ p, Formula.ofTwo text children = .ok p := by
  obtain ⟨a, b, rfl⟩ := List.length_eq_two.1 hcount
  obtain ⟨f, hf⟩ := h a (by simp)
  obtain ⟨f', hf'⟩ := h b (by simp)
  rw [Formula.ofTwo, hf, hf']
  exact ⟨(f, f'), rfl⟩

/-- A tree that the parser builds is read as a formula unless a path operator is at its root. -/
theorem IsBuilt.exists_ofTree (h : IsBuilt tree) (hpath : tree.kind.isPath = false) :
    ∃ f, Formula.ofTree tree = .ok f := by
  induction h with
  | @node kind text span children hcount hpaths hnot hchildren ih =>
    have hread : ∀ a ∈ children, ∃ f, Formula.ofTree a = .ok f :=
      fun a ha => ih a ha (hpaths a ha)
    rcases kind with _ | _ | _ | _ | _ | ⟨q, o | o⟩ | _ | _ <;> simp [operandCount] at hcount
    case atom =>
      rw [List.length_eq_zero_iff.1 hcount.symm, Formula.ofTree]
      exact ⟨_, rfl⟩
    case not =>
      obtain ⟨f, hf⟩ := exists_ofOne text hcount.symm hread
      rw [Formula.ofTree, hf]
      exact ⟨_, rfl⟩
    case connect =>
      obtain ⟨p, hp⟩ := exists_ofTwo text hcount.symm hread
      rw [Formula.ofTree, hp]
      exact ⟨_, rfl⟩
    case path => simp [Tree.kind, isPath] at hpath
    case quantified.unary =>
      obtain ⟨f, hf⟩ := exists_ofOne text hcount.symm hread
      rw [Formula.ofTree, hf]
      exact ⟨_, rfl⟩
    case quantified.binary =>
      obtain ⟨p, hp⟩ := exists_ofTwo text hcount.symm hread
      rw [Formula.ofTree, hp]
      exact ⟨_, rfl⟩

/-! ## Failures under the grammar of formula text -/

/-- Only infix operators bind an operand on their left. -/
theorem arity_of_binds (hs : symbol t = .ok s) (hbinds : s.binds right = true) : s.arity = 2 := by
  cases role_of_symbol hs with
  | joining => rfl
  | _ => simp [Symbol.binds, Symbol.atom, Symbol.group, Symbol.closingOp, Symbol.prefixOp,
      Symbol.plain] at hbinds

/-- The tokens are at fault, and never because an operator takes too few operands or too many. -/
theorem isMalformed_of_failure (h : grammar.Failure e) :
    e.isMalformed = true ∧ ∀ text, e ≠ .malformed (.notInfix text) := by
  cases h with
  | @symbol t _ hs =>
    replace hs : symbol t = .error e := hs
    unfold symbol at hs
    split at hs
    · cases hs
    · split at hs <;> cases hs
      simp [Error.isMalformed]
  | notInfix hs hbinds harity => exact absurd (arity_of_binds hs hbinds) harity
  | _ => simp [Error.isMalformed]

/-- A tree that is accepted has no path operator at its root. -/
theorem isPath_eq_false_of_acceptRoot (h : grammar.acceptRoot tree = .ok ()) :
    tree.kind.isPath = false := by
  replace h : (acceptRoot tree).mapError Refusal.message = .ok () := h
  unfold acceptRoot at h
  split at h
  · cases h
  · next hpath => simpa using hpath

/-- A tree that is parsed is built, and has no path operator at its root. -/
theorem isBuilt_and_isPath_of_treeOfTokens (h : Formula.treeOfTokens ts = .ok tree) :
    IsBuilt tree ∧ tree.kind.isPath = false :=
  ⟨(isBuilt_of_treeOfTokens h).1, isPath_eq_false_of_acceptRoot (Grammar.parse_eq_ok_iff.1 h).2⟩

/-- Tokens that are no formula are malformed: what is parsed is read as a formula. -/
theorem isMalformed_of_ofTokens (h : Formula.ofTokens ts = .error e) : e.isMalformed = true := by
  unfold Formula.ofTokens at h
  cases hparse : Formula.treeOfTokens ts with
  | error e' =>
    rw [hparse] at h
    cases h
    exact (isMalformed_of_failure (grammar.failure_of_parse ts e hparse)).1
  | ok tree =>
    obtain ⟨hbuilt, hpath⟩ := isBuilt_and_isPath_of_treeOfTokens hparse
    obtain ⟨f, hf⟩ := hbuilt.exists_ofTree hpath
    simp [hparse, Formula.normalOfTree, bind, Except.bind, hf, pure, Except.pure] at h

/-- **A tree that is parsed has complete nodes only, and is read as a formula. Tokens that give none
    are malformed**, and this never because an expression goes on with an operator that is not
    infix: no other operator binds an operand on its left. -/
theorem isComplete_of_treeOfTokens (ts : List Token) :
    (∀ tree, Formula.treeOfTokens ts = .ok tree →
      (∀ u ∈ tree.nodes, IsComplete u) ∧ ∃ f, Formula.ofTree tree = .ok f) ∧
    (∀ e, Formula.ofTokens ts = .error e → e.isMalformed = true) ∧
    (∀ t s right, symbol t = .ok s → s.binds right = true → s.arity = 2) ∧
    ∀ text, Formula.treeOfTokens ts ≠ .error (.malformed (.notInfix text)) := by
  refine ⟨?_, fun e => isMalformed_of_ofTokens, fun t s right => arity_of_binds, ?_⟩
  · intro tree h
    obtain ⟨hbuilt, hpath⟩ := isBuilt_and_isPath_of_treeOfTokens h
    exact ⟨hbuilt.isComplete hpath, hbuilt.exists_ofTree hpath⟩
  · intro text h
    exact (isMalformed_of_failure (grammar.failure_of_parse ts _ h)).2 text rfl

/-- The tokens of `!(A(p W E X q))`, and the tree that they are parsed as. -/
def nestedPaths : List Token :=
  [.operator "!", .operator "(", .operator "A", .operator "(", .atom "p", .operator "W",
    .operator "E", .operator "X", .atom "q", .operator ")", .operator ")"]

def nestedPathsTree : Tree Construct :=
  .node not "!" none
    [.node (.quantified .every (.binary .weakUntil)) "AW" none
      [.node .atom "p" none [],
        .node (.quantified .some (.unary .next)) "EX" none [.node .atom "q" none []]]]

theorem isComplete_of_treeOfTokens_nestedPaths :
    Formula.treeOfTokens nestedPaths = .ok nestedPathsTree ∧
    (∀ u ∈ nestedPathsTree.nodes, IsComplete u) ∧
    (∃ f, Formula.ofTree nestedPathsTree = .ok f) ∧
    Formula.ofTokens [.operator "A", .operator "X"] = .error (.malformed .unexpectedEnd) ∧
    (Error.malformed .unexpectedEnd).isMalformed = true ∧
    symbol (.operator "->") = .ok (.infixRightOp (connect .implies) 20) ∧
    (Symbol.infixRightOp (connect .implies) 20).binds 20 = true ∧
    (Symbol.infixRightOp (connect .implies) 20).arity = 2 := by
  have hparse : Formula.treeOfTokens nestedPaths = .ok nestedPathsTree := by cbv
  have hrefused : Formula.ofTokens [.operator "A", .operator "X"] =
      .error (.malformed .unexpectedEnd) := by cbv
  have hsymbol : symbol (.operator "->") = .ok (.infixRightOp (connect .implies) 20) := rfl
  have hbinds : (Symbol.infixRightOp (connect .implies) 20).binds 20 = true := by decide
  obtain ⟨hcomplete, hread⟩ := (isComplete_of_treeOfTokens nestedPaths).1 _ hparse
  obtain ⟨-, hmalformed, harity, -⟩ :=
    isComplete_of_treeOfTokens [.operator "A", .operator "X"]
  exact ⟨hparse, hcomplete, hread, hrefused, hmalformed _ hrefused, hsymbol, hbinds,
    harity _ _ _ hsymbol hbinds⟩

end Construct

end BranchingTime
