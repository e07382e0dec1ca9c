import BranchingTime.Proofs.Unambiguity
import Mathlib.Combinatorics.Enumerative.DyckWord

set_option autoImplicit false

/-! # The leaves of a parse tree

The leaves of a tree that the parser builds are the atoms of its tokens, from left to right
(`Derivation.isBuilt`), though nodes are fused, unwrapped and taken away on the way: each node that
is built keeps the leaves of its operands. The parentheses among the tokens are those of the groups
of the derivation, a Dyck word (`Derivation.toList_groups`).

Both are said of the tokens as the parser takes them. Where a group has to end the parser asks for
the text of a closing parenthesis and not for an operator, so an atom with that text ends the group
as well. `leaves_of_treeOfTokens` says what this means for the tokens as they are. -/

namespace BranchingTime

/-! ## Leaves and atoms -/

namespace Tree

variable {κ : Type}

mutual

/-- The texts and ranges of the leaves, from left to right. -/
def leaves : Tree κ → List (String × Option Span)
  | node _ text span [] => [(text, span)]
  | node _ _ _ (c :: cs) => leavesAll (c :: cs)

/-- The texts and ranges of the leaves of all the trees, from left to right. -/
def leavesAll : List (Tree κ) → List (String × Option Span)
  | [] => []
  | t :: ts => t.leaves ++ leavesAll ts

end

theorem leaves_of_ne_nil (kind : κ) (text : String) (span : Option Span)
    {children : List (Tree κ)} (h : children ≠ []) :
    (node kind text span children).leaves = leavesAll children := by
  cases children with
  | nil => exact absurd rfl h
  | cons c cs => rw [leaves]

end Tree

namespace Construct

/-- The texts and ranges of the atoms among the tokens. -/
def atomsOf (ts : List Token) : List (String × Option Span) :=
  (ts.filter Token.isAtom).map fun t => (t.text, t.span)

/-- The number of operands of a node, once a quantifier and its path operator are one. -/
def operandCount : Construct → Option Nat
  | atom => some 0
  | not => some 1
  | connect _ => some 2
  | path o => some o.arity
  | quantified _ o => some o.arity
  | _ => none

/-- The trees that the parser builds: every node has its operands, none of them is a path operator,
    and that of a negation is no negation. -/
inductive IsBuilt : Tree Construct → Prop where
  | node (kind : Construct) (text : String) (span : Option Span) {children : List (Tree Construct)}
      (hcount : kind.operandCount = some children.length)
      (hpath : ∀ a ∈ children, a.kind.isPath = false)
      (hnot : kind = not → ∀ a ∈ children, a.kind ≠ not)
      (hchildren : ∀ a ∈ children, IsBuilt a) : IsBuilt (.node kind text span children)

variable {s : Symbol Construct} {t : Token} {n : Phrase} {kind : Construct} {text : String}
  {span : Option Span} {tree x y : Tree Construct} {children : List (Tree Construct)}
  {ts us : List Token}

/-! ## Completed nodes -/

theorem build_eq_ok (h : grammar.build s t children = .ok tree) :
    accept (.node s.kind t.text t.span children) = .ok () ∧
      tree = reduce (.node s.kind t.text t.span children) := by
  obtain ⟨_, haccept, h⟩ := bind_eq_ok.1 h
  cases h
  refine ⟨?_, rfl⟩
  cases hnode : accept (.node s.kind t.text t.span children) with
  | error reason =>
    have hrefused : grammar.accept (.node s.kind t.text t.span children) = .error reason.message := by
      show (accept _).mapError _ = _
      rw [hnode]
      rfl
    rw [hrefused] at haccept
    cases haccept
  | ok _ => rfl

theorem isPath_eq_false_of_withoutPaths (h : withoutPaths children = .ok ()) :
    ∀ a ∈ children, a.kind.isPath = false := by
  rw [withoutPaths] at h
  split at h
  · cases h
  · next hnone =>
    intro a ha
    simpa using List.find?_eq_none.1 hnone a ha

/-- A built tree that is no atom has the leaves of its operands. -/
theorem IsBuilt.leaves_eq (h : IsBuilt (.node kind text span children)) (hkind : kind ≠ atom) :
    (Tree.node kind text span children).leaves = Tree.leavesAll children := by
  refine Tree.leaves_of_ne_nil kind text span ?_
  rintro rfl
  cases h with
  | node _ _ _ hcount =>
    rcases kind with _ | _ | _ | (_ | _) | _ | ⟨_, (_ | _)⟩ | _ | _ <;>
      first
      | exact hkind rfl
      | cases hcount

theorem isBuilt_atom (h : grammar.build (.atom atom) t [] = .ok tree) :
    IsBuilt tree ∧ tree.leaves = [(t.text, t.span)] := by
  obtain ⟨-, rfl⟩ := build_eq_ok h
  show IsBuilt (.node atom t.text t.span []) ∧ (Tree.node atom t.text t.span []).leaves = _
  exact ⟨.node _ _ _ rfl (by simp) (by simp) (by simp), Tree.leaves.eq_1 ..⟩

theorem eq_of_build_opening (h : grammar.build (.group opening ")") t [x] = .ok tree) :
    tree = x :=
  (build_eq_ok h).2

/-- A node with one operand, which is not a path operator, is built and has the leaves of it. -/
theorem isBuilt_one (hcount : kind.operandCount = some 1) (hpath : x.kind.isPath = false)
    (hnot : kind = not → x.kind ≠ not) (hx : IsBuilt x) :
    IsBuilt (.node kind text span [x]) ∧ (Tree.node kind text span [x]).leaves = x.leaves := by
  have hbuilt : IsBuilt (.node kind text span [x]) := by
    refine .node _ _ _ hcount ?_ ?_ ?_ <;> simpa
  refine ⟨hbuilt, ?_⟩
  simp [Tree.leaves, Tree.leavesAll]

theorem isBuilt_two (hcount : kind.operandCount = some 2)
    (hpath : ∀ a ∈ [x, y], a.kind.isPath = false) (hx : IsBuilt x) (hy : IsBuilt y) :
    IsBuilt (.node kind text span [x, y]) ∧
      (Tree.node kind text span [x, y]).leaves = x.leaves ++ y.leaves := by
  have hnot : kind ≠ not := by
    rintro rfl
    cases hcount
  refine ⟨.node _ _ _ hcount hpath (fun h => absurd h hnot) (by simp [hx, hy]), ?_⟩
  simp [Tree.leaves, Tree.leavesAll]

/-- A quantifier and its path operator become one node, with the operands of the path operator. -/
theorem isBuilt_quantified {q : Quantifier} {o : PathOperator}
    (hx : IsBuilt (.node (path o) text span children)) (text' : String) (span' : Option Span) :
    IsBuilt (.node (quantified q o) text' span' children) ∧
      (Tree.node (quantified q o) text' span' children).leaves =
        (Tree.node (path o) text span children).leaves := by
  have hbuilt : IsBuilt (.node (quantified q o) text' span' children) := by
    cases hx with
    | node _ _ _ hcount hpath _ hchildren => exact .node _ _ _ hcount hpath nofun hchildren
  refine ⟨hbuilt, ?_⟩
  rw [hbuilt.leaves_eq nofun, hx.leaves_eq nofun]

/-- Of two negations the operand of the inner one is left. -/
theorem isBuilt_not (hpath : x.kind.isPath = false) (hx : IsBuilt x) :
    IsBuilt (reduce (.node not text span [x])) ∧
      (reduce (.node not text span [x])).leaves = x.leaves := by
  obtain ⟨kind, text', span', children⟩ := x
  by_cases hkind : kind = not
  · subst hkind
    cases hx with
    | node _ _ _ hcount _ _ hchildren =>
      obtain ⟨y, rfl⟩ := List.length_eq_one_iff.1 (Option.some.inj hcount).symm
      refine ⟨hchildren y List.mem_cons_self, ?_⟩
      simp [reduce, Tree.leaves, Tree.leavesAll]
  · have hsame : reduce (.node not text span [.node kind text' span' children]) =
        .node not text span [.node kind text' span' children] := by
      cases kind with
      | not => exact absurd rfl hkind
      | _ => rfl
    rw [hsame]
    exact isBuilt_one rfl hpath (fun _ => hkind) hx

theorem isBuilt_applied (hkind : kind.isApplied = true) (hx : IsBuilt x)
    (h : grammar.build (.prefixOp kind) t [x] = .ok tree) :
    IsBuilt tree ∧ tree.leaves = x.leaves := by
  obtain ⟨haccept, rfl⟩ := build_eq_ok h
  rcases kind with _ | _ | _ | (o | _) | q | _ | _ | _
  case not =>
    exact isBuilt_not (isPath_eq_false_of_withoutPaths haccept x List.mem_cons_self) hx
  case path.unary =>
    exact isBuilt_one rfl (isPath_eq_false_of_withoutPaths haccept x List.mem_cons_self) nofun hx
  case quantifier =>
    obtain ⟨kind, text, span, children⟩ := x
    cases kind with
    | path o => exact isBuilt_quantified hx _ _
    | _ => cases haccept
  all_goals cases hkind

theorem isBuilt_joining {o : Strength} (hkind : kind.strength? = some o) (hx : IsBuilt x)
    (hy : IsBuilt y) (h : grammar.build (o.symbol kind) t [x, y] = .ok tree) :
    IsBuilt tree ∧ tree.leaves = x.leaves ++ y.leaves := by
  obtain ⟨haccept, rfl⟩ := build_eq_ok h
  rcases kind with _ | _ | _ | (_ | o) | _ | _ | _ | _
  case connect =>
    exact isBuilt_two rfl (isPath_eq_false_of_withoutPaths haccept) hx hy
  case path.binary =>
    exact isBuilt_two rfl (isPath_eq_false_of_withoutPaths haccept) hx hy
  all_goals cases hkind

/-! ## Trees of derivations -/

theorem build_of_node (hs : symbol t = .ok s) (h : grammar.node t children = .ok tree) :
    grammar.build s t children = .ok tree :=
  (node_eq_ok_iff (g := grammar) hs).1 h

theorem atomsOf_append (ts us : List Token) : atomsOf (ts ++ us) = atomsOf ts ++ atomsOf us := by
  simp [atomsOf]

theorem atomsOf_atom (ht : t.kind = .atom) (ts : List Token) :
    atomsOf (t :: ts) = (t.text, t.span) :: atomsOf ts := by
  simp [atomsOf, Token.isAtom, ht]

theorem atomsOf_operator {texts : List String} (ht : t.IsOperatorIn texts) (ts : List Token) :
    atomsOf (t :: ts) = atomsOf ts := by
  simp [atomsOf, Token.isAtom, ht.1]

/-- **A derivation's tree has the atoms of its tokens for leaves**, and it is a tree that the parser
    builds. -/
theorem Derivation.isBuilt (d : Derivation n) (hd : d.evaluate grammar = .ok tree) :
    IsBuilt tree ∧ tree.leaves = atomsOf d.yield := by
  induction d generalizing tree with
  | atom t ht =>
    rw [yield, atomsOf_atom ht]
    exact isBuilt_atom (build_of_node (symbol_atom ht) hd)
  | group t ht d u hu ih =>
    obtain ⟨x, hx, hnode⟩ := bind_eq_ok.1 hd
    obtain rfl := eq_of_build_opening (build_of_node (symbol_opening ht) hnode)
    rw [yield, atomsOf_operator ht, atomsOf_append, atomsOf_operator hu]
    simpa [atomsOf] using ih hx
  | applied t ht d ih =>
    obtain ⟨x, hx, hnode⟩ := bind_eq_ok.1 hd
    obtain ⟨kind, hkind, hs⟩ := symbol_applied ht
    obtain ⟨hbuilt, hleaves⟩ := ih hx
    rw [yield, atomsOf_operator ht, ← hleaves]
    exact isBuilt_applied hkind hbuilt (build_of_node hs hnode)
  | lift o d ih => exact ih hd
  | join o a t ht b iha ihb =>
    obtain ⟨x, hx, hrest⟩ := bind_eq_ok.1 hd
    obtain ⟨y, hy, hnode⟩ := bind_eq_ok.1 hrest
    obtain ⟨kind, hkind, hs⟩ := symbol_joining ht
    obtain ⟨hbuiltx, hleavesx⟩ := iha hx
    obtain ⟨hbuilty, hleavesy⟩ := ihb hy
    rw [yield, atomsOf_append, atomsOf_operator ht, ← hleavesx, ← hleavesy]
    exact isBuilt_joining hkind hbuiltx hbuilty (build_of_node hs hnode)

/-! ## Parentheses -/

/-- An opening parenthesis is a step up, and a closing one is a step down. -/
def parenthesis? (t : Token) : Option DyckStep :=
  match t.kind, t.text with
  | .operator, "(" => some .U
  | .operator, ")" => some .D
  | _, _ => none

/-- The steps of the parentheses among the tokens. -/
def parentheses (ts : List Token) : List DyckStep := ts.filterMap parenthesis?

/-- The parentheses among the tokens are balanced. -/
def IsBalanced (ts : List Token) : Prop := ∃ w : DyckWord, w.toList = parentheses ts

/-- The groups of a derivation. -/
def Derivation.groups : {n : Phrase} → Derivation n → DyckWord
  | _, atom _ _ => 0
  | _, group _ _ d _ _ => d.groups.nest
  | _, applied _ _ d => d.groups
  | _, lift _ d => d.groups
  | _, join _ a _ _ b => a.groups + b.groups

theorem parentheses_append (ts us : List Token) :
    parentheses (ts ++ us) = parentheses ts ++ parentheses us :=
  List.filterMap_append

theorem parentheses_cons_of_none (h : parenthesis? t = none) (ts : List Token) :
    parentheses (t :: ts) = parentheses ts :=
  List.filterMap_cons_none h

theorem parenthesis?_atom (ht : t.kind = .atom) : parenthesis? t = none := by
  rw [parenthesis?, ht]

theorem parenthesis?_opening (ht : t.IsOperatorIn ["("]) : parenthesis? t = some .U := by
  rw [parenthesis?, ht.1, List.mem_singleton.1 ht.2]
  rfl

theorem parenthesis?_closing (ht : t.IsOperatorIn [")"]) : parenthesis? t = some .D := by
  rw [parenthesis?, ht.1, List.mem_singleton.1 ht.2]
  rfl

theorem parenthesis?_operator {texts : List String} (ht : t.IsOperatorIn texts)
    (hopening : "(" ∉ texts) (hclosing : ")" ∉ texts) : parenthesis? t = none := by
  have hne : ∀ text ∉ texts, t.text ≠ text := by
    rintro text htext rfl
    exact htext ht.2
  have h1 := hne "(" hopening
  have h2 := hne ")" hclosing
  rw [parenthesis?, ht.1]
  split <;> simp_all

/-- The parentheses of a derivation are those of its groups. -/
theorem Derivation.toList_groups (d : Derivation n) : d.groups.toList = parentheses d.yield := by
  induction d with
  | atom t ht => rw [yield, parentheses_cons_of_none (parenthesis?_atom ht)]; rfl
  | group t ht d u hu ih =>
    have hopening := parenthesis?_opening ht
    have hclosing := parenthesis?_closing hu
    rw [yield, parentheses, List.filterMap_cons_some hopening, List.filterMap_append,
      List.filterMap_cons_some hclosing]
    simp [groups, DyckWord.nest, ih, parentheses]
  | applied t ht d ih =>
    rw [yield, parentheses_cons_of_none (parenthesis?_operator ht (by decide) (by decide))]
    exact ih
  | lift o d ih => exact ih
  | join o a t ht b iha ihb =>
    have hopening : "(" ∉ o.spellings := by cases o <;> decide
    have hclosing : ")" ∉ o.spellings := by cases o <;> decide
    rw [yield, parentheses_append,
      parentheses_cons_of_none (parenthesis?_operator ht hopening hclosing), ← iha, ← ihb]
    rfl

theorem Derivation.isBalanced (d : Derivation n) : IsBalanced d.yield :=
  ⟨d.groups, d.toList_groups⟩

/-! ## Atoms taken for parentheses -/

theorem TakenFor.eq_or_closing {u : Token} (h : TakenFor t u) :
    u = t ∨ t.kind = .atom ∧ u.IsOperatorIn [")"] := by
  obtain ⟨kind, text, span⟩ := t
  rcases h with h | ⟨htext, rfl⟩
  · exact Or.inl h
  · cases kind with
    | atom => exact Or.inr ⟨rfl, rfl, List.mem_singleton.2 htext⟩
    | operator => exact Or.inl rfl

theorem atomsOf_sublist_of_takenFor (h : List.Forall₂ TakenFor ts us) :
    (atomsOf us).Sublist (atomsOf ts) := by
  induction h with
  | nil => exact .slnil
  | @cons t u ts us htaken h ih =>
    rw [← List.singleton_append, ← List.singleton_append (l := ts), atomsOf_append, atomsOf_append]
    rcases htaken.eq_or_closing with rfl | ⟨-, hu⟩
    · exact ih.append_left _
    · rw [atomsOf_operator hu]
      exact ih.trans (List.sublist_append_right _ _)

/-- If `k` atoms are taken for closing parentheses, there are `k` more of these, and `k` atoms
    less. -/
theorem exists_count_of_takenFor (h : List.Forall₂ TakenFor ts us) :
    ∃ k, (atomsOf ts).length = (atomsOf us).length + k ∧
      (parentheses us).count .D = (parentheses ts).count .D + k ∧
      (parentheses us).count .U = (parentheses ts).count .U ∧ (k = 0 → us = ts) := by
  have hatoms : ∀ (t : Token) (ts : List Token),
      (atomsOf (t :: ts)).length = (atomsOf [t]).length + (atomsOf ts).length := by
    intro t ts
    rw [← List.length_append, ← atomsOf_append, List.singleton_append]
  have hsteps : ∀ (step : DyckStep) (t : Token) (ts : List Token),
      (parentheses (t :: ts)).count step =
        (parentheses [t]).count step + (parentheses ts).count step := by
    intro step t ts
    rw [← List.count_append, ← parentheses_append, List.singleton_append]
  induction h with
  | nil => exact ⟨0, rfl, rfl, rfl, fun _ => rfl⟩
  | @cons t u ts us htaken h ih =>
    obtain ⟨k, hlength, hclosing, hopening, heq⟩ := ih
    rw [hatoms t, hatoms u, hsteps .D t, hsteps .D u, hsteps .U t, hsteps .U u]
    rcases htaken.eq_or_closing with rfl | ⟨ht, hu⟩
    · refine ⟨k, ?_, ?_, ?_, fun hk => by rw [heq hk]⟩ <;> omega
    · have hleft : parentheses [t] = [] := by
        rw [parentheses_cons_of_none (parenthesis?_atom ht)]
        rfl
      have hright : parentheses [u] = [.D] := by
        rw [parentheses, List.filterMap_cons_some (parenthesis?_closing hu)]
        rfl
      rw [atomsOf_atom ht, atomsOf_operator hu, hleft, hright]
      refine ⟨k + 1, ?_, ?_, ?_, nofun⟩
      · simp only [List.length_cons]
        omega
      · simp only [List.count_singleton_self, List.count_nil]
        omega
      · simpa using hopening

theorem IsBalanced.count_eq (h : IsBalanced ts) :
    (parentheses ts).count .U = (parentheses ts).count .D := by
  obtain ⟨w, hw⟩ := h
  rw [← hw]
  exact w.count_U_eq_count_D

/-- A parse tree is built, and its leaves are among the atoms of its tokens. -/
theorem isBuilt_of_treeOfTokens (h : Formula.treeOfTokens ts = .ok tree) :
    IsBuilt tree ∧ tree.leaves.Sublist (atomsOf ts) := by
  obtain ⟨d, hd, htree⟩ := derives_of_parse rfl h
  obtain ⟨hbuilt, hleaves⟩ := d.isBuilt htree
  exact ⟨hbuilt, hleaves ▸ atomsOf_sublist_of_takenFor hd⟩

/-- **The leaves of a parse tree are the atoms of its tokens, in order, and the parentheses are
    balanced**, if the tokens are taken as the parser takes them: where a group has to end it takes
    an atom with the text of a closing parenthesis for the parenthesis. Where it does so neither
    half holds of the tokens as they are, so one half holds of them exactly if the other does. -/
theorem leaves_of_treeOfTokens (h : Formula.treeOfTokens ts = .ok tree) :
    (∃ us, List.Forall₂ TakenFor ts us ∧ Formula.treeOfTokens us = .ok tree ∧
      tree.leaves = atomsOf us ∧ IsBalanced us ∧
      (tree.leaves = atomsOf ts ↔ us = ts) ∧ (IsBalanced ts ↔ us = ts)) ∧
    ((∀ t ∈ ts, t.kind = .atom → t.text ≠ ")") → tree.leaves = atomsOf ts ∧ IsBalanced ts) := by
  obtain ⟨d, hd, htree⟩ := derives_of_parse rfl h
  obtain ⟨-, hleaves⟩ := d.isBuilt htree
  have hbalanced := d.isBalanced
  refine ⟨⟨d.yield, hd, d.parse rfl htree (Grammar.parse_eq_ok_iff.1 h).2, hleaves, hbalanced,
    ?_, ?_⟩, ?_⟩
  · obtain ⟨k, hlength, -, -, heq⟩ := exists_count_of_takenFor hd
    refine ⟨fun hsame => heq ?_, fun hsame => hsame ▸ hleaves⟩
    rw [← hleaves, hsame] at hlength
    omega
  · obtain ⟨k, -, hclosing, hopening, heq⟩ := exists_count_of_takenFor hd
    refine ⟨fun hsame => heq ?_, fun hsame => hsame ▸ hbalanced⟩
    have h1 := hbalanced.count_eq
    have h2 := hsame.count_eq
    omega
  · intro hts
    rw [← eq_of_takenFor hd hts]
    exact ⟨hleaves, hbalanced⟩

/-- The tokens of `!(! E(p U '('))`, less the ranges: one of the two negations takes away the
    other, and the atom in quotation marks is no parenthesis. -/
def negations : List Token :=
  [.operator "!", .operator "(", .operator "!", .operator "E", .operator "(", .atom "p",
    .operator "U", .atom "(", .operator ")", .operator ")"]

theorem leaves_of_treeOfTokens_negations :
    Formula.treeOfTokens negations =
      .ok (.node (.quantified .some (.binary .strongUntil)) "EU" none
        [.node .atom "p" none [], .node .atom "(" none []]) ∧
    [("p", none), ("(", none)] = atomsOf negations ∧ IsBalanced negations := by
  have hparse : Formula.treeOfTokens negations =
      .ok (.node (.quantified .some (.binary .strongUntil)) "EU" none
        [.node .atom "p" none [], .node .atom "(" none []]) := by cbv
  exact ⟨hparse, (leaves_of_treeOfTokens hparse).2 (by decide)⟩

/-- The tokens of `(a ')'`: the atom in quotation marks closes the group. They are accepted, though
    the atom is no leaf and the parenthesis has no partner. -/
theorem not_leaves_of_treeOfTokens :
    Formula.treeOfTokens [.operator "(", .atom "a", .atom ")"] = .ok (.node .atom "a" none []) ∧
    (Tree.node atom "a" none []).leaves = [("a", none)] ∧
    atomsOf [.operator "(", .atom "a", .atom ")"] = [("a", none), (")", none)] ∧
    ¬ IsBalanced [.operator "(", .atom "a", .atom ")"] := by
  refine ⟨by cbv, rfl, rfl, ?_⟩
  intro h
  exact absurd h.count_eq (by decide)

end Construct

end BranchingTime
