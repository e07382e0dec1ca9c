import BranchingTime.Proofs.Acceptance

set_option autoImplicit false

/-! # Formula text is unambiguous

A token list has no two derivations. Without the grammar's demands on nodes, the parser makes of the
tokens a tree that has a node for every rule but those that only pass a phrase on, and such a tree
tells its derivation, once the tokens are given. The parser makes one tree only. -/

namespace BranchingTime

namespace Construct

/-- The phrase that a node is, by its kind. -/
def phrase (kind : Construct) : Phrase :=
  match kind.strength? with
  | some o => .joined o
  | none => .operand

/-- The grammar of formula text without its demands on nodes. -/
def plainGrammar : Grammar Construct := grammar.withoutHooks

variable {n : Phrase} {o : Strength} {s : Symbol Construct} {t u : Token}
  {rest rest' : List Token} {tree : Tree Construct} {children : List (Tree Construct)}

/-! ## What a tree tells -/

theorem node_plainGrammar (hs : symbol t = .ok s) (h : plainGrammar.node t children = .ok tree) :
    tree = .node s.kind t.text t.span children := by
  obtain ⟨s', hs', hbuild⟩ := bind_eq_ok.1 h
  cases hs.symm.trans hs'
  cases hbuild
  rfl

theorem phrase_of_join (ht : t.IsOperatorIn o.spellings)
    (h : plainGrammar.node t children = .ok tree) : tree.kind.phrase = .joined o := by
  obtain ⟨kind, hkind, hs⟩ := symbol_joining ht
  rw [node_plainGrammar hs h]
  show kind.phrase = _
  rw [phrase, hkind]

/-- The root of a phrase's tree is of a kind that the phrase may have. -/
theorem Derivation.le_phrase (d : Derivation n) (hd : d.evaluate plainGrammar = .ok tree) :
    n ≤ tree.kind.phrase := by
  induction d with
  | atom t ht =>
    rw [node_plainGrammar (symbol_atom ht) hd]
    exact le_rfl
  | group t ht d u hu ih =>
    obtain ⟨x, hx, hnode⟩ := bind_eq_ok.1 hd
    rw [node_plainGrammar (symbol_opening ht) hnode]
    exact le_rfl
  | applied t ht d ih =>
    obtain ⟨x, hx, hnode⟩ := bind_eq_ok.1 hd
    obtain ⟨kind, hkind, hs⟩ := symbol_applied ht
    rw [node_plainGrammar hs hnode]
    show _ ≤ kind.phrase
    rcases kind with _ | _ | _ | (_ | _) | _ | _ | _ | _ <;> first | exact le_rfl | cases hkind
  | lift o d ih =>
    have hle : .joined o ≤ o.tighter := by cases o <;> decide
    exact hle.trans (ih hd)
  | join o a t ht b iha ihb =>
    obtain ⟨x, hx, hrest⟩ := bind_eq_ok.1 hd
    obtain ⟨y, hy, hnode⟩ := bind_eq_ok.1 hrest
    exact (phrase_of_join ht hnode).ge

/-- A phrase without an operator does not have the tree of one with an operator. -/
theorem Derivation.lift_ne_join (d : Derivation o.tighter)
    (hd : d.evaluate plainGrammar = .ok tree) (ht : t.IsOperatorIn o.spellings)
    (h : plainGrammar.node t children = .ok tree) : False := by
  have hle := d.le_phrase hd
  rw [phrase_of_join ht h] at hle
  cases o <;> exact absurd hle (by decide)

theorem children_of_node (h : plainGrammar.node t children = .ok tree) :
    tree.children = children := by
  obtain ⟨s, hs, hbuild⟩ := bind_eq_ok.1 h
  cases hbuild
  rfl

/-- No token is an operator of two sorts. -/
theorem IsOperatorIn.elim {texts texts' : List String} (h : t.IsOperatorIn texts)
    (h' : t.IsOperatorIn texts') (hdisjoint : ∀ text ∈ texts, text ∉ texts') : False :=
  hdisjoint t.text h.2 h'.2

/-- The tree of a derivation, with the tokens, tells the derivation. -/
theorem Derivation.eq_of_tree (d d' : Derivation n) (hd : d.evaluate plainGrammar = .ok tree)
    (hd' : d'.evaluate plainGrammar = .ok tree) (h : d.yield ++ rest = d'.yield ++ rest') :
    d = d' ∧ rest = rest' := by
  -- the first token tells the rule of an operand, and the root of the tree that of a joined phrase
  induction d generalizing tree rest rest' with
  | atom t ht =>
    cases d' with
    | atom t' ht' =>
      cases h
      exact ⟨rfl, rfl⟩
    | group t' ht' d' u' hu' =>
      obtain rfl := (List.cons.inj h).1
      exact absurd (ht.symm.trans ht'.1) (by decide)
    | applied t' ht' d' =>
      obtain rfl := (List.cons.inj h).1
      exact absurd (ht.symm.trans ht'.1) (by decide)
  | group t ht d u hu ih =>
    cases d' with
    | atom t' ht' =>
      obtain rfl := (List.cons.inj h).1
      exact absurd (ht'.symm.trans ht.1) (by decide)
    | group t' ht' d' u' hu' =>
      obtain ⟨x, hx, hnode⟩ := bind_eq_ok.1 hd
      obtain ⟨x', hx', hnode'⟩ := bind_eq_ok.1 hd'
      cases (children_of_node hnode).symm.trans (children_of_node hnode')
      simp only [yield, List.cons_append, List.append_assoc, List.cons.injEq] at h
      obtain ⟨rfl, h⟩ := h
      obtain ⟨rfl, hrest⟩ := ih d' hx hx' h
      cases hrest
      exact ⟨rfl, rfl⟩
    | applied t' ht' d' =>
      obtain rfl : t = t' := (List.cons.inj h).1
      exact (IsOperatorIn.elim ht ht' (by decide)).elim
  | applied t ht d ih =>
    cases d' with
    | atom t' ht' =>
      obtain rfl := (List.cons.inj h).1
      exact absurd (ht'.symm.trans ht.1) (by decide)
    | group t' ht' d' u' hu' =>
      obtain rfl : t = t' := (List.cons.inj h).1
      exact (IsOperatorIn.elim ht ht' (by decide)).elim
    | applied t' ht' d' =>
      obtain ⟨x, hx, hnode⟩ := bind_eq_ok.1 hd
      obtain ⟨x', hx', hnode'⟩ := bind_eq_ok.1 hd'
      cases (children_of_node hnode).symm.trans (children_of_node hnode')
      simp only [yield, List.cons_append, List.cons.injEq] at h
      obtain ⟨rfl, h⟩ := h
      obtain ⟨rfl, hrest⟩ := ih d' hx hx' h
      exact ⟨rfl, hrest⟩
  | lift o d ih =>
    cases d' with
    | lift _ d' =>
      obtain ⟨rfl, hrest⟩ := ih d' hd hd' h
      exact ⟨rfl, hrest⟩
    | join _ a' t' ht' b' =>
      obtain ⟨x, hx, hrest⟩ := bind_eq_ok.1 hd'
      obtain ⟨y, hy, hnode⟩ := bind_eq_ok.1 hrest
      exact (d.lift_ne_join hd ht' hnode).elim
  | join o a t ht b iha ihb =>
    obtain ⟨x, hx, hrest⟩ := bind_eq_ok.1 hd
    obtain ⟨y, hy, hnode⟩ := bind_eq_ok.1 hrest
    cases d' with
    | lift _ d' => exact (d'.lift_ne_join hd' ht hnode).elim
    | join _ a' t' ht' b' =>
      obtain ⟨x', hx', hrest'⟩ := bind_eq_ok.1 hd'
      obtain ⟨y', hy', hnode'⟩ := bind_eq_ok.1 hrest'
      cases (children_of_node hnode).symm.trans (children_of_node hnode')
      simp only [yield, List.append_assoc, List.cons_append] at h
      obtain ⟨rfl, hjoin⟩ := iha a' hx hx' h
      obtain ⟨rfl, hright⟩ := List.cons.inj hjoin
      obtain ⟨rfl, hrest⟩ := ihb b' hy hy' hright
      exact ⟨rfl, hrest⟩

/-! ## One derivation -/

/-- Without demands on nodes every derivation has a tree. -/
theorem Derivation.exists_tree (d : Derivation n) :
    ∃ tree, d.evaluate plainGrammar = .ok tree := by
  have hnode : ∀ {t : Token} {s : Symbol Construct} (children : List (Tree Construct)),
      symbol t = .ok s → ∃ tree, plainGrammar.node t children = .ok tree := by
    intro t s children hs
    exact ⟨_, bind_eq_ok.2 ⟨s, hs, rfl⟩⟩
  induction d with
  | atom t ht => exact hnode [] (symbol_atom ht)
  | group t ht d u hu ih =>
    obtain ⟨x, hx⟩ := ih
    obtain ⟨tree, htree⟩ := hnode [x] (symbol_opening ht)
    exact ⟨tree, bind_eq_ok.2 ⟨x, hx, htree⟩⟩
  | applied t ht d ih =>
    obtain ⟨x, hx⟩ := ih
    obtain ⟨kind, -, hs⟩ := symbol_applied ht
    obtain ⟨tree, htree⟩ := hnode [x] hs
    exact ⟨tree, bind_eq_ok.2 ⟨x, hx, htree⟩⟩
  | lift o d ih => exact ih
  | join o a t ht b iha ihb =>
    obtain ⟨x, hx⟩ := iha
    obtain ⟨y, hy⟩ := ihb
    obtain ⟨kind, -, hs⟩ := symbol_joining ht
    obtain ⟨tree, htree⟩ := hnode [x, y] hs
    exact ⟨tree, bind_eq_ok.2 ⟨x, hx, bind_eq_ok.2 ⟨y, hy, htree⟩⟩⟩

/-- A token list has no two derivations. -/
theorem Derivation.eq_of_yield (d d' : Derivation (.joined .path)) (h : d.yield = d'.yield) :
    d = d' := by
  obtain ⟨tree, htree⟩ := d.exists_tree
  obtain ⟨tree', htree'⟩ := d'.exists_tree
  have hparse : plainGrammar.parse d.yield = .ok tree := d.parse rfl htree rfl
  have hparse' : plainGrammar.parse d'.yield = .ok tree' := d'.parse rfl htree' rfl
  rw [← h] at hparse'
  cases hparse.symm.trans hparse'
  exact (d.eq_of_tree d' htree htree' (congrArg (· ++ []) h)).1

/-! ## The language of the parser -/

/-- A token is taken for another one only if it is an atom with the text of a closing
    parenthesis. -/
theorem TakenFor.eq (h : TakenFor t u) (ht : t.kind = .atom → t.text ≠ ")") : u = t := by
  obtain ⟨kind, text, span⟩ := t
  rcases h with rfl | ⟨htext, rfl⟩
  · rfl
  · cases kind with
    | atom => exact absurd htext (ht rfl)
    | operator => rfl

theorem eq_of_takenFor {ts us : List Token} (h : List.Forall₂ TakenFor ts us)
    (hts : ∀ t ∈ ts, t.kind = .atom → t.text ≠ ")") : us = ts := by
  induction h with
  | nil => rfl
  | cons ht h ih =>
    rw [List.forall_mem_cons] at hts
    obtain ⟨hhead, htail⟩ := hts
    rw [ih htail, ht.eq hhead]

/-- **The parser accepts exactly the texts of its grammar, and builds the tree of their only
    derivation**, of all token lists in which no atom has the text of a closing parenthesis. -/
theorem treeOfTokens_iff_derivation {ts : List Token}
    (hts : ∀ t ∈ ts, t.kind = .atom → t.text ≠ ")") :
    (∀ tree, Formula.treeOfTokens ts = .ok tree ↔
      ∃ d : Derivation (.joined .path), d.yield = ts ∧ d.evaluate grammar = .ok tree ∧
        grammar.acceptRoot tree = .ok ()) ∧
    ∀ d d' : Derivation (.joined .path), d.yield = ts → d'.yield = ts → d = d' := by
  refine ⟨?_, ?_⟩
  · intro tree
    constructor
    · intro h
      obtain ⟨d, hd, htree⟩ := derives_of_parse rfl h
      exact ⟨d, eq_of_takenFor hd hts, htree, (Grammar.parse_eq_ok_iff.1 h).2⟩
    · rintro ⟨d, rfl, htree, hroot⟩
      exact d.parse rfl htree hroot
  · rintro d d' hd hd'
    exact d.eq_of_yield d' (hd.trans hd'.symm)

/-- The tokens of `E(a -> b U !"(")`. The atom is no parenthesis. -/
def nested : List Token :=
  [.operator "E", .operator "(", .atom "a", .operator "->", .atom "b", .operator "U",
    .operator "!", .atom "(", .operator ")"]

/-- The derivation of the tokens. -/
def nestedDerivation : Derivation (.joined .path) :=
  let a : Derivation (.joined .junction) := .lift .junction (.atom (.atom "a") rfl)
  let b : Derivation (.joined .implication) :=
    .lift .implication (.lift .junction (.atom (.atom "b") rfl))
  let implies : Derivation (.joined .implication) :=
    .join .implication a (.operator "->") ⟨rfl, by decide⟩ b
  let negation : Derivation (.joined .path) := .lift .path <| .lift .implication <|
    .lift .junction <| .applied (.operator "!") ⟨rfl, by decide⟩ (.atom (.atom "(") rfl)
  .lift .path <| .lift .implication <| .lift .junction <|
    .applied (.operator "E") ⟨rfl, by decide⟩ <|
      .group (.operator "(") ⟨rfl, by decide⟩
        (.join .path implies (.operator "U") ⟨rfl, by decide⟩ negation)
        (.operator ")") ⟨rfl, by decide⟩

theorem treeOfTokens_iff_derivation_nested :
    (∀ t ∈ nested, t.kind = .atom → t.text ≠ ")") ∧
    Formula.treeOfTokens nested =
      .ok (.node (.quantified .some (.binary .strongUntil)) "EU" none
        [.node (.connect .implies) "->" none [.node .atom "a" none [], .node .atom "b" none []],
          .node .not "!" none [.node .atom "(" none []]]) ∧
    ∀ d : Derivation (.joined .path), d.yield = nested → d = nestedDerivation := by
  have hatoms : ∀ t ∈ nested, t.kind = .atom → t.text ≠ ")" := by decide
  obtain ⟨htree, hunique⟩ := treeOfTokens_iff_derivation hatoms
  exact ⟨hatoms, (htree _).2 ⟨nestedDerivation, rfl, rfl, rfl⟩, fun d hd => hunique d _ hd rfl⟩

end Construct

end BranchingTime
