import BranchingTime.Proofs.Contracts
import BranchingTime.Proofs.Turns
import Mathlib.Data.Fin.Tuple.Basic

set_option autoImplicit false

/-! # What the tokens of a tree are used for

Under a table of symbols an `Analysis` says for each token what it is used for: to be an operand, to
be applied to operands behind it, before it or on both sides, or to end a group. It has a tree, with
one node for each token but those that end groups, and the tokens are those of the tree from left to
right. Powers play no part in it, so it can be given for every table, whatever its flags.

What the parser takes off the front of a token list has an analysis with the tree that is built
(`Grammar.analysisContract`), and of a whole input that is all of the tokens. So none is lost, used
twice or moved. -/

namespace BranchingTime

/-! ## Symbols of tokens before an operand -/

namespace Symbol

variable {κ : Type} {s : Symbol κ} {closer : String} {count : Nat}

/-- The token neither ends a group nor follows its operand. -/
structure MayLead (s : Symbol κ) : Prop where
  closing : s.closing = false
  postfixed : s.postfixed = false

/-- The token is applied to one operand behind it. -/
def TakesOne (s : Symbol κ) : Prop :=
  s.arity = 1 ∧ s.closer = none ∨ 2 ≤ s.arity ∧ s.unary = true

/-- The token is applied to as many operands behind it as its arity says. -/
structure TakesMany (s : Symbol κ) : Prop where
  arity : 2 ≤ s.arity
  unary : s.unary = false
  prefixed : s.prefixed = true

theorem leading_eq_refused (h : s.closing = true ∨ s.postfixed = true) : s.leading = .refused := by
  unfold leading
  rw [if_pos (Bool.or_eq_true_iff.2 h)]

theorem mayLead_of_leading (h : s.leading ≠ .refused) : s.MayLead := by
  constructor
  · cases hclosing : s.closing with
    | false => rfl
    | true => exact absurd (leading_eq_refused (Or.inl hclosing)) h
  · cases hpostfixed : s.postfixed with
    | false => rfl
    | true => exact absurd (leading_eq_refused (Or.inr hpostfixed)) h

theorem arity_of_leading_leaf (h : s.leading = .leaf) : s.arity = 0 := by
  unfold leading at h
  grind

theorem arity_of_leading_group (h : s.leading = .group closer) :
    s.arity = 1 ∧ s.closer = some closer := by
  unfold leading at h
  grind

theorem takesOne_of_leading (h : s.leading = .single) : s.TakesOne := by
  unfold leading at h
  grind [TakesOne]

theorem takesMany_of_leading (h : s.leading = .many count) : s.arity = count ∧ s.TakesMany := by
  unfold leading at h
  grind [TakesMany]

end Symbol

/-! ## Analyses -/

/-- A token, and the symbol that the table gives to it. -/
structure Resolved {κ : Type} (table : Token → Except Error (Symbol κ)) where
  token : Token
  symbol : Symbol κ
  lookup : table token = .ok symbol

/-- The node of the token with its operands. -/
def Resolved.node {κ : Type} {table : Token → Except Error (Symbol κ)} (r : Resolved table)
    (children : List (Tree κ)) : Tree κ :=
  .node r.symbol.kind r.token.text r.token.span children

/-- What the tokens are used for. -/
inductive Analysis {κ : Type} (table : Token → Except Error (Symbol κ)) where
  /-- The token is the operand. -/
  | leaf (r : Resolved table) (hlead : r.symbol.MayLead) (harity : r.symbol.arity = 0)
  /-- The token begins a group, and `u` ends it. -/
  | group (r : Resolved table) (hlead : r.symbol.MayLead) (harity : r.symbol.arity = 1)
      (content : Analysis table) (u : Token) (hcloser : r.symbol.closer = some u.text)
  /-- The token is applied to one operand behind it. -/
  | single (r : Resolved table) (hlead : r.symbol.MayLead) (hone : r.symbol.TakesOne)
      (operand : Analysis table)
  /-- The token is applied to several operands behind it. -/
  | many (r : Resolved table) (hlead : r.symbol.MayLead) (hmany : r.symbol.TakesMany)
      (operands : Fin r.symbol.arity → Analysis table)
  /-- The token is applied to the operands on its sides. -/
  | joined (left : Analysis table) (r : Resolved table) (harity : r.symbol.arity = 2)
      (right : Analysis table)
  /-- The token is applied to the operand before it. -/
  | trailing (operand : Analysis table) (r : Resolved table) (harity : r.symbol.arity = 1)
      (hpostfixed : r.symbol.postfixed = true)

namespace Analysis

variable {κ : Type} {table : Token → Except Error (Symbol κ)}

/-- The tokens, from left to right. -/
def tokens : Analysis table → List Token
  | leaf r _ _ => [r.token]
  | group r _ _ content u _ => r.token :: (content.tokens ++ [u])
  | single r _ _ operand => r.token :: operand.tokens
  | many r _ _ operands => r.token :: (List.ofFn fun i => (operands i).tokens).flatten
  | joined left r _ right => left.tokens ++ r.token :: right.tokens
  | trailing operand r _ _ => operand.tokens ++ [r.token]

/-- The tree that the tokens stand for. -/
def tree : Analysis table → Tree κ
  | leaf r _ _ => r.node []
  | group r _ _ content _ _ => r.node [content.tree]
  | single r _ _ operand => r.node [operand.tree]
  | many r _ _ operands => r.node (List.ofFn fun i => (operands i).tree)
  | joined left r _ right => r.node [left.tree, right.tree]
  | trailing operand r _ _ => r.node [operand.tree]

end Analysis

/-! ## What the parser takes off the front -/

namespace Grammar

variable {κ : Type} {g : Grammar κ} {ts us rest : List Token} {tree : Tree κ}
  {trees : List (Tree κ)} {right : UInt32} {count : Nat}

/-- The tokens before `rest` have an analysis with the tree. -/
def Analysed (g : Grammar κ) (ts : List Token) (tree : Tree κ) (rest : List Token) : Prop :=
  ∃ a : Analysis g.symbol, a.tree = tree ∧ ts = a.tokens ++ rest

/-- The tokens before `rest` have analyses with the trees, one behind the other. -/
def AnalysedAll (g : Grammar κ) (count : Nat) (ts : List Token) (trees : List (Tree κ))
    (rest : List Token) : Prop :=
  ∃ as : Fin count → Analysis g.symbol, (List.ofFn fun i => (as i).tree) = trees ∧
    ts = (List.ofFn fun i => (as i).tokens).flatten ++ rest

theorem Gives.operands (h : Gives (g.operands count ts) trees rest) :
    (count = 0 ∧ trees = [] ∧ ts = rest) ∨
      ∃ n first us others, count = n + 1 ∧ trees = first :: others ∧
        Gives (g.expression highestPower ts) first us ∧ Gives (g.operands n us) others rest := by
  obtain ⟨hlt, h⟩ := h
  cases count with
  | zero =>
    rw [Grammar.operands] at h
    cases h
    exact Or.inl ⟨rfl, rfl, rfl⟩
  | succ n =>
    rw [Grammar.operands] at h
    obtain ⟨first, hfirst, h⟩ := bind_eq_ok.1 h
    obtain ⟨others, hothers, h⟩ := bind_eq_ok.1 h
    cases h
    exact Or.inr ⟨n, _, _, _, rfl, rfl, gives_of_eq hfirst, gives_of_eq hothers⟩

/-- Postfix operators are applied to what has been read before them. -/
theorem analysed_of_postfixes (a : Analysis g.symbol)
    (h : Gives (g.withoutHooks.postfixes a.tree ts) tree rest) :
    g.Analysed (a.tokens ++ ts) tree rest := by
  induction ts generalizing a with
  | nil =>
    cases h.postfixTurn with
    | stop => exact ⟨a, rfl, rfl⟩
  | cons t ts ih =>
    cases h.postfixTurn with
    | stop => exact ⟨a, rfl, rfl⟩
    | @apply s _ _ _ _ _ hs htrailing hnode hpostfixes =>
      obtain ⟨harity, hpostfixed⟩ := Bool.and_eq_true_iff.1 htrailing
      cases hnode
      have hrest := ih (.trailing a ⟨t, s, hs⟩ (eq_of_beq harity) hpostfixed) hpostfixes
      rwa [Analysis.tokens, List.append_assoc] at hrest

/-- What the parser reads has an analysis. -/
def analysisContract (g : Grammar κ) : Contract where
  primary ts := ∀ ⦃tree rest⦄, Gives (g.withoutHooks.primary ts) tree rest → g.Analysed ts tree rest
  expression ts := ∀ ⦃right tree rest⦄, Gives (g.withoutHooks.expression right ts) tree rest →
    g.Analysed ts tree rest
  infixes ts := ∀ ⦃right tree rest⦄ (a : Analysis g.symbol),
    Gives (g.withoutHooks.infixes right a.tree ts) tree rest → g.Analysed (a.tokens ++ ts) tree rest
  operands ts := ∀ ⦃count trees rest⦄, Gives (g.withoutHooks.operands count ts) trees rest →
    g.AnalysedAll count ts trees rest

theorem analysed_of_primary (hk : g.analysisContract.HoldsBelow ts)
    (h : Gives (g.withoutHooks.primary ts) tree rest) : g.Analysed ts tree rest := by
  cases h.primaryTurn with
  | @leaf s t _ _ _ _ hs hleading hnode hpostfixes =>
    have hlead : s.MayLead := Symbol.mayLead_of_leading (by simp [hleading])
    cases hnode
    exact analysed_of_postfixes (.leaf ⟨t, s, hs⟩ hlead (Symbol.arity_of_leading_leaf hleading))
      hpostfixes
  | @group s t u ts us _ _ _ _ hs hleading hcontent hclosing hnode hpostfixes =>
    have hlead : s.MayLead := Symbol.mayLead_of_leading (by simp [hleading])
    obtain ⟨harity, hcloser⟩ := Symbol.arity_of_leading_group hleading
    obtain ⟨a, rfl, rfl⟩ := hk.tail.expression hcontent
    cases hnode
    have hrest := analysed_of_postfixes (g := g) (.group ⟨t, s, hs⟩ hlead harity a u hcloser)
      hpostfixes
    simpa [Analysis.tokens] using hrest
  | @single s t _ _ _ _ hs hleading hoperand hnode =>
    have hlead : s.MayLead := Symbol.mayLead_of_leading (by simp [hleading])
    obtain ⟨a, rfl, rfl⟩ := hk.tail.primary hoperand
    cases hnode
    exact ⟨.single ⟨t, s, hs⟩ hlead (Symbol.takesOne_of_leading hleading) a, rfl, rfl⟩
  | @many s t _ _ _ _ _ hs hleading hoperands hnode =>
    have hlead : s.MayLead := Symbol.mayLead_of_leading (by simp [hleading])
    obtain ⟨rfl, hmany⟩ := Symbol.takesMany_of_leading hleading
    obtain ⟨as, rfl, rfl⟩ := hk.tail.operands hoperands
    cases hnode
    exact ⟨.many ⟨t, s, hs⟩ hlead hmany as, rfl, rfl⟩

theorem analysed_of_expression (hk : g.analysisContract.HoldsBelow ts)
    (hprimary : g.analysisContract.primary ts)
    (h : Gives (g.withoutHooks.expression right ts) tree rest) : g.Analysed ts tree rest := by
  obtain ⟨left, us, hleft, hinfixes⟩ := h.expression
  obtain ⟨a, rfl, hus⟩ := hprimary hleft
  obtain ⟨hlt, -⟩ := hleft
  rw [hus]
  exact (hk hlt).infixes a hinfixes

theorem analysed_of_infixes (hk : g.analysisContract.HoldsBelow ts) (a : Analysis g.symbol)
    (h : Gives (g.withoutHooks.infixes right a.tree ts) tree rest) :
    g.Analysed (a.tokens ++ ts) tree rest := by
  cases h.infixTurn with
  | stop => exact ⟨a, rfl, rfl⟩
  | @apply s t _ us _ _ _ _ hs hbinds harity hoperand hnode hinfixes =>
    obtain ⟨b, rfl, rfl⟩ := hk.tail.expression hoperand
    cases hnode
    have hshorter : us.length < (t :: (b.tokens ++ us)).length := by
      rw [List.length_cons, List.length_append]
      omega
    have hrest := (hk hshorter).infixes (.joined a ⟨t, s, hs⟩ harity b) hinfixes
    simpa [Analysis.tokens] using hrest

theorem analysed_of_operands (hk : g.analysisContract.HoldsBelow ts)
    (hexpression : g.analysisContract.expression ts)
    (h : Gives (g.withoutHooks.operands count ts) trees rest) :
    g.AnalysedAll count ts trees rest := by
  rcases h.operands with ⟨rfl, rfl, rfl⟩ | ⟨n, first, us, others, rfl, rfl, hfirst, hothers⟩
  · exact ⟨Fin.elim0, rfl, rfl⟩
  · obtain ⟨a, rfl, hus⟩ := hexpression hfirst
    obtain ⟨hlt, -⟩ := hfirst
    obtain ⟨as, rfl, rfl⟩ := (hk hlt).operands hothers
    refine ⟨Fin.cons a as, ?_, ?_⟩
    · simp [List.ofFn_succ]
    · simp [List.ofFn_succ, hus]

theorem isInductive_analysisContract (g : Grammar κ) : g.analysisContract.IsInductive where
  primary hk _ _ h := analysed_of_primary hk h
  expression hk hprimary _ _ _ h := analysed_of_expression hk hprimary h
  infixes hk _ _ _ a h := analysed_of_infixes hk a h
  operands hk hexpression _ _ _ h := analysed_of_operands hk hexpression h

/-! ## Where an operand has to begin -/

theorem primary_of_refused {s : Symbol κ} {t : Token} (hs : g.symbol t = .ok s)
    (h : s.closing = true ∨ s.postfixed = true) (ts : List Token) :
    g.primary (t :: ts) = .error (.malformed (.notAValue t.text)) := by
  rw [primary]
  exact bind_eq_error.2 (Or.inr ⟨s, hs, by rw [Symbol.leading_eq_refused h]⟩)

/-- **The tree of a whole input accounts for all of its tokens, in order and each once**, whatever
    the table of symbols. Where an operand has to begin, a token that ends groups or follows its
    operand is refused. -/
theorem exists_analysis_of_parse (g : Grammar κ) :
    (∀ ts tree, g.withoutHooks.parse ts = .ok tree →
      ∃ a : Analysis g.symbol, a.tokens = ts ∧ a.tree = tree) ∧
    ∀ t s, g.symbol t = .ok s → s.closing = true ∨ s.postfixed = true → ∀ ts,
      g.withoutHooks.primary (t :: ts) = .error (.malformed (.notAValue t.text)) ∧
      ∀ right, g.withoutHooks.expression right (t :: ts) =
        .error (.malformed (.notAValue t.text)) := by
  constructor
  · intro ts tree h
    obtain ⟨hgives, -⟩ := parse_eq_ok_iff.1 h
    obtain ⟨a, htree, hts⟩ := (g.isInductive_analysisContract.holdsAt ts).expression hgives
    exact ⟨a, by rw [hts, List.append_nil], htree⟩
  · intro t s hs hrefused ts
    have hprimary := primary_of_refused (g := g.withoutHooks) hs hrefused ts
    refine ⟨hprimary, fun right => ?_⟩
    rw [expression]
    exact bind_eq_error.2 (Or.inl hprimary)

/-- A table in which `-` has all the flags that an operator with two operands can have and `if`
    takes three operands. -/
def mixedSymbol (t : Token) : Except Error (Symbol String) :=
  match t.text with
  | "x" => .ok (.atom "operand")
  | "(" => .ok (.group "group" ")")
  | ")" => .ok (.closingOp "end")
  | "!" => .ok (.postfixOp "factorial" 5)
  | "-" => .ok { Symbol.infixRightOp "minus" 4 with unary := true, prefixed := true }
  | "if" => .ok { Symbol.plain "if" with arity := 3, prefixed := true }
  | text => .error (.malformed (.unknownOperator text))

/-- The grammar with this table and no hooks. -/
def mixed : Grammar String where
  symbol := mixedSymbol

/-- The tokens of `if x! (-x - x) x`. -/
def mixedTokens : List Token :=
  ["if", "x", "!", "(", "-", "x", "-", "x", ")", "x"].map Token.operator

/-- The tree that they stand for. -/
def mixedTree : Tree String :=
  let x := Tree.node "operand" "x" none []
  .node "if" "if" none
    [.node "factorial" "!" none [x],
      .node "group" "(" none [.node "minus" "-" none [.node "minus" "-" none [x], x]], x]

theorem exists_analysis_of_parse_mixed :
    mixed.withoutHooks.parse mixedTokens = .ok mixedTree ∧
    (∃ a : Analysis mixed.symbol, a.tokens = mixedTokens ∧ a.tree = mixedTree) ∧
    mixed.symbol (.operator "!") = .ok (.postfixOp "factorial" 5) ∧
    mixed.withoutHooks.primary [.operator "!", .operator "x"] =
      .error (.malformed (.notAValue "!")) := by
  have hparse : mixed.withoutHooks.parse mixedTokens = .ok mixedTree := by
    show parse { symbol := mixedSymbol, replace := fun tree => tree } mixedTokens = _
    cbv
  have hsymbol : mixed.symbol (.operator "!") = .ok (.postfixOp "factorial" 5) := rfl
  obtain ⟨haccepted, hrefused⟩ := exists_analysis_of_parse mixed
  exact ⟨hparse, haccepted _ _ hparse, hsymbol, (hrefused _ _ hsymbol (Or.inr rfl) _).1⟩

end Grammar

end BranchingTime
