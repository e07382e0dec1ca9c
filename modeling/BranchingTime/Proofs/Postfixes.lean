import BranchingTime.Proofs.Analysis

set_option autoImplicit false

/-! # Postfix operators belong to the operand before them

Behind an atom and behind a group the parser applies all postfix operators there are. An operand of
any other form ends with one that has been read in this way, and so does an expression. So where an
operand or an expression has been read, the next token is no postfix operator
(`Grammar.settledContract`).

The power of a symbol counts where an expression may go on with it, which is behind an operand, and
where it begins a group. That of a postfix operator never does, and the parser does the same for two
grammars that differ in nothing else (`Grammar.agreementContract`). -/

namespace BranchingTime

namespace Grammar

variable {κ : Type} {g g' : Grammar κ} {ts rest : List Token} {left tree : Tree κ}
  {trees : List (Tree κ)} {right : UInt32} {count k : Nat}

/-! ## What comes behind an operand -/

theorem Gives.settled_of_postfixes (h : Gives (g.postfixes left ts) tree rest) :
    g.Settled rest := by
  induction ts generalizing left with
  | nil =>
    cases h.postfixTurn with
    | stop hrest => exact hrest
  | cons t ts ih =>
    cases h.postfixTurn with
    | stop hrest => exact hrest
    | apply hs htrailing hnode hpostfixes => exact ih hpostfixes

/-- Where the parser has read something, no postfix operator comes next. An expression need not go on
    and there need not be any operands, and then the tokens are left as they were. -/
def settledContract (g : Grammar κ) : Contract where
  primary ts := ∀ ⦃tree rest⦄, Gives (g.primary ts) tree rest → g.Settled rest
  expression ts := ∀ ⦃right tree rest⦄, Gives (g.expression right ts) tree rest → g.Settled rest
  infixes ts := ∀ ⦃right left tree rest⦄, g.Settled ts →
    Gives (g.infixes right left ts) tree rest → g.Settled rest
  operands ts := ∀ ⦃count trees rest⦄, (count = 0 → g.Settled ts) →
    Gives (g.operands count ts) trees rest → g.Settled rest

theorem primary_settles (hk : g.settledContract.HoldsBelow ts)
    (h : Gives (g.primary ts) tree rest) : g.Settled rest := by
  cases h.primaryTurn with
  | leaf hs hleading hnode hpostfixes => exact hpostfixes.settled_of_postfixes
  | group hs hleading hcontent hclosing hnode hpostfixes =>
    exact hpostfixes.settled_of_postfixes
  | single hs hleading hoperand hnode => exact hk.tail.primary hoperand
  | many hs hleading hoperands hnode =>
    obtain ⟨rfl, hmany⟩ := Symbol.takesMany_of_leading hleading
    have hsome := Nat.ne_of_gt (Nat.lt_of_lt_of_le Nat.two_pos hmany.arity)
    exact hk.tail.operands (fun hnone => absurd hnone hsome) hoperands

theorem expression_settles (hk : g.settledContract.HoldsBelow ts)
    (hprimary : g.settledContract.primary ts) (h : Gives (g.expression right ts) tree rest) :
    g.Settled rest := by
  obtain ⟨left, us, hleft, hinfixes⟩ := h.expression
  have hus := hprimary hleft
  obtain ⟨hlt, -⟩ := hleft
  exact (hk hlt).infixes hus hinfixes

theorem infixes_settles (hk : g.settledContract.HoldsBelow ts) (hts : g.Settled ts)
    (h : Gives (g.infixes right left ts) tree rest) : g.Settled rest := by
  cases h.infixTurn with
  | stop => exact hts
  | apply hs hbinds harity hoperand hnode hinfixes =>
    have hus := hk.tail.expression hoperand
    obtain ⟨hlt, -⟩ := hoperand
    exact (hk (Nat.lt_succ_of_lt hlt)).infixes hus hinfixes

theorem operands_settle (hk : g.settledContract.HoldsBelow ts)
    (hexpression : g.settledContract.expression ts) (hts : count = 0 → g.Settled ts)
    (h : Gives (g.operands count ts) trees rest) : g.Settled rest := by
  rcases h.operands with ⟨hnone, -, rfl⟩ | ⟨n, first, us, others, -, -, hfirst, hothers⟩
  · exact hts hnone
  · have hus := hexpression hfirst
    obtain ⟨hlt, -⟩ := hfirst
    exact (hk hlt).operands (fun _ => hus) hothers

theorem isInductive_settledContract (g : Grammar κ) : g.settledContract.IsInductive where
  primary hk _ _ h := primary_settles hk h
  expression hk hprimary _ _ _ h := expression_settles hk hprimary h
  infixes hk _ _ _ _ hts h := infixes_settles hk hts h
  operands hk hexpression _ _ _ hts h := operands_settle hk hexpression hts h

theorem Gives.settled_of_primary (h : Gives (g.primary ts) tree rest) : g.Settled rest :=
  (g.isInductive_settledContract.holdsAt ts).primary h

theorem Gives.settled_of_expression (h : Gives (g.expression right ts) tree rest) :
    g.Settled rest :=
  (g.isInductive_settledContract.holdsAt ts).expression h

/-! ## Grammars with other powers -/

/-- The grammars have the same hooks and the same symbols, but the powers of postfix operators may
    be different. -/
structure SameButPostfixPowers (g g' : Grammar κ) : Prop where
  symbol : ∀ t, g.symbol t = g'.symbol t ∨ ∃ s power, s.isTrailing = true ∧
    g.symbol t = .ok s ∧ g'.symbol t = .ok { s with power }
  accept : g.accept = g'.accept
  replace : g.replace = g'.replace
  acceptRoot : g.acceptRoot = g'.acceptRoot

variable {t : Token}

theorem SameButPostfixPowers.build (h : g.SameButPostfixPowers g') : g.build = g'.build := by
  funext s t children
  simp only [Grammar.build, complete, h.accept, h.replace]

theorem SameButPostfixPowers.postfixes (h : g.SameButPostfixPowers g') (left : Tree κ)
    (ts : List Token) : g.postfixes left ts = g'.postfixes left ts := by
  induction ts generalizing left with
  | nil => rfl
  | cons t ts ih =>
    simp only [Grammar.postfixes, h.build, ih]
    rcases h.symbol t with hsame | ⟨s, power, -, hs, hs'⟩
    · rw [hsame]
    · rw [hs, hs']
      rfl

theorem SameButPostfixPowers.passCloser (h : g.SameButPostfixPowers g') (closer : String)
    (ts : List Token) : g.passCloser closer ts = g'.passCloser closer ts := by
  cases ts with
  | nil => rfl
  | cons t ts =>
    simp only [Grammar.passCloser]
    rcases h.symbol t with hsame | ⟨s, power, -, hs, hs'⟩
    · rw [hsame]
    · rw [hs, hs']
      rfl

/-- What comes next is the same symbol for both, where it is no postfix operator. -/
theorem SameButPostfixPowers.symbol_eq (h : g.SameButPostfixPowers g')
    (hts : g.Settled (t :: ts)) : g.symbol t = g'.symbol t := by
  obtain ⟨s, hs, hsettled⟩ := hts t rfl
  rcases h.symbol t with hsame | ⟨s', power, htrailing, hs', -⟩
  · exact hsame
  · cases hs.symm.trans hs'
    cases hsettled.symm.trans htrailing

/-- The functions of the parser do the same for both grammars. An expression goes on in the same way
    where no postfix operator comes next. -/
def agreementContract (g g' : Grammar κ) : Contract where
  primary ts := g.primary ts = g'.primary ts
  expression ts := ∀ right, g.expression right ts = g'.expression right ts
  infixes ts := ∀ right left, g.Settled ts → g.infixes right left ts = g'.infixes right left ts
  operands ts := ∀ count, g.operands count ts = g'.operands count ts

theorem SameButPostfixPowers.primary_agrees (h : g.SameButPostfixPowers g')
    (hk : (g.agreementContract g').HoldsBelow ts) : g.primary ts = g'.primary ts := by
  cases ts with
  | nil => simp only [Grammar.primary]
  | cons t ts =>
    have hts := hk.tail
    have hprimary : g.primary ts = g'.primary ts := hts.primary
    simp only [Grammar.primary, h.build, h.postfixes, h.passCloser, hprimary, hts.expression _,
      hts.operands _]
    rcases h.symbol t with hsame | ⟨s, power, htrailing, hs, hs'⟩
    · rw [hsame]
    -- a postfix operator is refused here, whatever its power
    · have hpostfixed : s.postfixed = true := (Bool.and_eq_true_iff.1 htrailing).2
      have hleading : s.leading = .refused := Symbol.leading_eq_refused (Or.inr hpostfixed)
      have hleading' : { s with power }.leading = .refused :=
        Symbol.leading_eq_refused (Or.inr hpostfixed)
      rw [hs, hs']
      simp only [bind, Except.bind, hleading, hleading']

theorem expression_agrees (hk : (g.agreementContract g').HoldsBelow ts)
    (hprimary : g.primary ts = g'.primary ts) (right : UInt32) :
    g.expression right ts = g'.expression right ts := by
  simp only [Grammar.expression, ← hprimary]
  refine bind_congr_ok fun left hleft => ?_
  have hus : g.Settled left.rest := (gives_of_eq hleft).settled_of_primary
  rw [(hk left.shorter).infixes right left.value hus]

theorem SameButPostfixPowers.infixes_agree (h : g.SameButPostfixPowers g')
    (hk : (g.agreementContract g').HoldsBelow ts) (right : UInt32) (left : Tree κ)
    (hts : g.Settled ts) : g.infixes right left ts = g'.infixes right left ts := by
  cases ts with
  | nil => simp only [Grammar.infixes]
  | cons t ts =>
    simp only [Grammar.infixes, h.symbol_eq hts, h.build, ← hk.tail.expression _]
    refine bind_congr fun s => ?_
    split
    · split
      · refine bind_congr_ok fun operand hoperand => bind_congr fun node => ?_
        have hus : g.Settled operand.rest := (gives_of_eq hoperand).settled_of_expression
        rw [(hk (Nat.lt_succ_of_lt operand.shorter)).infixes right node hus]
      · rfl
    · rfl

theorem operands_agree (hk : (g.agreementContract g').HoldsBelow ts)
    (hexpression : ∀ right, g.expression right ts = g'.expression right ts) (count : Nat) :
    g.operands count ts = g'.operands count ts := by
  cases count with
  | zero => simp only [Grammar.operands]
  | succ count =>
    simp only [Grammar.operands, hexpression]
    refine bind_congr fun first => ?_
    rw [(hk first.shorter).operands count]

theorem SameButPostfixPowers.isInductive_agreementContract (h : g.SameButPostfixPowers g') :
    (g.agreementContract g').IsInductive where
  primary := h.primary_agrees
  expression := expression_agrees
  infixes := h.infixes_agree
  operands := operands_agree

/-- **Postfix operators belong to the operand before them, whatever their powers.** Behind an
    operand and behind an expression there is none left, so two grammars that differ only in the
    powers of their postfix operators build the same trees and fail with the same errors. -/
theorem parse_eq_of_sameButPostfixPowers (g : Grammar κ) :
    (∀ ts r, g.primary ts = .ok r → g.Settled r.rest) ∧
    (∀ right ts r, g.expression right ts = .ok r → g.Settled r.rest) ∧
    ∀ g', g.SameButPostfixPowers g' → ∀ ts, g.parse ts = g'.parse ts := by
  refine ⟨fun ts r hr => (gives_of_eq hr).settled_of_primary,
    fun right ts r hr => (gives_of_eq hr).settled_of_expression, fun g' h ts => ?_⟩
  simp only [parse, (h.isInductive_agreementContract.holdsAt ts).expression 0, h.acceptRoot]

/-- The same table as `mixed`, but with another power for the postfix operator. -/
def mixedAt (power : UInt32) : Grammar String where
  symbol t := if t.text = "!" then .ok (.postfixOp "factorial" power) else mixedSymbol t

theorem sameButPostfixPowers_mixedAt (power : UInt32) :
    mixed.SameButPostfixPowers (mixedAt power) where
  symbol t := by
    by_cases ht : t.text = "!"
    · have hs : mixed.symbol t = .ok (.postfixOp "factorial" 5) := by
        simp only [mixed, mixedSymbol, ht]
      exact Or.inr ⟨_, power, rfl, hs, if_pos ht⟩
    · exact Or.inl (if_neg ht).symm
  accept := rfl
  replace := rfl
  acceptRoot := rfl

/-- The tokens of `x!! - x`. -/
def twiceTokens : List Token := ["x", "!", "!", "-", "x"].map Token.operator

/-- The tree that they stand for. -/
def twiceTree : Tree String :=
  let x := Tree.node "operand" "x" none []
  .node "minus" "-" none [.node "factorial" "!" none [.node "factorial" "!" none [x]], x]

theorem parse_eq_of_sameButPostfixPowers_twice :
    (∃ r, mixed.primary twiceTokens = .ok r ∧ r.rest = ["-", "x"].map Token.operator ∧
      mixed.Settled r.rest) ∧
    (∃ r, mixed.expression 5 twiceTokens = .ok r ∧ r.rest = ["-", "x"].map Token.operator ∧
      mixed.Settled r.rest) ∧
    mixed.parse twiceTokens = .ok twiceTree ∧
    ∀ power, mixed.SameButPostfixPowers (mixedAt power) ∧
      (mixedAt power).parse twiceTokens = .ok twiceTree := by
  obtain ⟨hprimary, hexpression, hparse⟩ := parse_eq_of_sameButPostfixPowers mixed
  have htree : mixed.parse twiceTokens = .ok twiceTree := by
    show parse { symbol := mixedSymbol, replace := fun tree => tree } twiceTokens = _
    cbv
  have hoperand : (mixed.primary twiceTokens).map Parsed.rest =
      .ok (["-", "x"].map Token.operator) := by
    show (primary { symbol := mixedSymbol, replace := fun tree => tree } twiceTokens).map
      Parsed.rest = _
    cbv
  have hleft : (mixed.expression 5 twiceTokens).map Parsed.rest =
      .ok (["-", "x"].map Token.operator) := by
    show (expression { symbol := mixedSymbol, replace := fun tree => tree } 5 twiceTokens).map
      Parsed.rest = _
    cbv
  obtain ⟨r, hr, hrest⟩ := map_eq_ok.1 hoperand
  obtain ⟨r', hr', hrest'⟩ := map_eq_ok.1 hleft
  refine ⟨⟨r, hr, hrest, hprimary _ _ hr⟩, ⟨r', hr', hrest', hexpression _ _ _ hr'⟩, htree,
    fun power => ?_⟩
  have hsame := sameButPostfixPowers_mixedAt power
  exact ⟨hsame, (hparse _ hsame _).symm.trans htree⟩

end Grammar

end BranchingTime
