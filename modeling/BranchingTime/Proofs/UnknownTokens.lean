import BranchingTime.Proofs.Analysis

set_option autoImplicit false

/-! # No run gets past an unknown token

The parser looks up the symbol of each token, though it puts this off: the end of a group is told by
its text first, and a token can be the next one for a long time before it is known what to do with
it. None is left out in the end. So where a grammar has no symbol for a token, the input is refused,
and what the error is has been settled by then.

Two runs are compared whose tokens are the same up to the unknown one and go on in different ways
(`Grammar.inStepContract`). They fail together, or build the same thing and leave tokens that are again
the same up to there (`InStep`). What distinguishes them is never the next token of either. -/

namespace BranchingTime

/-! ## Runs that are in step -/

/-- The two runs fail with the same error, or they give the same value and leave the same tokens up
    to `t`, behind which there is `vs` for one and `ws` for the other. -/
inductive InStep {α : Type} {m n : Nat} (t : Token) (vs ws : List Token) :
    Except Error (Parsed α m) → Except Error (Parsed α n) → Prop where
  | error (e : Error) : InStep t vs ws (.error e) (.error e)
  | ok (value : α) (us : List Token) (h : (us ++ t :: vs).length < m)
      (h' : (us ++ t :: ws).length < n) :
      InStep t vs ws (.ok ⟨value, us ++ t :: vs, h⟩) (.ok ⟨value, us ++ t :: ws, h'⟩)

section InStep

variable {α β γ : Type} {m n m' n' : Nat} {t : Token} {us vs ws : List Token}

/-- What is left behind the front `us` has a front that is shorter. -/
theorem length_front_lt {us' : List Token}
    (h : (us' ++ t :: vs).length < (us ++ t :: vs).length) : us'.length < us.length := by
  simpa only [List.length_append, Nat.add_lt_add_iff_right] using h

theorem InStep.bind {x : Except Error (Parsed α m)} {y : Except Error (Parsed α n)}
    {k : Parsed α m → Except Error (Parsed β m')} {k' : Parsed α n → Except Error (Parsed β n')}
    (h : InStep t vs ws x y)
    (hk : ∀ value us hus hus', InStep t vs ws (k ⟨value, us ++ t :: vs, hus⟩)
      (k' ⟨value, us ++ t :: ws, hus'⟩)) :
    InStep t vs ws (x >>= k) (y >>= k') := by
  cases h with
  | error e => exact .error e
  | ok value us hus hus' => exact hk value us hus hus'

/-- What both runs do first, without looking at the tokens, keeps them in step. -/
theorem InStep.after (p : Except Error γ) {k : γ → Except Error (Parsed β m)}
    {k' : γ → Except Error (Parsed β n)} (hk : ∀ c, InStep t vs ws (k c) (k' c)) :
    InStep t vs ws (p >>= k) (p >>= k') := by
  cases p with
  | error e => exact .error e
  | ok c => exact hk c

theorem InStep.weaken {x : Except Error (Parsed α m)} {y : Except Error (Parsed α n)}
    (h : InStep t vs ws x y) (hle : m ≤ m') (hle' : n ≤ n') :
    InStep t vs ws (x >>= fun r => pure (r.weaken hle)) (y >>= fun r => pure (r.weaken hle')) :=
  h.bind fun value us _ _ => .ok value us _ _

end InStep

namespace Grammar

variable {κ : Type} {g : Grammar κ} {t : Token} {us vs ws : List Token} {e : Error} {k : Nat}

/-! ## Runs with an unknown token before them -/

theorem postfixes_inStep (ht : g.symbol t = .error e) (left : Tree κ) (us vs ws : List Token) :
    InStep t vs ws (g.postfixes left (us ++ t :: vs)) (g.postfixes left (us ++ t :: ws)) := by
  induction us generalizing left with
  | nil =>
    simp only [List.nil_append, postfixes, ht]
    exact .error e
  | cons u us ih =>
    simp only [List.cons_append, postfixes]
    refine .after _ fun s => ?_
    by_cases htrailing : s.isTrailing = true
    · simp only [htrailing, if_true]
      exact .after _ fun node => (ih node).weaken _ _
    · simp only [htrailing]
      exact .ok left (u :: us) _ _

/-- The text of the unknown token is compared before its symbol is looked up, and both runs compare
    the same text. -/
theorem passCloser_inStep (ht : g.symbol t = .error e) (closer : String) (us vs ws : List Token) :
    InStep t vs ws (g.passCloser closer (us ++ t :: vs)) (g.passCloser closer (us ++ t :: ws)) := by
  cases us with
  | nil =>
    simp only [List.nil_append, passCloser, ht]
    split <;> exact .error _
  | cons u us =>
    simp only [List.cons_append, passCloser]
    split
    · exact .after _ fun s => .ok () us _ _
    · exact .error _

/-- With the same tokens before the unknown one the functions of the parser are in step. -/
def inStepContract (g : Grammar κ) (t : Token) (vs ws : List Token) : Contract where
  primary us := InStep t vs ws (g.primary (us ++ t :: vs)) (g.primary (us ++ t :: ws))
  expression us := ∀ right,
    InStep t vs ws (g.expression right (us ++ t :: vs)) (g.expression right (us ++ t :: ws))
  infixes us := ∀ right left,
    InStep t vs ws (g.infixes right left (us ++ t :: vs)) (g.infixes right left (us ++ t :: ws))
  operands us := ∀ count,
    InStep t vs ws (g.operands count (us ++ t :: vs)) (g.operands count (us ++ t :: ws))

theorem primary_inStep (ht : g.symbol t = .error e)
    (hk : (g.inStepContract t vs ws).HoldsBelow us) :
    InStep t vs ws (g.primary (us ++ t :: vs)) (g.primary (us ++ t :: ws)) := by
  cases us with
  | nil =>
    simp only [List.nil_append, primary, ht]
    exact .error e
  | cons u us =>
    have hus := hk.tail
    simp only [List.cons_append, primary]
    refine .after _ fun s => ?_
    cases s.leading with
    | refused => exact .error _
    | leaf => exact .after _ fun node => postfixes_inStep ht node us vs ws
    | group closer =>
      refine (hus.expression s.power).bind fun content cs _ _ => ?_
      refine .after _ fun node => ?_
      refine (passCloser_inStep ht closer cs vs ws).bind fun _ ds _ _ => ?_
      exact (postfixes_inStep ht node ds vs ws).weaken _ _
    | single =>
      refine hus.primary.bind fun operand cs _ _ => ?_
      exact .after _ fun node => .ok node cs _ _
    | many count =>
      refine (hus.operands count).bind fun children cs _ _ => ?_
      exact .after _ fun node => .ok node cs _ _

theorem expression_inStep (hk : (g.inStepContract t vs ws).HoldsBelow us)
    (hprimary : InStep t vs ws (g.primary (us ++ t :: vs)) (g.primary (us ++ t :: ws)))
    (right : UInt32) :
    InStep t vs ws (g.expression right (us ++ t :: vs)) (g.expression right (us ++ t :: ws)) := by
  simp only [expression]
  refine hprimary.bind fun left cs hcs _ => ?_
  exact ((hk (length_front_lt hcs)).infixes right left).weaken _ _

theorem infixes_inStep (ht : g.symbol t = .error e)
    (hk : (g.inStepContract t vs ws).HoldsBelow us) (right : UInt32) (left : Tree κ) :
    InStep t vs ws (g.infixes right left (us ++ t :: vs))
      (g.infixes right left (us ++ t :: ws)) := by
  cases us with
  | nil =>
    simp only [List.nil_append, infixes, ht]
    exact .error e
  | cons u us =>
    simp only [List.cons_append, infixes]
    refine .after _ fun s => ?_
    by_cases hbinds : s.binds right = true
    · by_cases harity : s.arity = 2
      · simp only [hbinds, harity, if_true]
        refine (hk.tail.expression s.power).bind fun operand cs hcs _ => ?_
        refine .after _ fun node => ?_
        have hcs' := hk (Nat.lt_succ_of_lt (length_front_lt hcs))
        exact (hcs'.infixes right node).weaken _ _
      · simp only [hbinds, harity, if_true]
        exact .error _
    · simp only [hbinds]
      exact .ok left (u :: us) _ _

theorem operands_inStep (hk : (g.inStepContract t vs ws).HoldsBelow us)
    (hexpression : ∀ right, InStep t vs ws (g.expression right (us ++ t :: vs))
      (g.expression right (us ++ t :: ws))) (count : Nat) :
    InStep t vs ws (g.operands count (us ++ t :: vs)) (g.operands count (us ++ t :: ws)) := by
  cases count with
  | zero =>
    simp only [operands]
    exact .ok [] us _ _
  | succ count =>
    simp only [operands]
    refine (hexpression highestPower).bind fun first cs hcs _ => ?_
    refine ((hk (length_front_lt hcs)).operands count).bind fun others ds _ _ => ?_
    exact .ok (first :: others) ds _ _

theorem isInductive_inStepContract (ht : g.symbol t = .error e) (vs ws : List Token) :
    (g.inStepContract t vs ws).IsInductive where
  primary := primary_inStep ht
  expression := expression_inStep
  infixes := infixes_inStep ht
  operands := operands_inStep

/-! ## Whole runs -/

/-- The next token is the same for both runs wherever they stop. -/
theorem parse_fails_inStep (ht : g.symbol t = .error e) (us vs ws : List Token) :
    ∃ e', g.parse (us ++ t :: vs) = .error e' ∧ g.parse (us ++ t :: ws) = .error e' := by
  have hruns := ((isInductive_inStepContract ht vs ws).holdsAt us).expression 0
  simp only [parse]
  generalize g.expression 0 (us ++ t :: vs) = x, g.expression 0 (us ++ t :: ws) = y at hruns ⊢
  cases hruns with
  | error e' => exact ⟨e', rfl, rfl⟩
  | ok tree rest _ _ => cases rest <;> exact ⟨_, rfl, rfl⟩

/-- **An input with an unknown token is refused, and the tokens behind that one have no say in the
    error.** It is the error of the tokens up to there, whatever the hooks of the grammar, and it
    stays the same if others come in place of the rest. -/
theorem parse_of_unknown (g : Grammar κ) (ts : List Token) (k : Nat) (hk : k < ts.length)
    (hunknown : g.symbol ts[k] = .error e) :
    (∃ e', g.parse ts = .error e') ∧ g.parse ts = g.parse (ts.take (k + 1)) ∧
    ∀ ws, g.parse (ts.take (k + 1) ++ ws) = g.parse ts := by
  have hfront : ts.take (k + 1) = ts.take k ++ [ts[k]] := List.take_succ_eq_append_getElem hk
  have hts : ts = ts.take k ++ ts[k] :: ts.drop (k + 1) := by
    rw [← List.drop_eq_getElem_cons hk, List.take_append_drop]
  have hrest : ∀ ws, g.parse (ts.take (k + 1) ++ ws) = g.parse ts := by
    intro ws
    obtain ⟨e', hws, hall⟩ := parse_fails_inStep hunknown (ts.take k) ws (ts.drop (k + 1))
    rw [← hts] at hall
    rw [hfront, List.append_assoc, List.singleton_append, hws, hall]
  obtain ⟨e', hall, -⟩ := parse_fails_inStep hunknown (ts.take k) (ts.drop (k + 1)) []
  rw [← hts] at hall
  refine ⟨⟨e', hall⟩, ?_, hrest⟩
  have htake := hrest []
  rw [List.append_nil] at htake
  exact htake.symm

/-- The tokens of `(x % if)`, of which `%` is unknown and `if` has no operands. -/
def remainderTokens : List Token := ["(", "x", "%", "if", ")"].map Token.operator

theorem parse_of_unknown_remainder :
    remainderTokens.take 3 = ["(", "x", "%"].map Token.operator ∧
    mixed.symbol (.operator "%") = .error (.malformed (.unknownOperator "%")) ∧
    mixed.parse remainderTokens = .error (.malformed (.unknownOperator "%")) ∧
    ∀ ws, mixed.parse (remainderTokens.take 3 ++ ws) =
      .error (.malformed (.unknownOperator "%")) := by
  have hunknown : mixed.symbol (.operator "%") = .error (.malformed (.unknownOperator "%")) := rfl
  have hparse : mixed.parse remainderTokens = .error (.malformed (.unknownOperator "%")) := by
    show parse { symbol := mixedSymbol, replace := fun tree => tree } remainderTokens = _
    cbv
  obtain ⟨-, -, hrest⟩ := parse_of_unknown mixed remainderTokens 2 (by decide) hunknown
  refine ⟨rfl, hunknown, hparse, fun ws => ?_⟩
  rw [hrest ws, hparse]

end Grammar

end BranchingTime
