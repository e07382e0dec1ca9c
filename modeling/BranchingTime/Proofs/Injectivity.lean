import BranchingTime.Proofs.RoundTrip

set_option autoImplicit false

/-! # No two formulas have one text

Rendering loses nothing: formulas whose names have a spelling are told by their texts
(`Formula.render_inj`). This is not read off the parser, which gives back the normalized formula and
so takes many formulas for one.

The argument is about tokens. Those of a formula that is no connective end by themselves, so they
are told from whatever follows them, and so are the tokens of an operand, which stands between
parentheses if it is a connective. The tokens of a connective can be gone on with by a sign; they are
told from what follows them as long as that is nothing or a closing parenthesis
(`Formula.IsTold`). -/

namespace BranchingTime

/-! ## Tokens of letters and signs -/

section Tokens

variable {s t : String}

@[simp] theorem Token.operator_inj : Token.operator s = Token.operator t ↔ s = t := by
  simp [Token.operator]

@[simp] theorem Token.atom_inj : Token.atom s = Token.atom t ↔ s = t := by
  simp [Token.atom]

@[simp] theorem Token.operator_ne_atom : Token.operator s ≠ Token.atom t := by
  simp [Token.operator, Token.atom]

@[simp] theorem Token.atom_ne_operator : Token.atom s ≠ Token.operator t :=
  Token.operator_ne_atom.symm

@[simp] theorem Quantifier.letter_inj {q q' : Quantifier} :
    q.letter = q'.letter ↔ q = q' := by
  cases q <;> cases q' <;> decide

@[simp] theorem UnaryPath.letter_inj {o o' : UnaryPath} :
    o.letter = o'.letter ↔ o = o' := by
  cases o <;> cases o' <;> decide

@[simp] theorem BinaryPath.letter_inj {o o' : BinaryPath} :
    o.letter = o'.letter ↔ o = o' := by
  cases o <;> cases o' <;> decide

@[simp] theorem Connective.sign_inj {c c' : Connective} : c.sign = c'.sign ↔ c = c' := by
  cases c <;> cases c' <;> decide

end Tokens

namespace Formula

variable {name : String} {a b f g : Formula} {r r' : List Token}

/-! ## What may follow -/

/-- Whether the formula is built by a connective. -/
def isConnected : Formula → Bool
  | connect _ _ _ => true
  | _ => false

/-- Nothing, or a closing parenthesis and what comes behind it. -/
def Closes (r : List Token) : Prop := ∀ t ∈ r.head?, t = Token.operator ")"

theorem closes_nil : Closes [] := by
  intro t ht
  cases ht

theorem closes_cons (r : List Token) : Closes (Token.operator ")" :: r) := by
  intro t ht
  cases ht
  rfl

theorem not_closes_sign_cons (c : Connective) (r : List Token) :
    ¬Closes (Token.operator c.sign :: r) := by
  intro h
  have hsign : Token.operator c.sign = Token.operator ")" := h _ rfl
  cases c <;> simp [Connective.sign] at hsign

/-- Rows of tokens that begin with one formula and with the other are equal only if the formulas are,
    and if the same follows. -/
def Apart (f g : Formula) : Prop :=
  ∀ r r', f.tokens ++ r = g.tokens ++ r' → f = g ∧ r = r'

theorem Apart.symm (h : Apart f g) : Apart g f := by
  intro r r' heq
  obtain ⟨hfg, hr⟩ := h r' r heq.symm
  exact ⟨hfg.symm, hr.symm⟩

/-- The tokens of the formula tell it from every formula with a spelling. -/
structure IsTold (f : Formula) : Prop where
  /-- Of formulas that are no connectives, whatever follows. -/
  alone : ∀ g, f.isConnected = false → g.isConnected = false → g.isSpellable = true → Apart f g
  /-- Of all formulas, if what follows closes them. -/
  closed : ∀ g r r', Closes r → Closes r' → g.isSpellable = true →
    f.tokens ++ r = g.tokens ++ r' → f = g ∧ r = r'

/-! ## Operands -/

/-- A formula that is no connective does not begin with a parenthesis. -/
theorem tokens_ne_paren_cons (hf : f.isConnected = false) :
    f.tokens ++ r ≠ Token.operator "(" :: r' := by
  cases f with
  | atom name => simp [tokens]
  | truth b => simp [tokens]
  | not a => simp [tokens]
  | connect c a b => cases hf
  | unary q o a => cases q <;> simp [tokens, Quantifier.letter]
  | binary q o a b => cases q <;> simp [tokens, Quantifier.letter]

theorem isConnected_of_isTight (h : f.isTight = true) : f.isConnected = false := by
  cases f with
  | connect c a b => cases h
  | _ => rfl

theorem isConnected_of_isAtomic (h : f.isAtomic = true) : f.isConnected = false :=
  isConnected_of_isTight (isTight_of_isAtomic h)

/-- An operand is told from whatever follows it, if no connective is one without parentheses. -/
theorem IsTold.operand {bare : Formula → Bool}
    (hbare : ∀ {f}, bare f = true → f.isConnected = false) (ha : a.IsTold)
    (hb : b.isSpellable = true)
    (h : encloseTokens (bare a) a.tokens ++ r = encloseTokens (bare b) b.tokens ++ r') :
    a = b ∧ r = r' := by
  cases hbarea : bare a with
  | true =>
    cases hbareb : bare b with
    | true =>
      rw [hbarea, hbareb] at h
      exact ha.alone b (hbare hbarea) (hbare hbareb) hb r r' h
    | false =>
      rw [hbarea, hbareb] at h
      exact absurd h (tokens_ne_paren_cons (hbare hbarea))
  | false =>
    cases hbareb : bare b with
    | true =>
      rw [hbarea, hbareb] at h
      exact absurd h.symm (tokens_ne_paren_cons (hbare hbareb))
    | false =>
      rw [hbarea, hbareb] at h
      simp only [encloseTokens, Bool.false_eq_true, if_false, List.cons_append, List.append_assoc,
        List.nil_append, List.cons.injEq, true_and] at h
      obtain ⟨rfl, hr⟩ := ha.closed b _ _ (closes_cons r) (closes_cons r') hb h
      exact ⟨rfl, (List.cons.inj hr).2⟩

/-! ## Formulas -/

/-- A connective does not begin with all of another formula that is closed: that formula would be
    its first operand, and the sign behind the operand closes nothing. -/
theorem tokens_connect_ne (c : Connective) (hag : a.isConnected = false → Apart a g)
    (hg : g.isConnected = false) (hr' : Closes r') :
    encloseTokens a.isTight a.tokens ++ Token.operator c.sign :: r ≠ g.tokens ++ r' := by
  intro h
  cases htight : a.isTight with
  | true =>
    rw [htight] at h
    obtain ⟨-, rfl⟩ := hag (isConnected_of_isTight htight) _ _ h
    exact not_closes_sign_cons c r hr'
  | false =>
    rw [htight] at h
    exact tokens_ne_paren_cons hg h.symm

/-- A formula that is no connective is told as soon as it is told from others of its sort. -/
theorem isTold_of_apart (hf : f.isConnected = false)
    (h : ∀ g, g.isConnected = false → g.isSpellable = true → Apart f g) : f.IsTold := by
  refine ⟨fun g _ => h g, ?_⟩
  intro g r r' hr _ hg heq
  by_cases hconnected : g.isConnected = false
  · exact h g hconnected hg r r' heq
  · cases g with
    | connect c a b =>
      obtain ⟨ha, -⟩ := isSpellable_connect.1 hg
      rw [tokens, List.append_assoc] at heq
      exact absurd heq.symm (tokens_connect_ne c (fun hca => (h a hca ha).symm) hf hr)
    | _ => exact absurd rfl hconnected

/-- An atom and a literal are told by the name that stands for them. -/
theorem exists_tokens_eq_of_isAtomic (hf : f.isSpellable = true) (hatomic : f.isAtomic = true) :
    ∃ name, f.tokens = [Token.atom name] ∧ ofName name = f := by
  cases f with
  | atom name =>
    have hname : isSpellableName name = true := isSpellable_atom.symm.trans hf
    exact ⟨name, rfl, ofName_of_isSpellableName hname⟩
  | truth b => exact ⟨literal b, rfl, ofName_literal b⟩
  | _ => cases hatomic

theorem isTold_of_isAtomic (hf : f.isSpellable = true) (hatomic : f.isAtomic = true) :
    f.IsTold := by
  obtain ⟨name, htokens, hname⟩ := exists_tokens_eq_of_isAtomic hf hatomic
  refine isTold_of_apart (isConnected_of_isAtomic hatomic) ?_
  intro g hconnected hg r r' h
  rw [htokens] at h
  by_cases hatomic' : g.isAtomic = true
  · obtain ⟨name', htokens', hname'⟩ := exists_tokens_eq_of_isAtomic hg hatomic'
    rw [htokens'] at h
    obtain ⟨hnames, hr⟩ : name = name' ∧ r = r' := by simpa using h
    rw [← hname, ← hname', hnames]
    exact ⟨rfl, hr⟩
  · cases g with
    | atom name => exact absurd rfl hatomic'
    | truth b => exact absurd rfl hatomic'
    | connect c a b => cases hconnected
    | _ => simp [tokens] at h

theorem IsTold.not (ha : a.IsTold) : (not a).IsTold := by
  refine isTold_of_apart rfl ?_
  intro g hconnected hg r r' h
  cases g with
  | not b =>
    have hoperand :
        encloseTokens a.isAtomic a.tokens ++ r = encloseTokens b.isAtomic b.tokens ++ r' := by
      simpa [tokens] using h
    have hb : b.isSpellable = true := hg
    obtain ⟨rfl, hr⟩ := ha.operand isConnected_of_isAtomic hb hoperand
    exact ⟨rfl, hr⟩
  | connect c a b => cases hconnected
  | unary q o b => cases q <;> simp [tokens, Quantifier.letter] at h
  | binary q o b b' => cases q <;> simp [tokens, Quantifier.letter] at h
  | _ => simp [tokens] at h

theorem IsTold.unary (q : Quantifier) (o : UnaryPath) (ha : a.IsTold) :
    (unary q o a).IsTold := by
  refine isTold_of_apart rfl ?_
  intro g hconnected hg r r' h
  cases g with
  | not b => cases q <;> simp [tokens, Quantifier.letter] at h
  | connect c a b => cases hconnected
  | unary q' o' b =>
    obtain ⟨rfl, rfl, hoperand⟩ : q = q' ∧ o = o' ∧
        encloseTokens a.isTight a.tokens ++ r = encloseTokens b.isTight b.tokens ++ r' := by
      simpa [tokens] using h
    have hb : b.isSpellable = true := hg
    obtain ⟨rfl, hr⟩ := ha.operand isConnected_of_isTight hb hoperand
    exact ⟨rfl, hr⟩
  | binary q' o' b b' => cases o <;> simp [tokens, UnaryPath.letter] at h
  | _ => simp [tokens] at h

theorem IsTold.binary (q : Quantifier) (o : BinaryPath) (ha : a.IsTold) (hb : b.IsTold) :
    (binary q o a b).IsTold := by
  refine isTold_of_apart rfl ?_
  intro g hconnected hg r r' h
  cases g with
  | not b => cases q <;> simp [tokens, Quantifier.letter] at h
  | connect c a b => cases hconnected
  | unary q' o' b => cases o' <;> simp [tokens, UnaryPath.letter] at h
  | binary q' o' a' b' =>
    obtain ⟨ha', hb'⟩ := isSpellable_binary.1 hg
    simp only [tokens, List.cons_append, List.append_assoc, List.cons.injEq, true_and,
      Token.operator_inj, Char.toString_eq_singleton, String.singleton_inj,
      Quantifier.letter_inj] at h
    obtain ⟨rfl, hfirst⟩ := h
    obtain ⟨rfl, hsecond⟩ := ha.operand isConnected_of_isTight ha' hfirst
    simp only [List.cons.injEq, Token.operator_inj, String.singleton_inj,
      BinaryPath.letter_inj] at hsecond
    obtain ⟨rfl, hsecond⟩ := hsecond
    obtain ⟨rfl, hrest⟩ := hb.operand isConnected_of_isTight hb' hsecond
    obtain ⟨-, hr⟩ := List.cons.inj hrest
    exact ⟨rfl, hr⟩
  | _ => simp [tokens] at h

theorem IsTold.connect (c : Connective) (ha : a.IsTold) (hb : b.IsTold) :
    (connect c a b).IsTold := by
  refine ⟨fun g hconnected => Bool.noConfusion hconnected, ?_⟩
  intro g r r' hr hr' hg h
  rw [tokens, List.append_assoc] at h
  by_cases hconnected : g.isConnected = false
  · exact absurd h
      (tokens_connect_ne c (fun hca => ha.alone g hca hconnected hg) hconnected hr')
  · cases g with
    | connect c' a' b' =>
      obtain ⟨ha', hb'⟩ := isSpellable_connect.1 hg
      rw [tokens, List.append_assoc] at h
      obtain ⟨rfl, hsecond⟩ := ha.operand isConnected_of_isTight ha' h
      simp only [List.cons_append, List.cons.injEq, Token.operator_inj,
        Connective.sign_inj] at hsecond
      obtain ⟨rfl, hsecond⟩ := hsecond
      obtain ⟨rfl, hrest⟩ := hb.operand isConnected_of_isTight hb' hsecond
      exact ⟨rfl, hrest⟩
    | _ => exact absurd rfl hconnected

/-- **The tokens of a formula tell it**, if its names have a spelling. -/
theorem isTold_of_isSpellable (hf : f.isSpellable = true) : f.IsTold := by
  induction f with
  | atom name => exact isTold_of_isAtomic hf rfl
  | truth b => exact isTold_of_isAtomic hf rfl
  | not a iha => exact (iha hf).not
  | connect c a b iha ihb =>
    obtain ⟨ha, hb⟩ := isSpellable_connect.1 hf
    exact (iha ha).connect c (ihb hb)
  | unary q o a iha => exact (iha hf).unary q o
  | binary q o a b iha ihb =>
    obtain ⟨ha, hb⟩ := isSpellable_binary.1 hf
    exact (iha ha).binary q o (ihb hb)

/-! ## Texts -/

theorem tokens_inj (hf : f.isSpellable = true) (hg : g.isSpellable = true) :
    f.tokens = g.tokens ↔ f = g := by
  refine ⟨?_, fun h => congrArg tokens h⟩
  intro h
  have happend : f.tokens ++ [] = g.tokens ++ [] := by rw [h]
  exact ((isTold_of_isSpellable hf).closed g [] [] closes_nil closes_nil hg happend).1

/-- **No two formulas have one text**, if all their names have a spelling. -/
theorem render_inj (hf : f.isSpellable = true) (hg : g.isSpellable = true) :
    f.render = g.render ↔ f = g := by
  refine ⟨?_, fun h => congrArg render h⟩
  intro h
  obtain ⟨ts, hts, htokenize⟩ := (spells_render hf).tokenize
  obtain ⟨us, hus, htokenize'⟩ := (spells_render hg).tokenize
  -- one text is read as one row of tokens
  rw [h, htokenize'] at htokenize
  obtain rfl : us = ts := Except.ok.inj htokenize
  rw [← tokens_inj hf hg, ← hts, ← hus]

/-- The parser takes these two formulas for one, and they have different texts. -/
theorem render_quoted_ne :
    quoted.isSpellable = true ∧ quoted.collapse.isSpellable = true ∧
      quoted.render ≠ quoted.collapse.render := by
  refine ⟨rfl, rfl, ?_⟩
  intro h
  have heq : quoted = quoted.collapse := (render_inj rfl rfl).1 h
  exact absurd heq (by decide)

end Formula

end BranchingTime
