import BranchingTime.Formula.Render
import BranchingTime.Proofs.Lexing

set_option autoImplicit false

/-! # The tokens of rendered formulas

The text of a formula spells tokens that can be told from the formula: those of its operators and
names, and parentheses where the text has them (`Formula.tokens`). It does so if all names of the
formula have a spelling, whatever the names are made of (`Formula.spells_render`). -/

namespace BranchingTime.Formula

/-! ## Names with a spelling -/

/-- Whether some text spells an atom of this name. -/
def isSpellableName (name : String) : Bool :=
  !name.toList.isEmpty && !name.toList.contains '\\' &&
    !(name.toList.contains '\'' && name.toList.contains '"')

/-- Whether the names of all atoms have a spelling. -/
def isSpellable (f : Formula) : Bool := f.names.all isSpellableName

variable {name text : String} {ts : List Token} {a b f : Formula} {c : Connective} {q : Quantifier}
  {o : BinaryPath}

theorem isSpellable_atom : (atom name).isSpellable = isSpellableName name := by
  simp [isSpellable, names]

theorem isSpellable_connect :
    (connect c a b).isSpellable = true ↔ a.isSpellable = true ∧ b.isSpellable = true := by
  simp [isSpellable, names]

theorem isSpellable_binary :
    (binary q o a b).isSpellable = true ↔ a.isSpellable = true ∧ b.isSpellable = true := by
  simp [isSpellable, names]

/-- A character that is not in the text is none of its characters. -/
theorem ne_of_contains_eq_false {cs : List Char} {d : Char} (h : cs.contains d = false) :
    ∀ c ∈ cs, c ≠ d := by
  rintro c hc rfl
  rw [List.contains_iff_mem.2 hc] at h
  cases h

theorem spells_between {d : Char} (hd : d = '\'' ∨ d = '"') (hne : name.toList ≠ [])
    (hbackslash : name.toList.contains '\\' = false) (hmark : name.toList.contains d = false) :
    Spells (d :: (name.toList ++ [d])) [Token.atom name] := by
  have hbody : ∀ c ∈ name.toList, Lexeme.continuesQuote d c = true := by
    intro c hc
    have h1 : c ≠ d := ne_of_contains_eq_false hmark c hc
    have h2 : c ≠ '\\' := ne_of_contains_eq_false hbackslash c hc
    simp [Lexeme.continuesQuote, h1, h2]
  have h := spells_quoted hd hne hbody
  rwa [String.ofList_toList] at h

/-- A plain name is a word of its own. -/
theorem spells_of_isPlainName (h : isPlainName name = true) :
    Spells name.toList [Token.atom name] := by
  rcases hcs : name.toList with _ | ⟨c, cs⟩
  · simp [isPlainName, hcs] at h
  · simp only [isPlainName, hcs, Bool.and_eq_true, Bool.not_eq_true', List.all_eq_true] at h
    obtain ⟨⟨-, hchars⟩, hname⟩ := h
    have hspells := spells_name hchars hname
    rwa [← hcs, String.ofList_toList, hcs] at hspells

theorem spells_spell (h : isSpellableName name = true) :
    Spells (spell name).toList [Token.atom name] := by
  simp only [isSpellableName, Bool.and_eq_true, Bool.not_eq_true', List.isEmpty_eq_false_iff,
    Bool.and_eq_false_iff] at h
  obtain ⟨⟨hne, hbackslash⟩, hmarks⟩ := h
  rw [spell]
  split
  · next hplain => exact spells_of_isPlainName hplain
  · split
    -- a name with a double quotation mark has no single one, as it has a spelling
    · next hdouble =>
      have hsingle : name.toList.contains '\'' = false := by
        rcases hmarks with hmarks | hmarks
        · exact hmarks
        · rw [hdouble] at hmarks
          cases hmarks
      have hspells := spells_between (Or.inl rfl) hne hbackslash hsingle
      simpa using hspells
    · next hdouble =>
      have hspells := spells_between (Or.inr rfl) hne hbackslash (by simpa using hdouble)
      simpa using hspells

theorem spells_truth (b : Bool) : Spells (literal b).toList [Token.atom (literal b)] := by
  cases b with
  | false => exact spells_literal (Or.inr rfl)
  | true => exact spells_literal (Or.inl rfl)

/-! ## Formulas -/

/-- Tokens, between parentheses unless `bare`. -/
def encloseTokens (bare : Bool) (ts : List Token) : List Token :=
  if bare then ts else Token.operator "(" :: (ts ++ [Token.operator ")"])

/-- The tokens of the text of a formula, but for their ranges. -/
def tokens : Formula → List Token
  | atom name => [Token.atom name]
  | truth b => [Token.atom (literal b)]
  | not a => Token.operator "!" :: encloseTokens a.isAtomic a.tokens
  | connect c a b =>
    encloseTokens a.isTight a.tokens ++
      Token.operator c.sign :: encloseTokens b.isTight b.tokens
  | unary q o a =>
    Token.operator q.letter.toString :: Token.operator o.letter.toString ::
      encloseTokens a.isTight a.tokens
  | binary q o a b =>
    Token.operator q.letter.toString :: Token.operator "(" ::
      (encloseTokens a.isTight a.tokens ++
        Token.operator o.letter.toString ::
          (encloseTokens b.isTight b.tokens ++ [Token.operator ")"]))

theorem spells_closer : Spells [')'] [Token.operator ")"] :=
  spells_nil.operator_cons ')' [] rfl fun _ => rfl

theorem spells_enclose (bare : Bool) (h : Spells text.toList ts) :
    Spells (enclose bare text).toList (encloseTokens bare ts) := by
  cases bare with
  | true => exact h
  | false =>
    have hinner := h.append spells_closer (endsWord_cons rfl)
    have houter := hinner.operator_cons '(' [] rfl fun _ => rfl
    simpa [enclose, encloseTokens] using houter

theorem spells_sign_cons (c : Connective) {cs : List Char} (h : Spells cs ts) :
    Spells (c.sign.toList ++ cs) (Token.operator c.sign :: ts) := by
  cases c with
  | and => exact h.operator_cons '&' [] rfl fun _ => rfl
  | or => exact h.operator_cons '|' [] rfl fun _ => rfl
  | implies => exact h.operator_cons '-' ['>'] rfl fun _ => rfl

theorem isReserved_quantifier (q : Quantifier) : isReserved q.letter = true := by
  cases q <;> rfl

theorem isReserved_unaryPath (o : UnaryPath) : isReserved o.letter = true := by
  cases o <;> rfl

theorem isReserved_binaryPath (o : BinaryPath) : isReserved o.letter = true := by
  cases o <;> rfl

/-- **A rendered formula spells its tokens**, if its names have a spelling. -/
theorem spells_render (hf : f.isSpellable = true) : Spells f.render.toList f.tokens := by
  induction f with
  | atom name =>
    have hname : isSpellableName name = true := isSpellable_atom.symm.trans hf
    exact spells_spell hname
  | truth b => exact spells_truth b
  | not a iha =>
    have ha := spells_enclose a.isAtomic (iha hf)
    have hnot := ha.operator_cons '!' [] rfl fun _ => rfl
    simpa [render, tokens] using hnot
  | connect c a b iha ihb =>
    obtain ⟨ha, hb⟩ := isSpellable_connect.1 hf
    have hleft := spells_enclose a.isTight (iha ha)
    have hright := (spells_enclose b.isTight (ihb hb)).blank_cons ' ' rfl
    have hsign := (spells_sign_cons c hright).blank_cons ' ' rfl
    have hboth := hleft.append hsign (endsWord_cons rfl)
    simpa [render, tokens] using hboth
  | unary q o a iha =>
    have ha := (spells_enclose a.isTight (iha hf)).blank_cons ' ' rfl
    have hletters : ∀ e ∈ [q.letter, o.letter], isReserved e = true := by
      simp [isReserved_quantifier, isReserved_unaryPath]
    have hword := (spells_letters hletters).append ha (endsWord_cons rfl)
    simpa [render, tokens] using hword
  | binary q o a b iha ihb =>
    obtain ⟨ha, hb⟩ := isSpellable_binary.1 hf
    have hleft := spells_enclose a.isTight (iha ha)
    have hright := spells_enclose b.isTight (ihb hb)
    have hquantifier : ∀ e ∈ [q.letter], isReserved e = true := by simp [isReserved_quantifier]
    have hletter : ∀ e ∈ [o.letter], isReserved e = true := by simp [isReserved_binaryPath]
    -- from the closing parenthesis back to the quantifier
    have hend := (hright.append spells_closer (endsWord_cons rfl)).blank_cons ' ' rfl
    have hpath := ((spells_letters hletter).append hend (endsWord_cons rfl)).blank_cons ' ' rfl
    have hinner := hleft.append hpath (endsWord_cons rfl)
    have hgroup := hinner.operator_cons '(' [] rfl fun _ => rfl
    have hword := (spells_letters hquantifier).append hgroup (endsWord_cons rfl)
    simpa [render, tokens] using hword

end BranchingTime.Formula
