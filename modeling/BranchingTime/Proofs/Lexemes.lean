import BranchingTime.Proofs.Attempts
import BranchingTime.Proofs.Lexing
import Mathlib.Data.List.TakeWhile

set_option autoImplicit false

/-! # The lexemes of a text

A lexeme that is read off a text has the form of its sort (`Lexeme.IsValid`): a quoted atom, for
one, has a body, and the body has neither a backslash nor the mark that ends it. All tokens of a
text come from such lexemes, so what the tokens of these have in common all tokens of a text have
(`forall_of_tokenize`). -/

namespace BranchingTime

namespace Lexeme

variable {d c : Char} {cs rest : List Char} {l : Lexeme}

/-! ## Forms of lexemes -/

/-- A lexeme that some text begins with. -/
inductive IsValid : Lexeme → Prop where
  | quoted {delimiter : Char} {body : List Char} (hd : delimiter = '\'' ∨ delimiter = '"')
      (hne : body ≠ []) (hbody : ∀ c ∈ body, continuesQuote delimiter c = true) :
      IsValid (quoted delimiter body)
  | literal {letter : Char} (hletter : letter = 'T' ∨ letter = 'F') : IsValid (literal letter)
  | operator {text : List Char}
      (htext : text ∈ [['&'], ['|'], ['!'], ['('], [')'], ['-', '>']]) : IsValid (operator text)
  | word {letters : List Char} (hne : letters ≠ [])
      (hletters : ∀ c ∈ letters, isNameChar c = true) : IsValid (word letters)

theorem isValid_of_readQuoted (hd : d = '\'' ∨ d = '"') (h : readQuoted d cs = .ok (l, rest)) :
    l.IsValid := by
  unfold readQuoted at h
  split at h
  · cases h
  · dsimp only at h
    split at h
    · cases h
    · split at h
      · cases h
      · next hne =>
        cases h
        exact .quoted hd (by simpa using hne) fun c hc => List.mem_takeWhile_imp hc

theorem isValid_of_read (h : read c cs = .ok (l, rest)) : l.IsValid := by
  unfold read at h
  split at h
  · next hd => exact isValid_of_readQuoted hd h
  split at h
  · split at h
    · split at h
      · next hletter =>
        cases h
        exact .literal hletter
      · cases h
    · cases h
  split at h
  · split at h
    · cases h
      exact .operator (by simp)
    · cases h
  split at h
  · next hsign =>
    cases h
    refine .operator ?_
    rcases hsign with rfl | rfl | rfl | rfl | rfl <;> simp
  split at h
  · next hc =>
    cases h
    refine .word (by simp) ?_
    rw [List.forall_mem_cons]
    exact ⟨hc, fun e he => List.mem_takeWhile_imp he⟩
  · cases h

theorem IsValid.tokens_ne_nil (hl : l.IsValid) (p : Position) : l.tokens p ≠ [] := by
  cases hl with
  | word hne =>
    rw [tokens]
    split
    · obtain ⟨b, bs, rfl⟩ := List.exists_cons_of_ne_nil hne
      simp [letterTokens]
    · simp
  | _ => simp [tokens]

end Lexeme

/-! ## Reading on -/

namespace Cursor

variable {s s' : Cursor} {p : Position} {c : Char} {cs ds : List Char} {ts : List Token}
  {e : SyntaxError}

/-- What is read from a character that is not blank. -/
theorem next_cons (hc : isBlank c = false) :
    (Cursor.mk p (c :: cs)).next =
      (Lexeme.read c cs).map fun r => some (r.1.tokens p, ⟨p.after r.1.source, r.2⟩) := by
  have hskip : (Cursor.mk p (c :: cs)).skipBlanks = ⟨p, c :: cs⟩ := by simp [skipBlanks, hc]
  cases hread : Lexeme.read c cs <;> simp only [next, hskip, hread] <;> rfl

theorem tokens_of_read_error (hc : isBlank c = false) (hread : Lexeme.read c cs = .error e) :
    (Cursor.mk p (c :: cs)).tokens = .error e := by
  refine tokens_of_error ?_
  rw [next_cons hc, hread]
  rfl

theorem exists_lexeme_of_tokens (hc : isBlank c = false)
    (h : (Cursor.mk p (c :: cs)).tokens = .ok ts) :
    ∃ l rest us, Lexeme.read c cs = .ok (l, rest) ∧ ts = l.tokens p ++ us := by
  cases hread : Lexeme.read c cs with
  | error e =>
    rw [tokens_of_read_error hc hread] at h
    cases h
  | ok r =>
    have hnext : (Cursor.mk p (c :: cs)).next = _ := next_cons hc
    rw [hread] at hnext
    rw [tokens_of_some hnext] at h
    obtain ⟨us, -, rfl⟩ := map_eq_ok.1 h
    exact ⟨r.1, r.2, us, rfl, rfl⟩

theorem tokens_blanks (hcs : ∀ c ∈ cs, isBlank c = true) :
    (Cursor.mk p (cs ++ ds)).tokens = (Cursor.mk (p.after cs) ds).tokens := by
  induction cs generalizing p with
  | nil => rfl
  | cons c cs ih =>
    rw [List.forall_mem_cons] at hcs
    rw [List.cons_append, tokens_blank hcs.1, ih hcs.2]
    rfl

/-! ## Tokens of a text -/

theorem exists_lexeme_of_next (h : s.next = .ok (some (ts, s'))) :
    ∃ (l : Lexeme) (p : Position), l.IsValid ∧ ts = l.tokens p := by
  unfold next at h
  split at h
  · cases h
  · split at h
    · cases h
    · next hread =>
      cases h
      exact ⟨_, _, Lexeme.isValid_of_read hread, rfl⟩

/-- What holds of the tokens of all lexemes holds of all that is read. -/
theorem forall_of_tokens {P : Token → Prop}
    (hP : ∀ l : Lexeme, l.IsValid → ∀ p, ∀ t ∈ l.tokens p, P t) (h : s.tokens = .ok ts) :
    ∀ t ∈ ts, P t := by
  induction s using Cursor.tokens.induct generalizing ts with
  | case1 s e hnext =>
    rw [tokens_of_error hnext] at h
    cases h
  | case2 s hnext =>
    rw [tokens_of_none hnext] at h
    cases h
    simp
  | case3 s us s' hnext hlt ih =>
    obtain ⟨l, p, hl, rfl⟩ := exists_lexeme_of_next hnext
    rw [tokens_of_some hnext] at h
    obtain ⟨vs, hrest, rfl⟩ := map_eq_ok.1 h
    rw [List.forall_mem_append]
    exact ⟨hP l hl p, ih hrest⟩

end Cursor

theorem tokens_of_tokenize {text : String} {ts : List Token} (h : tokenize text = .ok ts) :
    (Cursor.ofText text).tokens = .ok ts := by
  rw [tokenize] at h
  cases htokens : (Cursor.ofText text).tokens with
  | error e =>
    rw [htokens] at h
    cases h
  | ok us =>
    rw [htokens] at h
    cases h
    rfl

theorem forall_of_tokenize {text : String} {ts : List Token} {P : Token → Prop}
    (hP : ∀ l : Lexeme, l.IsValid → ∀ p, ∀ t ∈ l.tokens p, P t) (h : tokenize text = .ok ts) :
    ∀ t ∈ ts, P t :=
  Cursor.forall_of_tokens hP (tokens_of_tokenize h)

end BranchingTime
