import BranchingTime.Token.Lexer

set_option autoImplicit false

/-! # Texts that spell tokens

A text spells tokens if they are what is read from it wherever it stands, up to the ranges of the
tokens (`Spells`). What follows the text may go on in any way but one: it must not begin with a name
character, as that would go on with the word at the end of the text. Texts that spell tokens can
thus be put together, and each sort of lexeme gives one to begin with. -/

namespace BranchingTime

/-! ## Tokens without ranges -/

namespace Token

/-- The same token, as one that comes from no text. -/
def bare (t : Token) : Token := { t with span := none }

@[simp] theorem bare_atom_withSpan (text : String) (s : Span) :
    ((atom text).withSpan s).bare = atom text := rfl

@[simp] theorem bare_operator_withSpan (text : String) (s : Span) :
    ((operator text).withSpan s).bare = operator text := rfl

end Token

theorem Lexeme.map_bare_letterTokens (p : Position) (cs : List Char) :
    (letterTokens p cs).map Token.bare = cs.map fun c => Token.operator c.toString := by
  induction cs generalizing p with
  | nil => rfl
  | cons c cs ih => simp only [letterTokens, List.map_cons, ih, Token.bare_operator_withSpan]

/-! ## One step of a cursor -/

namespace Cursor

variable {s s' : Cursor} {p : Position} {c : Char} {cs rest : List Char} {l : Lexeme}

/-- What is read from a place depends on the next step alone. -/
theorem tokens_congr (h : s.next = s'.next) : s.tokens = s'.tokens := by
  cases hs : s'.next with
  | error e => rw [tokens_of_error (h.trans hs), tokens_of_error hs]
  | ok r =>
    rcases r with _ | ⟨ts, s''⟩
    · rw [tokens_of_none (h.trans hs), tokens_of_none hs]
    · rw [tokens_of_some (h.trans hs), tokens_of_some hs]

theorem tokens_nil (p : Position) : (Cursor.mk p []).tokens = .ok [] := tokens_of_none rfl

/-- A blank counts for the position alone. -/
theorem tokens_blank (hc : isBlank c = true) :
    (Cursor.mk p (c :: cs)).tokens = (Cursor.mk (p.advance c) cs).tokens := by
  have hskip : (Cursor.mk p (c :: cs)).skipBlanks = (Cursor.mk (p.advance c) cs).skipBlanks := by
    simp [skipBlanks, hc]
  refine tokens_congr ?_
  simp only [next, hskip]

/-- A lexeme is read, and then what follows it. -/
theorem tokens_lexeme (hc : isBlank c = false)
    (hread : Lexeme.read c (cs ++ rest) = .ok (l, rest)) :
    (Cursor.mk p (c :: (cs ++ rest))).tokens =
      (Cursor.mk (p.after (c :: cs)) rest).tokens.map (l.tokens p ++ ·) := by
  have hsource : l.source = c :: cs := by
    have h : l.source ++ rest = (c :: cs) ++ rest := Lexeme.source_append_of_read hread
    exact List.append_cancel_right h
  have hskip : (Cursor.mk p (c :: (cs ++ rest))).skipBlanks = ⟨p, c :: (cs ++ rest)⟩ := by
    simp [skipBlanks, hc]
  refine tokens_of_some ?_
  simp only [next, hskip, hread, hsource]

end Cursor

/-! ## Spelling -/

/-- The characters do not go on with a word. -/
def EndsWord (cs : List Char) : Prop := ∀ c ∈ cs.head?, isNameChar c = false

/-- The tokens read from `cs`, and not from what follows it, are `ts` but for their ranges. -/
def Spells (cs : List Char) (ts : List Token) : Prop :=
  ∀ p rest, EndsWord rest → ∃ us, us.map Token.bare = ts ∧
    (Cursor.mk p (cs ++ rest)).tokens = (Cursor.mk (p.after cs) rest).tokens.map (us ++ ·)

variable {c d : Char} {cs ds rest : List Char} {ts us : List Token} {l : Lexeme} {text : String}

theorem endsWord_nil : EndsWord [] := by
  intro c hc
  cases hc

theorem endsWord_cons (hc : isNameChar c = false) : EndsWord (c :: cs) := by
  intro d hd
  cases hd
  exact hc

/-- What is left of a text behind its name characters does not go on with them. -/
theorem endsWord_dropWhile (cs : List Char) : EndsWord (cs.dropWhile isNameChar) := by
  intro c hc
  have hnot := List.head?_dropWhile_not isNameChar cs
  rwa [Option.mem_def.1 hc] at hnot

/-- A run of name characters ends where a word does. -/
theorem EndsWord.takeWhile_eq_nil (h : EndsWord cs) : cs.takeWhile isNameChar = [] := by
  cases cs with
  | nil => rfl
  | cons c cs =>
    have hc : isNameChar c = false := h c rfl
    simp [hc]

theorem EndsWord.dropWhile_eq_self (h : EndsWord cs) : cs.dropWhile isNameChar = cs := by
  cases cs with
  | nil => rfl
  | cons c cs =>
    have hc : isNameChar c = false := h c rfl
    simp [hc]

theorem EndsWord.of_append (h : EndsWord (cs ++ ds)) : EndsWord cs := by
  intro c hc
  refine h c ?_
  rw [List.head?_append, Option.mem_def.1 hc]
  rfl

theorem EndsWord.append (hcs : EndsWord cs) (hds : EndsWord ds) : EndsWord (cs ++ ds) := by
  cases cs with
  | nil => exact hds
  | cons c cs => exact hcs

/-- Tokens read in two pieces are read at once, and so is the error that ends them. -/
theorem map_append_map_append (x : Except SyntaxError (List Token)) (vs ws : List Token) :
    (x.map (ws ++ ·)).map (vs ++ ·) = x.map (vs ++ ws ++ ·) := by
  cases x with
  | error e => rfl
  | ok xs => simp [Except.map]

theorem Spells.append (hcs : Spells cs ts) (hds : Spells ds us) (hend : EndsWord ds) :
    Spells (cs ++ ds) (ts ++ us) := by
  intro p rest hrest
  obtain ⟨vs, hvs, hv⟩ := hcs p (ds ++ rest) (hend.append hrest)
  obtain ⟨ws, hws, hw⟩ := hds (p.after cs) rest hrest
  refine ⟨vs ++ ws, by rw [List.map_append, hvs, hws], ?_⟩
  rw [List.append_assoc, hv, hw, map_append_map_append, Position.after_append]

theorem Spells.blank_cons (c : Char) (h : Spells cs ts) (hc : isBlank c = true) :
    Spells (c :: cs) ts := by
  intro p rest hrest
  obtain ⟨us, hus, hu⟩ := h (p.advance c) rest hrest
  exact ⟨us, hus, (Cursor.tokens_blank hc).trans hu⟩

/-- A lexeme that is read whatever follows may stand directly before any text. -/
theorem Spells.lexeme_cons (ts : List Token) (h : Spells ds us) (hc : isBlank c = false)
    (hread : ∀ rest, Lexeme.read c (cs ++ rest) = .ok (l, rest))
    (hl : ∀ p, (l.tokens p).map Token.bare = ts) : Spells (c :: cs ++ ds) (ts ++ us) := by
  intro p rest hrest
  obtain ⟨vs, hvs, hv⟩ := h (p.after (c :: cs)) rest hrest
  refine ⟨l.tokens p ++ vs, by rw [List.map_append, hl, hvs], ?_⟩
  rw [List.append_assoc, List.cons_append, Cursor.tokens_lexeme hc (hread _), hv,
    map_append_map_append, Position.after_append]

theorem Spells.operator_cons (c : Char) (cs : List Char) (h : Spells ds us)
    (hc : isBlank c = false)
    (hread : ∀ rest, Lexeme.read c (cs ++ rest) = .ok (.operator (c :: cs), rest)) :
    Spells (c :: cs ++ ds) (Token.operator (String.ofList (c :: cs)) :: us) :=
  h.lexeme_cons [Token.operator (String.ofList (c :: cs))] hc hread fun _ => rfl

theorem spells_nil : Spells [] [] := by
  intro p rest _
  refine ⟨[], rfl, ?_⟩
  show (Cursor.mk p rest).tokens = (Cursor.mk p rest).tokens.map id
  rw [Except.map_id]
  rfl

/-! ## Lexemes -/

/-- A quoted atom is decided by the first character that does not go on with it. -/
theorem Lexeme.read_stop (hd : d = '\'' ∨ d = '"') (hcs : ∀ c ∈ cs, continuesQuote d c = true)
    (hc : continuesQuote d c = false) (rest : List Char) :
    read d (cs ++ c :: rest) =
      if c = '\\' then .error .backslashInQuotes
      else if cs.isEmpty then .error (.unknownCharacter d)
      else .ok (.quoted d cs, rest) := by
  unfold read readQuoted
  rw [if_pos hd, List.dropWhile_append_of_pos hcs, List.takeWhile_append_of_pos hcs]
  simp [hc]

theorem Lexeme.read_quoted (hd : d = '\'' ∨ d = '"') (hne : cs ≠ [])
    (hcs : ∀ c ∈ cs, continuesQuote d c = true) (rest : List Char) :
    read d ((cs ++ [d]) ++ rest) = .ok (.quoted d cs, rest) := by
  have hstop : continuesQuote d d = false := by simp [continuesQuote]
  have hd' : d ≠ '\\' := by rcases hd with rfl | rfl <;> decide
  have hne' : cs.isEmpty = false := by simpa using hne
  rw [List.append_assoc, List.singleton_append, read_stop hd hcs hstop, if_neg hd', hne']
  rfl

/-- Quotation marks spell every name that contains neither the mark nor a backslash. -/
theorem spells_quoted (hd : d = '\'' ∨ d = '"') (hne : cs ≠ [])
    (hcs : ∀ c ∈ cs, Lexeme.continuesQuote d c = true) :
    Spells (d :: (cs ++ [d])) [Token.atom (String.ofList cs)] := by
  have hblank : isBlank d = false := by rcases hd with rfl | rfl <;> rfl
  have h := spells_nil.lexeme_cons [Token.atom (String.ofList cs)] hblank
    (Lexeme.read_quoted hd hne hcs) fun _ => rfl
  rwa [List.append_nil, List.append_nil] at h

theorem Lexeme.read_literal (hc : c = 'T' ∨ c = 'F') (rest : List Char) :
    read '\\' ([c] ++ rest) = .ok (.literal c, rest) := by
  simp [read, hc]

/-- A backslash and a letter spell a literal. -/
theorem spells_literal (hc : c = 'T' ∨ c = 'F') :
    Spells ['\\', c] [Token.atom (String.ofList ['\\', c])] :=
  spells_nil.lexeme_cons [Token.atom (String.ofList ['\\', c])] rfl
    (Lexeme.read_literal hc) fun _ => rfl

/-- A word goes as far as there are name characters. -/
theorem Lexeme.read_word (hcs : ∀ e ∈ c :: cs, isNameChar e = true) (hrest : EndsWord rest) :
    read c (cs ++ rest) = .ok (.word (c :: cs), rest) := by
  have hc : isNameChar c = true := hcs c List.mem_cons_self
  have hcs' : ∀ e ∈ cs, isNameChar e = true := fun e he => hcs e (List.mem_cons_of_mem c he)
  have hne : ∀ e, isNameChar e = false → c ≠ e := by
    rintro e he rfl
    rw [hc] at he
    cases he
  simp [read, hc, hne _ (show isNameChar '\'' = false from rfl),
    hne _ (show isNameChar '"' = false from rfl), hne _ (show isNameChar '\\' = false from rfl),
    hne _ (show isNameChar '-' = false from rfl), hne _ (show isNameChar '&' = false from rfl),
    hne _ (show isNameChar '|' = false from rfl), hne _ (show isNameChar '!' = false from rfl),
    hne _ (show isNameChar '(' = false from rfl), hne _ (show isNameChar ')' = false from rfl),
    List.takeWhile_append_of_pos hcs', List.dropWhile_append_of_pos hcs', hrest.takeWhile_eq_nil,
    hrest.dropWhile_eq_self]

theorem spells_word (hcs : ∀ e ∈ c :: cs, isNameChar e = true)
    (hl : ∀ p, ((Lexeme.word (c :: cs)).tokens p).map Token.bare = ts) :
    Spells (c :: cs) ts := by
  intro p rest hrest
  have hblank : isBlank c = false := by
    cases hc : isBlank c with
    | false => rfl
    | true => exact absurd (isNameChar_eq_false_of_isBlank hc) (by simp [hcs])
  exact ⟨_, hl p, Cursor.tokens_lexeme hblank (Lexeme.read_word hcs hrest)⟩

/-- A word that has a letter which is not reserved spells an atom. -/
theorem spells_name (hcs : ∀ e ∈ c :: cs, isNameChar e = true)
    (hname : (c :: cs).all isReserved = false) :
    Spells (c :: cs) [Token.atom (String.ofList (c :: cs))] := by
  refine spells_word hcs fun p => ?_
  simp [Lexeme.tokens, hname]

/-- A word of reserved letters spells one operator for each. -/
theorem spells_letters (hcs : ∀ e ∈ c :: cs, isReserved e = true) :
    Spells (c :: cs) ((c :: cs).map fun e => Token.operator e.toString) := by
  refine spells_word (fun e he => isNameChar_of_isReserved (hcs e he)) fun p => ?_
  rw [Lexeme.tokens, if_pos (List.all_eq_true.2 hcs), Lexeme.map_bare_letterTokens]

/-! ## Whole texts -/

theorem Spells.tokenize (h : Spells text.toList ts) :
    ∃ us, us.map Token.bare = ts ∧ tokenize text = .ok us := by
  obtain ⟨us, hus, hu⟩ := h .start [] endsWord_nil
  refine ⟨us, hus, ?_⟩
  rw [BranchingTime.tokenize, Cursor.ofText, ← List.append_nil text.toList, hu, Cursor.tokens_nil]
  show Except.ok (us ++ []) = _
  rw [List.append_nil]

end BranchingTime
