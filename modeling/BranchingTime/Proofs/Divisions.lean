import BranchingTime.Proofs.Lexemes
import Mathlib.Data.List.Chain
import Mathlib.Tactic.Tauto

set_option autoImplicit false

/-! # The lexical grammar of formula text

A text is divided into pieces, each of them a lexeme or a run of blanks. A run of blanks may be
empty, and no two words stand side by side, as they would be one word. The grammar says which texts
can be divided, and which tokens a division has; it knows nothing of reading from left to right.

The texts that can be divided are those that are read, and the tokens read are those of every
division (`tokenize_iff_division`). One direction holds as a division spells its tokens wherever it
stands (`Division.IsValid.spells`); the other one puts together, lexeme by lexeme, what a cursor
goes past (`Cursor.exists_division`). -/

namespace BranchingTime

/-! ## Lexemes that stand nowhere -/

namespace Lexeme

variable {c : Char} {cs ds rest : List Char} {us : List Token} {l : Lexeme}

/-- The tokens that a lexeme stands for, wherever it is. -/
def bareTokens : Lexeme → List Token
  | quoted _ body => [Token.atom (String.ofList body)]
  | literal letter => [Token.atom (String.ofList ['\\', letter])]
  | operator text => [Token.operator (String.ofList text)]
  | word letters =>
    if letters.all isReserved then letters.map fun c => Token.operator c.toString
    else [Token.atom (String.ofList letters)]

/-- Whether the lexeme is a run of name characters. -/
def isWord : Lexeme → Bool
  | word _ => true
  | _ => false

theorem map_bare_tokens (l : Lexeme) (p : Position) :
    (l.tokens p).map Token.bare = l.bareTokens := by
  cases l with
  | word letters =>
    simp only [tokens, bareTokens]
    split
    · exact map_bare_letterTokens p letters
    · rfl
  | _ => rfl

theorem IsValid.source_ne_nil (hl : l.IsValid) : l.source ≠ [] := by
  cases hl with
  | operator htext =>
    rintro rfl
    simp at htext
  | word hne => exact hne
  | _ => simp [source]

/-- A word that is read goes as far as there are name characters. -/
theorem endsWord_of_read (h : read c cs = .ok (l, rest)) (hword : l.isWord = true) :
    EndsWord rest := by
  have hdrop := endsWord_dropWhile cs
  unfold read readQuoted at h
  grind [isWord]

theorem IsValid.isBlank_eq_false (hl : l.IsValid) (hsource : l.source = c :: cs) :
    isBlank c = false := by
  cases hl with
  | quoted hd =>
    cases hsource
    rcases hd with rfl | rfl <;> rfl
  | literal =>
    cases hsource
    rfl
  | operator htext =>
    simp only [List.mem_cons, List.not_mem_nil, or_false] at htext
    rcases htext with rfl | rfl | rfl | rfl | rfl | rfl <;> cases hsource <;> rfl
  | word hne hletters =>
    cases hsource
    have hc : isNameChar c = true := hletters c List.mem_cons_self
    cases hblank : isBlank c with
    | false => rfl
    | true => exact absurd (isNameChar_eq_false_of_isBlank hblank) (by simp [hc])

/-- A lexeme is read off every text that begins with it, but a word off none that goes on with it. -/
theorem IsValid.read_append (hl : l.IsValid) (hsource : l.source = c :: cs)
    (hend : l.isWord = true → EndsWord rest) : read c (cs ++ rest) = .ok (l, rest) := by
  cases hl with
  | quoted hd hne hbody =>
    cases hsource
    exact read_quoted hd hne hbody rest
  | literal hletter =>
    cases hsource
    exact read_literal hletter rest
  | operator htext =>
    simp only [List.mem_cons, List.not_mem_nil, or_false] at htext
    rcases htext with rfl | rfl | rfl | rfl | rfl | rfl <;> cases hsource <;> rfl
  | word hne hletters =>
    cases hsource
    exact read_word hletters (hend rfl)

theorem IsValid.tokens_append (hl : l.IsValid) (hend : l.isWord = true → EndsWord rest)
    (p : Position) :
    (Cursor.mk p (l.source ++ rest)).tokens =
      (Cursor.mk (p.after l.source) rest).tokens.map (l.tokens p ++ ·) := by
  obtain ⟨c, cs, hsource⟩ := List.exists_cons_of_ne_nil hl.source_ne_nil
  rw [hsource]
  exact Cursor.tokens_lexeme (hl.isBlank_eq_false hsource) (hl.read_append hsource hend)

/-- A lexeme may stand directly before any text, but a word not before one that goes on with it. -/
theorem IsValid.spells_append (hl : l.IsValid) (h : Spells ds us)
    (hend : l.isWord = true → EndsWord ds) : Spells (l.source ++ ds) (l.bareTokens ++ us) := by
  intro p rest hrest
  obtain ⟨vs, hvs, hv⟩ := h (p.after l.source) rest hrest
  refine ⟨l.tokens p ++ vs, by rw [List.map_append, map_bare_tokens, hvs], ?_⟩
  rw [List.append_assoc, hl.tokens_append (fun hword => (hend hword).append hrest), hv,
    map_append_map_append, Position.after_append]

end Lexeme

/-! ## Pieces -/

/-- A piece of a text. -/
inductive Piece where
  | lexeme (l : Lexeme)
  /-- A run of blanks, or nothing. -/
  | blanks (cs : List Char)
deriving DecidableEq, Repr

namespace Piece

variable {p : Piece} {c : Char} {cs : List Char}

/-- The characters of the piece. -/
def source : Piece → List Char
  | lexeme l => l.source
  | blanks cs => cs

/-- The tokens that the piece stands for. -/
def tokens : Piece → List Token
  | lexeme l => l.bareTokens
  | blanks _ => []

/-- Whether the piece is a run of name characters. -/
def isWord : Piece → Bool
  | lexeme l => l.isWord
  | blanks _ => false

/-- A piece that a text can have. -/
inductive IsValid : Piece → Prop where
  | lexeme {l : Lexeme} (hl : l.IsValid) : IsValid (lexeme l)
  | blanks {cs : List Char} (hcs : ∀ c ∈ cs, isBlank c = true) : IsValid (blanks cs)

/-- The first character of a piece tells whether the piece is a word. -/
theorem IsValid.isNameChar_eq (hp : p.IsValid) (hsource : p.source = c :: cs) :
    isNameChar c = p.isWord := by
  cases hp with
  | blanks hcs =>
    obtain rfl : _ = c :: cs := hsource
    exact isNameChar_eq_false_of_isBlank (hcs c List.mem_cons_self)
  | lexeme hl =>
    cases hl with
    | quoted hd =>
      obtain rfl := (List.cons.inj hsource).1
      rcases hd with rfl | rfl <;> rfl
    | literal =>
      obtain rfl := (List.cons.inj hsource).1
      rfl
    | @operator text htext =>
      obtain rfl : text = c :: cs := hsource
      have hc : c = '&' ∨ c = '|' ∨ c = '!' ∨ c = '(' ∨ c = ')' ∨ c = '-' := by
        simp only [List.mem_cons, List.cons.injEq, List.not_mem_nil, or_false] at htext
        tauto
      rcases hc with rfl | rfl | rfl | rfl | rfl | rfl <;> rfl
    | @word letters hne hletters =>
      obtain rfl : letters = c :: cs := hsource
      exact hletters c List.mem_cons_self

end Piece

/-! ## Divisions -/

/-- A text in pieces. -/
abbrev Division := List Piece

namespace Division

variable {d : Division} {p : Piece} {cs ds : List Char} {ts : List Token} {l : Lexeme}

/-- The text that is divided. -/
def source (d : Division) : List Char := d.flatMap Piece.source

/-- The tokens of the pieces, one after the other. -/
def tokens (d : Division) : List Token := d.flatMap Piece.tokens

/-- The pieces that have a character. -/
def solid (d : Division) : Division := d.filter fun p => !p.source.isEmpty

/-- All pieces are pieces of text, and of two that stand side by side one is no word. -/
structure IsValid (d : Division) : Prop where
  pieces : ∀ p ∈ d, p.IsValid
  apart : d.solid.IsChain fun p q => p.isWord = true → q.isWord = false

@[simp] theorem source_cons (p : Piece) (d : Division) : source (p :: d) = p.source ++ d.source :=
  rfl

@[simp] theorem tokens_cons (p : Piece) (d : Division) : tokens (p :: d) = p.tokens ++ d.tokens :=
  rfl

theorem solid_cons_of_eq_nil (d : Division) (h : p.source = []) : solid (p :: d) = d.solid := by
  simp [solid, h]

theorem solid_cons_of_ne_nil (d : Division) (h : p.source ≠ []) :
    solid (p :: d) = p :: d.solid := by
  simp [solid, h]

theorem isValid_nil : IsValid [] :=
  ⟨by simp, .nil⟩

/-- A divided text does not go on with a word if its first character is none of a word's. -/
theorem endsWord_source_iff (hd : ∀ p ∈ d, p.IsValid) :
    EndsWord d.source ↔ ∀ p ∈ d.solid.head?, p.isWord = false := by
  induction d with
  | nil => simp [source, solid, EndsWord]
  | cons p d ih =>
    rw [List.forall_mem_cons] at hd
    by_cases hp : p.source = []
    · rw [source_cons, hp, List.nil_append, ih hd.2, solid_cons_of_eq_nil d hp]
    · obtain ⟨c, cs, hcs⟩ := List.exists_cons_of_ne_nil hp
      rw [solid_cons_of_ne_nil d hp]
      simp [EndsWord, hcs, hd.1.isNameChar_eq hcs]

theorem IsValid.of_cons (h : IsValid (p :: d)) : d.IsValid := by
  refine ⟨fun q hq => h.pieces q (List.mem_cons_of_mem p hq), ?_⟩
  have hapart := h.apart
  by_cases hp : p.source = []
  · rwa [solid_cons_of_eq_nil d hp] at hapart
  · rw [solid_cons_of_ne_nil d hp] at hapart
    exact hapart.tail

/-- Behind a word the text does not go on with it. -/
theorem IsValid.endsWord (h : IsValid (p :: d)) (hp : p.source ≠ []) (hword : p.isWord = true) :
    EndsWord d.source := by
  have hapart := h.apart
  rw [solid_cons_of_ne_nil d hp, List.isChain_cons] at hapart
  rw [endsWord_source_iff h.of_cons.pieces]
  exact fun q hq => hapart.1 q hq hword

/-- A piece goes in front of a division unless it is a word that the text goes on with. -/
theorem IsValid.cons (hp : p.IsValid) (h : d.IsValid)
    (hend : p.isWord = true → EndsWord d.source) : IsValid (p :: d) := by
  refine ⟨List.forall_mem_cons.2 ⟨hp, h.pieces⟩, ?_⟩
  by_cases hsource : p.source = []
  · rw [solid_cons_of_eq_nil d hsource]
    exact h.apart
  · rw [solid_cons_of_ne_nil d hsource, List.isChain_cons]
    exact ⟨fun q hq hword => (endsWord_source_iff h.pieces).1 (hend hword) q hq, h.apart⟩

theorem spells_blanks_append (hcs : ∀ c ∈ cs, isBlank c = true) (h : Spells ds ts) :
    Spells (cs ++ ds) ts := by
  induction cs with
  | nil => exact h
  | cons c cs ih =>
    rw [List.forall_mem_cons] at hcs
    exact (ih hcs.2).blank_cons c hcs.1

/-- **A division spells its tokens.** -/
theorem IsValid.spells (h : d.IsValid) : Spells d.source d.tokens := by
  induction d with
  | nil => exact spells_nil
  | cons p d ih =>
    have hrest := ih h.of_cons
    have hp : p.IsValid := h.pieces p List.mem_cons_self
    rw [source_cons, tokens_cons]
    cases hp with
    | blanks hcs => exact spells_blanks_append hcs hrest
    | lexeme hl => exact hl.spells_append hrest (h.endsWord hl.source_ne_nil)

end Division

/-! ## What a cursor goes past -/

namespace Cursor

variable {s s' : Cursor} {ts : List Token}

theorem forall_isBlank_of_next (h : s.next = .ok none) : ∀ c ∈ s.rest, isBlank c = true := by
  unfold next at h
  split at h
  · next hskip =>
    have hdrop : s.rest.dropWhile isBlank = [] := (Cursor.mk.inj hskip).2
    simpa using hdrop
  · split at h <;> simp at h

/-- From `s` to `s'` there are the blanks `gap` and the lexeme `l`, which is the whole word if it is a
    word. -/
structure Passes (s s' : Cursor) (gap : List Char) (l : Lexeme) : Prop where
  blank : ∀ c ∈ gap, isBlank c = true
  valid : l.IsValid
  rest : s.rest = gap ++ (l.source ++ s'.rest)
  position : s'.position = (s.position.after gap).after l.source
  endsWord : l.isWord = true → EndsWord s'.rest

/-- A step goes past blanks and a lexeme, and gives the tokens of the lexeme where it stands. -/
theorem exists_passes_of_next (h : s.next = .ok (some (ts, s'))) :
    ∃ gap l, s.Passes s' gap l ∧ ts = l.tokens (s.position.after gap) := by
  unfold next at h
  split at h
  · simp at h
  · next p c cs hskip =>
    obtain ⟨rfl, hdrop⟩ := Cursor.mk.inj hskip
    split at h
    · simp at h
    · next l rest hread =>
      cases h
      refine ⟨s.rest.takeWhile isBlank, l, ⟨fun b hb => List.mem_takeWhile_imp hb,
        Lexeme.isValid_of_read hread, ?_, rfl, Lexeme.endsWord_of_read hread⟩, rfl⟩
      rw [Lexeme.source_append_of_read hread, ← hdrop, List.takeWhile_append_dropWhile]

/-- **A text that is read is divided into the lexemes read**, and the blanks between them. -/
theorem exists_division (h : s.tokens = .ok ts) :
    ∃ d : Division, d.IsValid ∧ d.source = s.rest ∧ d.tokens = ts.map Token.bare := by
  induction s using Cursor.tokens.induct generalizing ts with
  | case1 s e hnext =>
    rw [tokens_of_error hnext] at h
    cases h
  | case2 s hnext =>
    rw [tokens_of_none hnext] at h
    cases h
    refine ⟨[.blanks s.rest], ?_, by simp [Division.source, Piece.source], rfl⟩
    exact .cons (.blanks (forall_isBlank_of_next hnext)) Division.isValid_nil (by simp [Piece.isWord])
  | case3 s us s' hnext hlt ih =>
    rw [tokens_of_some hnext] at h
    obtain ⟨vs, hrest, rfl⟩ := map_eq_ok.1 h
    obtain ⟨gap, l, hpasses, rfl⟩ := exists_passes_of_next hnext
    obtain ⟨d, hd, hdsource, hdtokens⟩ := ih hrest
    have hfront : Division.IsValid (.lexeme l :: d) :=
      .cons (.lexeme hpasses.valid) hd (hdsource ▸ hpasses.endsWord)
    refine ⟨.blanks gap :: .lexeme l :: d,
      .cons (.blanks hpasses.blank) hfront (by simp [Piece.isWord]), ?_, ?_⟩
    · simp [Piece.source, hdsource, hpasses.rest]
    · simp [Piece.tokens, hdtokens, l.map_bare_tokens]

end Cursor

/-! ## The texts that are read -/

/-- **A text is read exactly if it can be divided, and what is read are the tokens of every
    division.** A text that cannot be divided is malformed. -/
theorem tokenize_iff_division (text : String) :
    (∀ ts : List Token, (∃ us, tokenize text = .ok us ∧ us.map Token.bare = ts) ↔
      ∃ d : Division, d.IsValid ∧ d.source = text.toList ∧ d.tokens = ts) ∧
    (∀ d d' : Division, d.IsValid → d'.IsValid → d.source = text.toList →
      d'.source = text.toList → d.tokens = d'.tokens) ∧
    ((¬ ∃ d : Division, d.IsValid ∧ d.source = text.toList) →
      ∃ e, tokenize text = .error (.malformed e)) := by
  have hread : ∀ d : Division, d.IsValid → d.source = text.toList →
      ∃ us, us.map Token.bare = d.tokens ∧ tokenize text = .ok us := by
    intro d hd hsource
    exact (hsource ▸ hd.spells).tokenize
  refine ⟨fun ts => ⟨?_, ?_⟩, ?_, ?_⟩
  · rintro ⟨us, hus, rfl⟩
    exact Cursor.exists_division (tokens_of_tokenize hus)
  · rintro ⟨d, hd, hsource, rfl⟩
    obtain ⟨us, hus, htokenize⟩ := hread d hd hsource
    exact ⟨us, htokenize, hus⟩
  · intro d d' hd hd' hsource hsource'
    obtain ⟨us, hus, htokenize⟩ := hread d hd hsource
    obtain ⟨us', hus', htokenize'⟩ := hread d' hd' hsource'
    rw [← hus, ← hus', Except.ok.inj (htokenize.symm.trans htokenize')]
  · intro hnone
    unfold tokenize
    cases htokens : (Cursor.ofText text).tokens with
    | error e => exact ⟨e, rfl⟩
    | ok ts =>
      obtain ⟨d, hd, hsource, -⟩ := Cursor.exists_division htokens
      exact absurd ⟨d, hd, hsource⟩ hnone

/-- A division of `EX'a b'Up`: the first word stands for two operators, the blank belongs to an atom,
    and the last word is an atom, though it begins with the letter of an operator. -/
def touching : Division :=
  [.lexeme (.word ['E', 'X']), .blanks [], .lexeme (.quoted '\'' ['a', ' ', 'b']),
    .lexeme (.word ['U', 'p'])]

theorem tokenize_iff_division_touching :
    touching.IsValid ∧ touching.source = "EX'a b'Up".toList ∧
    (∃ us, tokenize "EX'a b'Up" = .ok us ∧
      us.map Token.bare = [.operator "E", .operator "X", .atom "a b", .atom "Up"]) ∧
    (∀ d : Division, d.IsValid → d.source = "EX'a b'Up".toList →
      d.tokens = [.operator "E", .operator "X", .atom "a b", .atom "Up"]) ∧
    ∃ e, tokenize "-" = .error (.malformed e) := by
  have hvalid : touching.IsValid := by
    refine ⟨?_, ?_⟩
    · simp only [touching, List.forall_mem_cons]
      exact ⟨.lexeme (.word nofun (List.all_eq_true.1 rfl)), .blanks nofun,
        .lexeme (.quoted (Or.inl rfl) nofun (List.all_eq_true.1 rfl)),
        .lexeme (.word nofun (List.all_eq_true.1 rfl)), nofun⟩
    · decide
  have hsource : touching.source = "EX'a b'Up".toList := rfl
  obtain ⟨hiff, hsame, -⟩ := tokenize_iff_division "EX'a b'Up"
  obtain ⟨hiff', -, hrefused⟩ := tokenize_iff_division "-"
  refine ⟨hvalid, hsource, (hiff _).2 ⟨touching, hvalid, hsource, rfl⟩,
    fun d hd hd' => hsame d touching hd hvalid hd' hsource, hrefused ?_⟩
  rintro ⟨d, hd, hd'⟩
  obtain ⟨us, hus, -⟩ := (hiff' _).2 ⟨d, hd, hd', rfl⟩
  have herror : (Cursor.ofText "-").next = .error (.unknownCharacter '-') := rfl
  simp [tokenize, Cursor.tokens_of_error herror, Except.mapError] at hus

end BranchingTime
