import BranchingTime.Error
import BranchingTime.Text.Alphabet
import BranchingTime.Token.Basic

set_option autoImplicit false

/-! # Lexemes

A lexeme is a piece of formula text that stands for itself: a quoted atom, a literal, an operator,
or a word. `Lexeme.source` writes a lexeme, `Lexeme.read` takes the first one off a text, and
`Lexeme.tokens` says which tokens it stands for. A word of reserved letters alone stands for one
operator per letter, so `AG` is two tokens and `AGp` one. Reading loses nothing: the source of the
lexeme read, followed by the rest, is the text (`Lexeme.source_append_of_read`). -/

namespace BranchingTime

/-- A piece of formula text. -/
inductive Lexeme where
  /-- An atom between two equal quotation marks. -/
  | quoted (delimiter : Char) (body : List Char)
  /-- A backslash and a letter, `T` or `F`. -/
  | literal (letter : Char)
  /-- One of `&`, `|`, `!`, `(`, `)` and `->`. -/
  | operator (text : List Char)
  /-- A run of name characters. -/
  | word (letters : List Char)
deriving DecidableEq, Repr

namespace Lexeme

/-- The characters that a lexeme is written with. -/
def source : Lexeme → List Char
  | quoted d body => d :: (body ++ [d])
  | literal b => ['\\', b]
  | operator text => text
  | word letters => letters

/-! ## Tokens of a lexeme -/

/-- One operator per letter, each with a range of its own. -/
def letterTokens : Position → List Char → List Token
  | _, [] => []
  | p, c :: cs =>
    (Token.operator c.toString).withSpan ⟨p, p.advance c⟩ :: letterTokens (p.advance c) cs

/-- The tokens that a lexeme standing at `p` stands for. -/
def tokens (p : Position) (l : Lexeme) : List Token :=
  let span : Span := ⟨p, p.after l.source⟩
  match l with
  | quoted _ body => [(Token.atom (String.ofList body)).withSpan span]
  | literal b => [(Token.atom (String.ofList ['\\', b])).withSpan span]
  | operator text => [(Token.operator (String.ofList text)).withSpan span]
  | word letters =>
    if letters.all isReserved then letterTokens p letters
    else [(Token.atom (String.ofList letters)).withSpan span]

/-! ## Reading a lexeme -/

/-- Whether a quoted atom delimited by `d` goes on after `c`. -/
def continuesQuote (d c : Char) : Bool := c != d && c != '\\'

/-- Read a quoted atom whose opening delimiter `d` has been passed. Its body ends at the first
    closing delimiter, has to end before any backslash, and must not be empty. -/
def readQuoted (d : Char) (cs : List Char) : Except SyntaxError (Lexeme × List Char) :=
  match cs.dropWhile (continuesQuote d) with
  | [] => .error (.unterminated d)
  | c :: rest =>
    let body := cs.takeWhile (continuesQuote d)
    if c = '\\' then .error .backslashInQuotes
    else if body.isEmpty then .error (.unknownCharacter d)
    else .ok (.quoted d body, rest)

/-- Read the lexeme that begins with `c`, followed by `cs`; with it comes what follows it. -/
def read (c : Char) (cs : List Char) : Except SyntaxError (Lexeme × List Char) :=
  if c = '\'' ∨ c = '"' then
    readQuoted c cs
  else if c = '\\' then
    match cs with
    | b :: rest =>
      if b = 'T' ∨ b = 'F' then .ok (.literal b, rest) else .error (.unknownCharacter c)
    | [] => .error (.unknownCharacter c)
  else if c = '-' then
    match cs with
    | '>' :: rest => .ok (.operator ['-', '>'], rest)
    | _ => .error (.unknownCharacter c)
  else if c = '&' ∨ c = '|' ∨ c = '!' ∨ c = '(' ∨ c = ')' then
    .ok (.operator [c], cs)
  else if isNameChar c then
    .ok (.word (c :: cs.takeWhile isNameChar), cs.dropWhile isNameChar)
  else
    .error (.unknownCharacter c)

theorem source_append_of_readQuoted {d : Char} (hd : d ≠ '\\') {cs rest : List Char} {l : Lexeme}
    (h : readQuoted d cs = .ok (l, rest)) : l.source ++ rest = d :: cs := by
  unfold readQuoted at h
  split at h
  · cases h
  · next c rest' hdrop =>
    have hstop : continuesQuote d c = false := by
      have := List.head?_dropWhile_not (continuesQuote d) cs
      simpa [hdrop] using this
    dsimp only at h
    split at h
    · cases h
    · next hc =>
      have hcd : c = d := by
        simpa [continuesQuote, hc] using hstop
      split at h
      · cases h
      · cases h
        have := List.takeWhile_append_dropWhile (p := continuesQuote d) (l := cs)
        rw [hdrop] at this
        subst hcd
        simp only [source, List.cons_append, List.append_assoc, List.nil_append]
        rw [this]

/-- Reading loses nothing. -/
theorem source_append_of_read {c : Char} {cs rest : List Char} {l : Lexeme}
    (h : read c cs = .ok (l, rest)) : l.source ++ rest = c :: cs := by
  unfold read at h
  split at h
  · next hq => exact source_append_of_readQuoted (by rcases hq with rfl | rfl <;> decide) h
  split at h
  · next hb =>
    subst hb
    split at h
    · split at h
      · cases h; rfl
      · cases h
    · cases h
  split at h
  · next hm =>
    subst hm
    split at h
    · cases h; rfl
    · cases h
  split at h
  · cases h; rfl
  split at h
  · cases h
    simp [source, List.takeWhile_append_dropWhile]
  · cases h

/-- A lexeme is written with at least one character. -/
theorem source_ne_nil_of_read {c : Char} {cs rest : List Char} {l : Lexeme}
    (h : read c cs = .ok (l, rest)) : l.source ≠ [] := by
  unfold read readQuoted at h
  grind [source]

/-- Reading a lexeme shortens the text. -/
theorem length_lt_of_read {c : Char} {cs rest : List Char} {l : Lexeme}
    (h : read c cs = .ok (l, rest)) : rest.length < (c :: cs).length := by
  have hlen := congrArg List.length (source_append_of_read h)
  have hpos := List.length_pos_iff.2 (source_ne_nil_of_read h)
  rw [List.length_append] at hlen
  omega

end Lexeme

end BranchingTime
