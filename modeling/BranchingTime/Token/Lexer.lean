import BranchingTime.Token.Lexeme

set_option autoImplicit false

/-! # From text to tokens

A `Cursor` stands somewhere in a text. One step skips the blanks ahead and reads one lexeme, and it
shortens what is left (`Cursor.length_lt_of_next`). There are two ways to use it: `tokenize` reads a
whole text and gives all tokens or the first error, and a `Lexer` hands out one token at a time,
reading no further than it has to. After an error a lexer has nothing more to give. -/

namespace BranchingTime

/-! ## Reading lexeme by lexeme -/

/-- A place in a text, and the text from there on. -/
structure Cursor where
  position : Position
  rest : List Char
deriving DecidableEq, Repr

namespace Cursor

/-- The beginning of a text. -/
def ofText (text : String) : Cursor := ⟨.start, text.toList⟩

/-- Go past the blanks ahead. -/
def skipBlanks (s : Cursor) : Cursor :=
  ⟨s.position.after (s.rest.takeWhile isBlank), s.rest.dropWhile isBlank⟩

/-- The tokens of the next lexeme, and the place behind it; nothing at the end of the text. -/
def next (s : Cursor) : Except SyntaxError (Option (List Token × Cursor)) :=
  match s.skipBlanks with
  | ⟨_, []⟩ => .ok none
  | ⟨p, c :: cs⟩ =>
    match Lexeme.read c cs with
    | .error e => .error e
    | .ok (l, rest) => .ok (some (l.tokens p, ⟨p.after l.source, rest⟩))

theorem length_skipBlanks_le (s : Cursor) : s.skipBlanks.rest.length ≤ s.rest.length :=
  (List.dropWhile_suffix _).length_le

/-- A step shortens the text that is left. -/
theorem length_lt_of_next {s s' : Cursor} {ts : List Token} (h : s.next = .ok (some (ts, s'))) :
    s'.rest.length < s.rest.length := by
  have hle := s.length_skipBlanks_le
  unfold next at h
  split at h
  · cases h
  · next hskip =>
    split at h
    · cases h
    · next hread =>
      cases h
      have := Lexeme.length_lt_of_read hread
      rw [hskip] at hle
      exact Nat.lt_of_lt_of_le this hle

/-- All tokens from here to the end of the text. -/
def tokens (s : Cursor) : Except SyntaxError (List Token) :=
  match h : s.next with
  | .error e => .error e
  | .ok none => .ok []
  | .ok (some (ts, s')) =>
    have : s'.rest.length < s.rest.length := length_lt_of_next h
    (s'.tokens).map (ts ++ ·)
termination_by s.rest.length

theorem tokens_of_error {s : Cursor} {e : SyntaxError} (h : s.next = .error e) :
    s.tokens = .error e := by
  rw [tokens]
  split <;> simp_all

theorem tokens_of_none {s : Cursor} (h : s.next = .ok none) : s.tokens = .ok [] := by
  rw [tokens]
  split <;> simp_all

theorem tokens_of_some {s s' : Cursor} {ts : List Token} (h : s.next = .ok (some (ts, s'))) :
    s.tokens = s'.tokens.map (ts ++ ·) := by
  rw [tokens]
  split <;> simp_all

end Cursor

/-- All tokens of a text, or the first error in it. -/
def tokenize (text : String) : Except Error (List Token) :=
  (Cursor.ofText text).tokens.mapError .malformed

/-! ## Reading token by token -/

/-- A text that is read on demand. -/
structure Lexer where
  cursor : Cursor
  /-- Tokens of the last lexeme that have not been handed out. -/
  pending : List Token
  /-- Whether an error has been handed out. -/
  failed : Bool
deriving DecidableEq, Repr

namespace Lexer

/-- A text of which nothing has been read. -/
def ofText (text : String) : Lexer := ⟨.ofText text, [], false⟩

/-- Hand out the next token or error; nothing at the end of the text and after an error. -/
def next (l : Lexer) : Option (Except Error Token) × Lexer :=
  match l.pending with
  | t :: ts => (some (.ok t), { l with pending := ts })
  | [] =>
    if l.failed then (none, l)
    else
      match l.cursor.next with
      | .error e => (some (.error (.malformed e)), { l with failed := true })
      | .ok none => (none, l)
      | .ok (some ([], s)) => (none, { l with cursor := s })
      | .ok (some (t :: ts, s)) => (some (.ok t), { l with cursor := s, pending := ts })

/-- The first `n` results of `next`. -/
def take (l : Lexer) : Nat → List (Option (Except Error Token))
  | 0 => []
  | n + 1 => l.next.1 :: l.next.2.take n

end Lexer

end BranchingTime
