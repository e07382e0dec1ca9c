import BranchingTime.Proofs.Divisions

set_option autoImplicit false

/-! # Texts put together

A text that is read on its own is read in the same way with a second text behind it, unless a word
would go on from one to the other (`KeepsApart`): no other lexeme reaches over the end of the first
text (`Cursor.tokens_append`). The second text is then read as it is on its own, but from the end of
the first one, and what is read does not depend on where a text begins but for the positions
(`Cursor.tokens_shift`). So the tokens of both texts are those of the first and, moved behind it,
those of the second, and an error in the second is the error in both (`tokenize_append`). -/

namespace BranchingTime

/-! ## Moving positions -/

namespace Position

variable {p q : Position} {c : Char} {cs : List Char}

/-- The place `q` of a text that begins at the place `p` of another one. Only on its first line do
    the characters before `p` count for the column. -/
def shift (p q : Position) : Position :=
  ⟨p.offset + q.offset, p.line + q.line, if q.line = 0 then p.column + q.column else q.column⟩

@[simp] theorem shift_start (p : Position) : p.shift start = p := rfl

theorem advance_shift (p q : Position) (c : Char) :
    (p.shift q).advance c = p.shift (q.advance c) := by
  unfold advance
  split
  · simp [shift, Nat.add_assoc]
  · simp only [shift, Nat.add_assoc, mk.injEq, true_and]
    split <;> rfl

theorem after_shift (p q : Position) (cs : List Char) :
    (p.shift q).after cs = p.shift (q.after cs) := by
  induction cs generalizing q with
  | nil => rfl
  | cons c cs ih => rw [after_cons, after_cons, advance_shift, ih]

/-- The end of a text: its bytes, its line feeds, and its characters behind the last line feed. -/
def endOf (text : String) : Position :=
  ⟨text.utf8ByteSize, text.toList.count '\n', (text.toList.reverse.takeWhile (· ≠ '\n')).length⟩

theorem after_start (cs : List Char) : start.after cs = endOf (String.ofList cs) := by
  induction cs using List.reverseRecOn with
  | nil => rfl
  | append_singleton cs c ih =>
    rw [after_append, ih, after_cons, after_nil, advance]
    split
    · next hc =>
      subst hc
      simp [endOf]
      rfl
    · next hc => simp [endOf, hc]

end Position

/-- The same range in a text that begins at `p`. -/
def Span.shift (p : Position) (s : Span) : Span := ⟨p.shift s.start, p.shift s.stop⟩

/-- The same token in a text that begins at `p`. -/
def Token.shift (p : Position) (t : Token) : Token := { t with span := t.span.map (Span.shift p) }

/-! ## Reading does not depend on the place -/

theorem Lexeme.letterTokens_shift (p q : Position) (cs : List Char) :
    letterTokens (p.shift q) cs = (letterTokens q cs).map (Token.shift p) := by
  induction cs generalizing q with
  | nil => rfl
  | cons c cs ih =>
    rw [letterTokens, letterTokens, Position.advance_shift, ih]
    rfl

theorem Lexeme.tokens_shift (p q : Position) (l : Lexeme) :
    l.tokens (p.shift q) = (l.tokens q).map (Token.shift p) := by
  cases l with
  | word letters =>
    simp only [tokens, Position.after_shift]
    split
    · exact letterTokens_shift p q letters
    · rfl
  | _ =>
    simp only [tokens, Position.after_shift]
    rfl

namespace Cursor

/-- The same place in a text that begins at `p`. -/
def shift (p : Position) (s : Cursor) : Cursor := ⟨p.shift s.position, s.rest⟩

theorem next_shift (p : Position) (s : Cursor) :
    (s.shift p).next =
      s.next.map (Option.map fun r => (r.1.map (Token.shift p), r.2.shift p)) := by
  have hskip : (s.shift p).skipBlanks = s.skipBlanks.shift p := by
    simp only [skipBlanks, shift, Position.after_shift]
  unfold next
  rw [hskip]
  rcases s.skipBlanks with ⟨q, _ | ⟨c, cs⟩⟩
  · rfl
  · simp only [shift]
    cases Lexeme.read c cs with
    | error e => rfl
    | ok r => simp [Except.map, Lexeme.tokens_shift, Position.after_shift]

theorem tokens_shift (p : Position) (s : Cursor) :
    (s.shift p).tokens = s.tokens.map (List.map (Token.shift p)) := by
  induction s using Cursor.tokens.induct with
  | case1 s e hnext =>
    have hshift : (s.shift p).next = .error e := by rw [next_shift, hnext]; rfl
    rw [tokens_of_error hnext, tokens_of_error hshift]
    rfl
  | case2 s hnext =>
    have hshift : (s.shift p).next = .ok none := by rw [next_shift, hnext]; rfl
    rw [tokens_of_none hnext, tokens_of_none hshift]
    rfl
  | case3 s ts s' hnext hlt ih =>
    have hshift : (s.shift p).next = .ok (some (ts.map (Token.shift p), s'.shift p)) := by
      rw [next_shift, hnext]
      rfl
    rw [tokens_of_some hnext, tokens_of_some hshift, ih]
    cases s'.tokens <;> simp [Except.map]

end Cursor

/-! ## Reading with a text behind -/

/-- No word goes on from the characters `cs` to the characters `ds` behind them. -/
def KeepsApart (cs ds : List Char) : Prop :=
  ∀ c ∈ cs.getLast?, ∀ d ∈ ds.head?, ¬ (isNameChar c = true ∧ isNameChar d = true)

variable {c : Char} {cs ds rest : List Char} {l : Lexeme}

theorem KeepsApart.of_append (h : KeepsApart (cs ++ rest) ds) : KeepsApart rest ds := by
  intro c hc
  refine h c ?_
  rw [List.getLast?_append, Option.mem_def.1 hc]
  rfl

/-- Behind a word that reaches the end of its text nothing goes on with it. -/
theorem KeepsApart.endsWord (h : KeepsApart cs ds) (hne : cs ≠ [])
    (hcs : ∀ c ∈ cs, isNameChar c = true) : EndsWord ds := by
  intro d hd
  have hlast : isNameChar (cs.getLast hne) = true := hcs _ (List.getLast_mem hne)
  simpa [hlast] using h _ (List.getLast?_eq_getLast_of_ne_nil hne) d hd

namespace Cursor

variable {s s' : Cursor} {gap : List Char} {ts : List Token}

/-- What keeps apart the rest of a text from a second one keeps the last word passed from it too. -/
theorem Passes.endsWord_append (h : s.Passes s' gap l) (hapart : KeepsApart s.rest ds)
    (hword : l.isWord = true) : EndsWord (s'.rest ++ ds) := by
  have hend := h.endsWord hword
  rw [h.rest] at hapart
  cases hrest : s'.rest with
  | nil =>
    rw [hrest, List.append_nil] at hapart
    refine hapart.of_append.endsWord h.valid.source_ne_nil ?_
    cases h.valid with
    | word hne hletters => exact hletters
    | _ => cases hword
  | cons c cs => exact endsWord_cons (hend c (by rw [hrest]; rfl))

/-- **What is read of a text is read of it with a second text behind it**, and then the second text
    is read. -/
theorem tokens_append (h : s.tokens = .ok ts) (hapart : KeepsApart s.rest ds) :
    (Cursor.mk s.position (s.rest ++ ds)).tokens =
      (Cursor.mk (s.position.after s.rest) ds).tokens.map (ts ++ ·) := by
  induction s using Cursor.tokens.induct generalizing ts with
  | case1 s e hnext =>
    rw [tokens_of_error hnext] at h
    cases h
  | case2 s hnext =>
    rw [tokens_of_none hnext] at h
    cases h
    rw [tokens_blanks (forall_isBlank_of_next hnext)]
    exact (congrFun Except.map_id _).symm
  | case3 s us s' hnext hlt ih =>
    rw [tokens_of_some hnext] at h
    obtain ⟨vs, hvs, rfl⟩ := map_eq_ok.1 h
    obtain ⟨gap, l, hpasses, rfl⟩ := exists_passes_of_next hnext
    have hrest : KeepsApart s'.rest ds := by
      rw [hpasses.rest] at hapart
      exact hapart.of_append.of_append
    have hread := hpasses.valid.tokens_append (hpasses.endsWord_append hapart)
      (s.position.after gap)
    calc (Cursor.mk s.position (s.rest ++ ds)).tokens
        = (Cursor.mk (s.position.after gap) (l.source ++ (s'.rest ++ ds))).tokens := by
          rw [hpasses.rest, List.append_assoc, List.append_assoc, tokens_blanks hpasses.blank]
      _ = (Cursor.mk s'.position (s'.rest ++ ds)).tokens.map (l.tokens _ ++ ·) := by
          rw [hread, hpasses.position]
      _ = (Cursor.mk (s.position.after s.rest) ds).tokens.map (l.tokens _ ++ vs ++ ·) := by
          rw [ih hvs hrest, map_append_map_append, hpasses.rest, hpasses.position,
            Position.after_append, Position.after_append]

end Cursor

/-! ## Whole texts -/

/-- **The tokens of two texts put together are those of the first and those of the second, moved
    behind the first**, if the first text is read on its own and no word goes on from one to the
    other. If the second one is malformed, so are both together, with the same error. -/
theorem tokenize_append {s₁ s₂ : String} {ts : List Token} (h : tokenize s₁ = .ok ts)
    (hapart : KeepsApart s₁.toList s₂.toList) :
    tokenize (s₁ ++ s₂) =
      (tokenize s₂).map fun us => ts ++ us.map (Token.shift (Position.endOf s₁)) := by
  have hend : Position.start.after s₁.toList = Position.endOf s₁ := by
    rw [Position.after_start, String.ofList_toList]
  have hfirst : (Cursor.mk .start (s₁.toList ++ s₂.toList)).tokens =
      (Cursor.mk (.endOf s₁) s₂.toList).tokens.map (ts ++ ·) :=
    hend ▸ Cursor.tokens_append (tokens_of_tokenize h) hapart
  have hsecond : (Cursor.mk (.endOf s₁) s₂.toList).tokens =
      (Cursor.ofText s₂).tokens.map (List.map (Token.shift (.endOf s₁))) :=
    Cursor.tokens_shift (.endOf s₁) (.ofText s₂)
  rw [tokenize, tokenize, Cursor.ofText, String.toList_append, hfirst, hsecond]
  cases (Cursor.ofText s₂).tokens <;> rfl

/-- The first text ends on its second line, and has a character of two bytes. The second text is
    moved behind it, but for the columns of its own second line. -/
theorem tokenize_append_quoted :
    tokenize "'é\nb'->" = .ok
      [⟨.atom, "é\nb", some ⟨⟨0, 0, 0⟩, ⟨6, 1, 2⟩⟩⟩,
        ⟨.operator, "->", some ⟨⟨6, 1, 2⟩, ⟨8, 1, 4⟩⟩⟩] ∧
    KeepsApart "'é\nb'->".toList "X\np".toList ∧
    tokenize ("'é\nb'->" ++ "X\np") = .ok
      [⟨.atom, "é\nb", some ⟨⟨0, 0, 0⟩, ⟨6, 1, 2⟩⟩⟩,
        ⟨.operator, "->", some ⟨⟨6, 1, 2⟩, ⟨8, 1, 4⟩⟩⟩,
        ⟨.operator, "X", some ⟨⟨8, 1, 4⟩, ⟨9, 1, 5⟩⟩⟩,
        ⟨.atom, "p", some ⟨⟨10, 2, 0⟩, ⟨11, 2, 1⟩⟩⟩] ∧
    tokenize ("'é\nb'->" ++ "-") = .error (.malformed (.unknownCharacter '-')) := by
  have hfirst : tokenize "'é\nb'->" = .ok
      [⟨.atom, "é\nb", some ⟨⟨0, 0, 0⟩, ⟨6, 1, 2⟩⟩⟩,
        ⟨.operator, "->", some ⟨⟨6, 1, 2⟩, ⟨8, 1, 4⟩⟩⟩] := by decide +kernel
  have hsecond : tokenize "X\np" = .ok
      [⟨.operator, "X", some ⟨⟨0, 0, 0⟩, ⟨1, 0, 1⟩⟩⟩,
        ⟨.atom, "p", some ⟨⟨2, 1, 0⟩, ⟨3, 1, 1⟩⟩⟩] := by decide +kernel
  have hmalformed : tokenize "-" = .error (.malformed (.unknownCharacter '-')) := by decide +kernel
  have hapart : KeepsApart "'é\nb'->".toList "X\np".toList := by
    simp [KeepsApart]
    decide
  refine ⟨hfirst, hapart, ?_, ?_⟩
  · rw [tokenize_append hfirst hapart, hsecond]
    rfl
  · rw [tokenize_append hfirst (by simp [KeepsApart]; decide), hmalformed]
    rfl

end BranchingTime
