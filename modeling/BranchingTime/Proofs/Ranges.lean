import BranchingTime.Proofs.Concatenation
import Mathlib.Data.String.Basic

set_option autoImplicit false

/-! # Ranges of tokens in their text

The tokens of a text stand in it one behind the other: the characters of its range spell a token,
and what is in no range is blank. This is how a text is laid out by reading it (`LaidOut`), lexeme
by lexeme and, in a word of reserved letters, letter by letter.

Ranges are told by offsets in bytes. What an offset says about a text is settled once, for a place
that has been reached by going past the characters before it: it stands between two characters, it
counts the lines and columns before it, and between two such places are the characters passed
(`Position.isIn_after`, `slice_after`). -/

namespace BranchingTime

/-! ## Parts of a text -/

/-- The part of the text between two offsets in bytes. -/
def slice (text : String) (i j : Nat) : String := String.Pos.Raw.extract text ⟨i⟩ ⟨j⟩

/-- The parts of the text from the offset `i` on that are in none of the ranges: the one before the
    first range, those between two ranges, and the one behind the last. -/
def gaps (text : String) : Nat → List Span → List String
  | i, [] => [slice text i text.utf8ByteSize]
  | i, s :: ss => slice text i s.start.offset :: gaps text s.stop.offset ss

/-- The place stands between two characters of the text. It counts the line feeds before it, and the
    characters between the last of them and itself. -/
structure Position.IsIn (p : Position) (text : String) : Prop where
  boundary : String.Pos.Raw.IsValid text ⟨p.offset⟩
  line : p.line = (slice text 0 p.offset).toList.count '\n'
  column : p.column = ((slice text 0 p.offset).toList.reverse.takeWhile (· ≠ '\n')).length

section Places

variable {text : String} {before cs after : List Char}

theorem Position.offset_advance (p : Position) (c : Char) :
    (p.advance c).offset = p.offset + c.utf8Size := by
  unfold advance
  split <;> rfl

theorem Position.offset_after (p : Position) (cs : List Char) :
    (p.after cs).offset = p.offset + String.utf8Len cs := by
  induction cs generalizing p with
  | nil => rfl
  | cons c cs ih =>
    rw [after_cons, ih, offset_advance, String.utf8Len_cons, Nat.add_assoc,
      Nat.add_comm c.utf8Size]

/-- Between two places are the characters passed from one to the other. -/
theorem slice_after (htext : text.toList = before ++ (cs ++ after)) :
    slice text (Position.start.after before).offset
      ((Position.start.after before).after cs).offset = String.ofList cs := by
  obtain rfl : String.ofList (before ++ cs ++ after) = text := by
    rw [List.append_assoc, ← htext, String.ofList_toList]
  have hstart : (Position.start.after before).offset = String.utf8Len before := by
    rw [Position.offset_after]
    exact Nat.zero_add _
  rw [Position.offset_after _ cs, hstart]
  exact String.extract_of_valid before cs after

theorem Position.isIn_after (htext : text.toList = before ++ after) :
    (start.after before).IsIn text := by
  have hslice : slice text 0 (start.after before).offset = String.ofList before :=
    have hfront : text.toList = [] ++ (before ++ after) := htext
    slice_after hfront
  have hend := after_start before
  refine ⟨?_, ?_, ?_⟩
  · rw [String.Pos.Raw.isValid_iff_exists_append]
    refine ⟨String.ofList before, String.ofList after, ?_, ?_⟩
    · rw [← String.ofList_append, ← htext, String.ofList_toList]
    · rw [hend]
      rfl
  · rw [hslice, hend]
    rfl
  · rw [hslice, hend]
    rfl

end Places

/-! ## How a text is laid out -/

/-- The characters spell the token: they are its text, or its text between two equal quotation marks
    that are not in it. -/
inductive Token.IsSpelt (t : Token) : String → Prop
  | verbatim : IsSpelt t t.text
  | quoted (d : Char) (hd : d = '\'' ∨ d = '"') (hmem : d ∉ t.text.toList) :
      IsSpelt t (d.toString ++ t.text ++ d.toString)

/-- From the place `p` on the characters are those that spell the tokens, in the ranges of these,
    and blanks between them. -/
inductive LaidOut : Position → List Char → List Token → Prop
  | blanks {p : Position} {gap : List Char} (hgap : ∀ c ∈ gap, isBlank c = true) :
      LaidOut p gap []
  | token {p : Position} {gap source rest : List Char} {t : Token} {ts : List Token}
      (hgap : ∀ c ∈ gap, isBlank c = true) (hne : source ≠ [])
      (hspelt : t.IsSpelt (String.ofList source))
      (hspan : t.span = some ⟨p.after gap, (p.after gap).after source⟩)
      (hrest : LaidOut ((p.after gap).after source) rest ts) :
      LaidOut p (gap ++ (source ++ rest)) (t :: ts)

section LaidOut

variable {p : Position} {cs gap source rest : List Char} {t : Token} {ts us : List Token}
  {l : Lexeme} {s : Cursor}

theorem LaidOut.blanks_append (h : LaidOut (p.after gap) cs ts)
    (hgap : ∀ c ∈ gap, isBlank c = true) : LaidOut p (gap ++ cs) ts := by
  cases h with
  | blanks hcs => exact .blanks (List.forall_mem_append.2 ⟨hgap, hcs⟩)
  | @token _ gap' source rest t ts hgap' hne hspelt hspan hrest =>
    rw [← p.after_append] at hspan hrest
    rw [← List.append_assoc]
    exact .token (List.forall_mem_append.2 ⟨hgap, hgap'⟩) hne hspelt hspan hrest

/-- A token with no blanks before it. -/
theorem LaidOut.token_append (h : LaidOut (p.after source) rest ts) (hne : source ≠ [])
    (hspelt : t.IsSpelt (String.ofList source)) (hspan : t.span = some ⟨p, p.after source⟩) :
    LaidOut p (source ++ rest) (t :: ts) := by
  have hnone : ∀ c ∈ ([] : List Char), isBlank c = true := nofun
  exact .token hnone hne hspelt hspan h

theorem LaidOut.letters_append (h : LaidOut (p.after cs) rest ts) :
    LaidOut p (cs ++ rest) (Lexeme.letterTokens p cs ++ ts) := by
  induction cs generalizing p with
  | nil => exact h
  | cons c cs ih =>
    have hne : [c] ≠ [] := nofun
    have hbehind : LaidOut (p.after [c]) (cs ++ rest)
        (Lexeme.letterTokens (p.advance c) cs ++ ts) := ih h
    exact hbehind.token_append hne .verbatim rfl

/-- The tokens of a lexeme stand where the lexeme stands. -/
theorem LaidOut.lexeme_append (h : LaidOut (p.after l.source) rest ts) (hl : l.IsValid) :
    LaidOut p (l.source ++ rest) (l.tokens p ++ ts) := by
  have hne := hl.source_ne_nil
  cases hl with
  | @quoted d body hd _ hbody =>
    have hmem : d ∉ body := by
      intro hd'
      simpa [Lexeme.continuesQuote] using hbody d hd'
    have hsource : String.ofList (Lexeme.quoted d body).source =
        d.toString ++ String.ofList body ++ d.toString := by
      rw [← String.toList_inj]
      simp [Lexeme.source]
    refine h.token_append hne ?_ rfl
    rw [hsource]
    exact .quoted d hd (by rwa [Token.withSpan, Token.atom, String.toList_ofList])
  | literal hletter => exact h.token_append hne .verbatim rfl
  | operator htext => exact h.token_append hne .verbatim rfl
  | word _ hletters =>
    simp only [Lexeme.tokens]
    split
    · exact h.letters_append
    · exact h.token_append hne .verbatim rfl

/-- **What is read lies in the text** from the place where reading began. -/
theorem Cursor.laidOut (h : s.tokens = .ok ts) : LaidOut s.position s.rest ts := by
  induction s using Cursor.tokens.induct generalizing ts with
  | case1 s e hnext =>
    rw [tokens_of_error hnext] at h
    cases h
  | case2 s hnext =>
    rw [tokens_of_none hnext] at h
    cases h
    exact .blanks (forall_isBlank_of_next hnext)
  | case3 s us s' hnext hlt ih =>
    rw [tokens_of_some hnext] at h
    obtain ⟨vs, hrest, rfl⟩ := map_eq_ok.1 h
    obtain ⟨gap, l, hpasses, rfl⟩ := exists_passes_of_next hnext
    have hbehind : LaidOut ((s.position.after gap).after l.source) s'.rest vs :=
      hpasses.position ▸ ih hrest
    rw [hpasses.rest]
    exact (hbehind.lexeme_append hpasses.valid).blanks_append hpasses.blank

end LaidOut

/-! ## Whole texts -/

/-- The ranges of the tokens that have one. -/
def ranges (ts : List Token) : List Span := ts.filterMap Token.span

/-- The token has the range `s`, which has a character, begins and ends at places of the text, and
    covers the characters that spell the token. -/
structure Token.StandsAt (t : Token) (text : String) (s : Span) : Prop where
  span : t.span = some s
  lt : s.start.offset < s.stop.offset
  start : s.start.IsIn text
  stop : s.stop.IsIn text
  isSpelt : t.IsSpelt (slice text s.start.offset s.stop.offset)

section Texts

variable {text : String} {before cs : List Char} {p : Position} {ts : List Token}

theorem Position.offset_le_after (p : Position) (cs : List Char) :
    p.offset ≤ (p.after cs).offset := by
  rw [offset_after]
  exact Nat.le_add_right _ _

theorem Position.offset_lt_after (p : Position) (h : cs ≠ []) :
    p.offset < (p.after cs).offset := by
  rw [offset_after]
  exact Nat.lt_add_of_pos_right (Nat.pos_of_ne_zero fun hzero => h (String.utf8Len_eq_zero.1 hzero))

/-- Every token stands where its range says. -/
theorem LaidOut.standsAt (h : LaidOut p cs ts) (hp : p = .after .start before)
    (htext : text.toList = before ++ cs) : ∀ t ∈ ts, ∃ s, t.StandsAt text s := by
  induction h generalizing before with
  | blanks hgap => simp
  | @token p gap source rest t ts hgap hne hspelt hspan hrest ih =>
    subst hp
    have hfront : text.toList = (before ++ gap) ++ (source ++ rest) := by
      rw [htext, List.append_assoc]
    have hwhole : text.toList = (before ++ gap ++ source) ++ rest := by
      rw [hfront, List.append_assoc (before ++ gap)]
    rw [← Position.start.after_append before gap] at hspan ih
    refine List.forall_mem_cons.2 ⟨⟨_, hspan, Position.offset_lt_after _ hne, ?_, ?_, ?_⟩,
      ih (Position.start.after_append _ source).symm hwhole⟩
    · exact Position.isIn_after hfront
    · rw [← Position.after_append]
      exact Position.isIn_after hwhole
    · rwa [slice_after hfront]

/-- Behind a place all ranges begin behind it. -/
theorem LaidOut.le_start (h : LaidOut p cs ts) : ∀ s ∈ ranges ts, p.offset ≤ s.start.offset := by
  induction h with
  | blanks => simp [ranges]
  | @token p gap source _ _ _ _ _ _ hspan _ ih =>
    rw [ranges, List.filterMap_cons_some hspan, List.forall_mem_cons]
    have hgap := p.offset_le_after gap
    refine ⟨hgap, fun s hs => ?_⟩
    calc p.offset ≤ (p.after gap).offset := hgap
      _ ≤ ((p.after gap).after source).offset := Position.offset_le_after _ _
      _ ≤ s.start.offset := ih s hs

theorem LaidOut.pairwise (h : LaidOut p cs ts) :
    (ranges ts).Pairwise fun s s' => s.stop.offset ≤ s'.start.offset := by
  induction h with
  | blanks => simp [ranges]
  | token _ _ _ hspan hrest ih =>
    rw [ranges, List.filterMap_cons_some hspan, List.pairwise_cons]
    exact ⟨hrest.le_start, ih⟩

theorem LaidOut.isBlank_of_mem_gaps (h : LaidOut p cs ts) (hp : p = .after .start before)
    (htext : text.toList = before ++ cs) :
    ∀ gap ∈ gaps text p.offset (ranges ts), ∀ c ∈ gap.toList, isBlank c = true := by
  induction h generalizing before with
  | @blanks p gap hgap =>
    subst hp
    have hend : text.utf8ByteSize = ((Position.start.after before).after gap).offset := by
      rw [← Position.after_append, ← htext, Position.after_start, String.ofList_toList]
      rfl
    have hslice : slice text (Position.start.after before).offset text.utf8ByteSize =
        String.ofList gap := by
      rw [hend]
      have hwhole : text.toList = before ++ (gap ++ []) := by rw [htext, List.append_nil]
      exact slice_after hwhole
    simpa [ranges, gaps, hslice] using hgap
  | @token p gap source rest _ _ hgap _ _ hspan _ ih =>
    subst hp
    rw [ranges, List.filterMap_cons_some hspan, gaps, List.forall_mem_cons, slice_after htext]
    have hwhole : text.toList = before ++ gap ++ source ++ rest := by
      rw [htext, List.append_assoc (before ++ gap), List.append_assoc before]
    have hend : ((Position.start.after before).after gap).after source =
        .after .start (before ++ gap ++ source) := by
      rw [Position.after_append, Position.after_append]
    exact ⟨by simpa using hgap, ih hend hwhole⟩

/-- **The ranges of the tokens divide their text**: each covers the characters that spell its token,
    they follow one another, and between them there are only blanks. -/
theorem ranges_of_tokenize (h : tokenize text = .ok ts) :
    (∀ t ∈ ts, ∃ s, t.StandsAt text s) ∧
    ((ranges ts).Pairwise fun s s' => s.stop.offset ≤ s'.start.offset) ∧
    ∀ gap ∈ gaps text 0 (ranges ts), ∀ c ∈ gap.toList, isBlank c = true := by
  have hlaid : LaidOut .start text.toList ts := Cursor.laidOut (tokens_of_tokenize h)
  have hstart : Position.start = .after .start [] := rfl
  exact ⟨hlaid.standsAt hstart rfl, hlaid.pairwise, hlaid.isBlank_of_mem_gaps hstart rfl⟩

end Texts

/-- The tokens of `ά 'é⏎b'EX⏎`, where `⏎` is a line feed. -/
def acrossLines : List Token :=
  [⟨.atom, "ά", some ⟨⟨0, 0, 0⟩, ⟨2, 0, 1⟩⟩⟩, ⟨.atom, "é\nb", some ⟨⟨3, 0, 2⟩, ⟨9, 1, 2⟩⟩⟩,
    ⟨.operator, "E", some ⟨⟨9, 1, 2⟩, ⟨10, 1, 3⟩⟩⟩, ⟨.operator, "X", some ⟨⟨10, 1, 3⟩, ⟨11, 1, 4⟩⟩⟩]

/-- An atom goes on to the second line, characters have two bytes, and one word is two tokens. -/
theorem ranges_of_tokenize_acrossLines :
    tokenize "ά 'é\nb'EX\n" = .ok acrossLines ∧
    (ranges acrossLines).map (fun s => slice "ά 'é\nb'EX\n" s.start.offset s.stop.offset) =
      ["ά", "'é\nb'", "E", "X"] ∧
    gaps "ά 'é\nb'EX\n" 0 (ranges acrossLines) = ["", " ", "", "", "\n"] ∧
    (∀ t ∈ acrossLines, ∃ s, t.StandsAt "ά 'é\nb'EX\n" s) ∧
    ((ranges acrossLines).Pairwise fun s s' => s.stop.offset ≤ s'.start.offset) ∧
    ∀ gap ∈ gaps "ά 'é\nb'EX\n" 0 (ranges acrossLines), ∀ c ∈ gap.toList, isBlank c = true := by
  have htokenize : tokenize "ά 'é\nb'EX\n" = .ok acrossLines := by decide +kernel
  exact ⟨htokenize, by decide +kernel, by decide +kernel, ranges_of_tokenize htokenize⟩

end BranchingTime
