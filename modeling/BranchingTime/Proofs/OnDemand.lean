import BranchingTime.Proofs.Concatenation

set_option autoImplicit false

/-! # Tokens on demand

A lexer hands out the tokens of its text one at a time, though a single lexeme can give it several
of them at once. In the end it comes to a state that it does not leave any more and in which it has
nothing to hand out (`Lexer.Drains`): at the end of the text, or behind the error that it has handed
out for a lexeme that is none.

In a text that is not read there is one such place. What stands before it is read on its own, and
nothing begins at it that is a lexeme (`Cursor.BreaksOff`). The tokens handed out before the error
are those of the text up to there. -/

namespace BranchingTime

/-! ## A lexeme with more text behind it -/

namespace Lexeme

variable {c : Char} {cs ds rest : List Char} {l : Lexeme} {e : SyntaxError}

/-- A lexeme is read as well with more text behind it, unless it is a word that goes on there. -/
theorem read_append (h : read c cs = .ok (l, rest)) (hend : EndsWord ds) :
    read c (cs ++ ds) = .ok (l, rest ++ ds) := by
  have hl := isValid_of_read h
  obtain ⟨d, source, hsource⟩ := List.exists_cons_of_ne_nil hl.source_ne_nil
  have hcs := source_append_of_read h
  rw [hsource, List.cons_append, List.cons.injEq] at hcs
  obtain ⟨rfl, rfl⟩ := hcs
  rw [List.append_assoc]
  exact hl.read_append hsource fun hword => (endsWord_of_read h hword).append hend

/-- Where no lexeme can be read, no word goes on. -/
theorem endsWord_of_read_error (h : read c cs = .error e) : EndsWord (c :: cs) := by
  refine endsWord_cons ?_
  cases hc : isNameChar c with
  | false => rfl
  | true =>
    have hletters : ∀ b ∈ c :: cs.takeWhile isNameChar, isNameChar b = true :=
      List.forall_mem_cons.2 ⟨hc, fun b hb => List.mem_takeWhile_imp hb⟩
    have hread := read_word hletters (endsWord_dropWhile cs)
    rw [List.takeWhile_append_dropWhile, h] at hread
    cases hread

end Lexeme

/-! ## Where reading breaks off -/

namespace Cursor

variable {s s' : Cursor} {before before' gap : List Char} {ts ts' : List Token} {l : Lexeme}
  {e e' : SyntaxError}

/-- What stands before a place is read as the tokens `ts`, and at the place there is a character,
    not blank, with which no lexeme begins. -/
structure BreaksOff (s : Cursor) (before : List Char) (ts : List Token) (e : SyntaxError) :
    Prop where
  tokens : (Cursor.mk s.position before).tokens = .ok ts
  refused : ∃ c cs, s.rest = before ++ c :: cs ∧ isBlank c = false ∧ Lexeme.read c cs = .error e

theorem exists_breaksOff_of_next (h : s.next = .error e) : ∃ before, s.BreaksOff before [] e := by
  unfold next at h
  split at h
  · simp at h
  · next p c cs hskip =>
    obtain ⟨-, hdrop⟩ := Cursor.mk.inj hskip
    have hblank : ∀ b ∈ s.rest.takeWhile isBlank, isBlank b = true :=
      fun b hb => List.mem_takeWhile_imp hb
    split at h
    · next e' hread =>
      cases h
      refine ⟨s.rest.takeWhile isBlank, ?_, c, cs, ?_, ?_, hread⟩
      · rw [← List.append_nil (s.rest.takeWhile isBlank), tokens_blanks hblank, tokens_nil]
      · rw [← hdrop, List.takeWhile_append_dropWhile]
      · have hnot := List.head?_dropWhile_not isBlank s.rest
        rwa [hdrop] at hnot
    · simp at h

/-- Reading breaks off behind what has been passed. -/
theorem Passes.breaksOff (h : s.Passes s' gap l) (hrest : s'.BreaksOff before ts e) :
    s.BreaksOff (gap ++ (l.source ++ before)) (l.tokens (s.position.after gap) ++ ts) e := by
  obtain ⟨htokens, c, cs, hcs, hc, hread⟩ := hrest
  have hend : l.isWord = true → EndsWord before := by
    intro hword
    have hword' := h.endsWord hword
    rw [hcs] at hword'
    exact hword'.of_append
  refine ⟨?_, c, cs, by simp [h.rest, hcs], hc, hread⟩
  rw [tokens_blanks h.blank, h.valid.tokens_append hend, ← h.position, htokens]
  rfl

/-- Reading does not break off at two places. -/
theorem BreaksOff.eq_of_prefix (h : s.BreaksOff before ts e) (h' : s.BreaksOff before' ts' e')
    (hfront : before <+: before') : before' = before := by
  obtain ⟨htokens, c, cs, hcs, hc, hread⟩ := h
  obtain ⟨htokens', c', cs', hcs', -, hread'⟩ := h'
  obtain ⟨ds, rfl⟩ := hfront
  cases ds with
  | nil => rw [List.append_nil]
  | cons d ds =>
    -- the lexeme that is none up to the second place would be none before it
    rw [hcs, List.append_assoc, List.append_cancel_left_eq, List.cons_append,
      List.cons.injEq] at hcs'
    obtain ⟨rfl, rfl⟩ := hcs'
    have hapart : KeepsApart before (c :: ds) := by
      intro a _ b hb
      cases hb
      simp [Lexeme.endsWord_of_read_error hread c rfl]
    have happend := tokens_append (s := ⟨s.position, before⟩) htokens hapart
    rw [htokens'] at happend
    obtain ⟨us, hus, -⟩ := map_eq_ok.1 happend.symm
    obtain ⟨l, rest, -, hlexeme, -⟩ := exists_lexeme_of_tokens hc hus
    have hmore := Lexeme.read_append hlexeme (Lexeme.endsWord_of_read_error hread')
    rw [hread] at hmore
    cases hmore

theorem BreaksOff.eq (h : s.BreaksOff before ts e) (h' : s.BreaksOff before' ts' e') :
    before' = before := by
  obtain ⟨c, cs, hcs, -⟩ := h.refused
  obtain ⟨c', cs', hcs', -⟩ := h'.refused
  have hfront : before <+: s.rest := ⟨_, hcs.symm⟩
  have hfront' : before' <+: s.rest := ⟨_, hcs'.symm⟩
  rcases List.prefix_or_prefix_of_prefix hfront hfront' with hends | hends
  · exact h.eq_of_prefix h' hends
  · exact (h'.eq_of_prefix h hends).symm

end Cursor

/-! ## What a lexer hands out -/

namespace Lexer

variable {l l' : Lexer} {s : Cursor} {ts : List Token} {e : SyntaxError}
  {rs rs' : List (Except Error Token)}

/-- However often it is asked, the lexer hands out the results one after the other, and then
    nothing. -/
def HandsOut (l : Lexer) (rs : List (Except Error Token)) : Prop :=
  ∀ n, l.take n = (List.range n).map fun i => rs[i]?

/-- One call for each of the results leads to a state without further ones. -/
inductive Drains : Lexer → List (Except Error Token) → Prop
  | done {l : Lexer} (h : l.next = (none, l)) : Drains l []
  | call {l l' : Lexer} {r : Except Error Token} {rs : List (Except Error Token)}
      (h : l.next = (some r, l')) (hrest : Drains l' rs) : Drains l (r :: rs)

theorem Drains.handsOut (h : l.Drains rs) : l.HandsOut rs := by
  intro n
  induction n generalizing l rs with
  | zero => rfl
  | succ n ih =>
    rw [take, List.range_succ_eq_map, List.map_cons, List.map_map]
    cases h with
    | done h =>
      rw [h, ih (.done h)]
      rfl
    | call h hrest =>
      rw [h, ih hrest]
      rfl

/-- What is handed out tells the results. -/
theorem HandsOut.eq (h : l.HandsOut rs) (h' : l.HandsOut rs') : rs = rs' := by
  refine List.ext_getElem? fun i => ?_
  have hmap := (h (i + 1)).symm.trans (h' (i + 1))
  exact List.map_inj_left.1 hmap i List.self_mem_range_succ

/-- The tokens of a lexeme come before what is read behind it. -/
theorem Drains.pending (ts : List Token) (h : Drains ⟨s, [], false⟩ rs) :
    Drains ⟨s, ts, false⟩ (ts.map .ok ++ rs) := by
  induction ts with
  | nil => exact h
  | cons t ts ih => exact .call rfl ih

theorem Drains.of_next {s' : Cursor} (h : s.next = .ok (some (ts, s')))
    (hrest : Drains ⟨s', [], false⟩ rs) : Drains ⟨s, [], false⟩ (ts.map .ok ++ rs) := by
  obtain ⟨gap, l, hpasses, rfl⟩ := Cursor.exists_passes_of_next h
  obtain ⟨t, us, htokens⟩ :=
    List.exists_cons_of_ne_nil (hpasses.valid.tokens_ne_nil (s.position.after gap))
  rw [htokens] at h ⊢
  refine .call ?_ (hrest.pending us)
  simp [next, h]

theorem drains_of_tokens (h : s.tokens = .ok ts) : Drains ⟨s, [], false⟩ (ts.map .ok) := by
  induction s using Cursor.tokens.induct generalizing ts with
  | case1 s e hnext =>
    rw [Cursor.tokens_of_error hnext] at h
    cases h
  | case2 s hnext =>
    rw [Cursor.tokens_of_none hnext] at h
    cases h
    exact .done (by simp [next, hnext])
  | case3 s us s' hnext hlt ih =>
    rw [Cursor.tokens_of_some hnext] at h
    obtain ⟨vs, hvs, rfl⟩ := map_eq_ok.1 h
    rw [List.map_append]
    exact .of_next hnext (ih hvs)

/-- **If reading fails, it breaks off at some place**, and the tokens of what stands before are
    handed out before the error. -/
theorem drains_of_tokens_error (h : s.tokens = .error e) :
    ∃ before ts, s.BreaksOff before ts e ∧
      Drains ⟨s, [], false⟩ (ts.map .ok ++ [.error (.malformed e)]) := by
  induction s using Cursor.tokens.induct with
  | case1 s e' hnext =>
    rw [Cursor.tokens_of_error hnext] at h
    cases h
    obtain ⟨before, hbefore⟩ := Cursor.exists_breaksOff_of_next hnext
    have hfailed : Drains ⟨s, [], true⟩ [] := .done rfl
    exact ⟨before, [], hbefore, .call (by simp [next, hnext]) hfailed⟩
  | case2 s hnext =>
    rw [Cursor.tokens_of_none hnext] at h
    cases h
  | case3 s us s' hnext hlt ih =>
    rw [Cursor.tokens_of_some hnext] at h
    obtain ⟨before, ts, hbefore, hdrains⟩ := ih (map_eq_error.1 h)
    have hdrains := Drains.of_next hnext hdrains
    obtain ⟨gap, l, hpasses, rfl⟩ := Cursor.exists_passes_of_next hnext
    refine ⟨_, _, hpasses.breaksOff hbefore, ?_⟩
    rwa [List.map_append, List.append_assoc]

end Lexer

/-! ## Whole texts -/

/-- The text is read up to the end of `before`, which has the tokens `ts`. There a character stands,
    not blank, with which no lexeme begins. -/
structure BreaksOff (text before : String) (ts : List Token) (e : SyntaxError) : Prop where
  tokenize : tokenize before = .ok ts
  refused : ∃ c cs, text.toList = before.toList ++ c :: cs ∧ isBlank c = false ∧
    Lexeme.read c cs = .error e

section Texts

variable {text before before' : String} {ts ts' us : List Token} {e e' : Error}
  {cause cause' : SyntaxError}

theorem BreaksOff.cursor (h : BreaksOff text before ts cause) :
    (Cursor.ofText text).BreaksOff before.toList ts cause :=
  ⟨tokens_of_tokenize h.tokenize, h.refused⟩

theorem BreaksOff.eq (h : BreaksOff text before ts cause)
    (h' : BreaksOff text before' ts' cause') : before' = before :=
  String.toList_inj.1 (h.cursor.eq h'.cursor)

theorem map_ok_ne_append_error :
    us.map .ok ≠ ts.map .ok ++ [(.error e : Except Error Token)] := by
  intro h
  have hmem : (.error e : Except Error Token) ∈ us.map .ok := by simp [h]
  simp at hmem

theorem eq_of_append_error
    (h : us.map .ok ++ [(.error e' : Except Error Token)] = ts.map .ok ++ [.error e]) :
    us = ts ∧ e' = e := by
  obtain ⟨hmap, hlast⟩ := List.append_inj' h rfl
  exact ⟨List.map_injective_iff.2 (fun _ _ => Except.ok.inj) hmap, by simpa using hlast⟩

theorem handsOut_of_tokenize (h : tokenize text = .ok ts) :
    (Lexer.ofText text).HandsOut (ts.map .ok) :=
  (Lexer.drains_of_tokens (tokens_of_tokenize h)).handsOut

theorem handsOut_of_tokenize_error (h : tokenize text = .error e) :
    ∃ before ts cause, e = .malformed cause ∧ BreaksOff text before ts cause ∧
      (Lexer.ofText text).HandsOut (ts.map .ok ++ [.error e]) := by
  rw [tokenize] at h
  cases htokens : (Cursor.ofText text).tokens with
  | ok ts =>
    rw [htokens] at h
    cases h
  | error cause =>
    rw [htokens] at h
    cases h
    obtain ⟨before, ts, ⟨hbefore, hrefused⟩, hdrains⟩ := Lexer.drains_of_tokens_error htokens
    refine ⟨String.ofList before, ts, cause, rfl, ⟨?_, ?_⟩, hdrains.handsOut⟩
    · have hbefore : (Cursor.mk .start before).tokens = .ok ts := hbefore
      rw [tokenize, Cursor.ofText, String.toList_ofList, hbefore]
      rfl
    · rwa [String.toList_ofList]

theorem tokenize_of_handsOut (h : (Lexer.ofText text).HandsOut (ts.map .ok)) :
    tokenize text = .ok ts := by
  cases htokenize : tokenize text with
  | ok us =>
    have hmap := (handsOut_of_tokenize htokenize).eq h
    rw [List.map_injective_iff.2 (fun _ _ => Except.ok.inj) hmap]
  | error e =>
    obtain ⟨-, us, -, -, -, hhands⟩ := handsOut_of_tokenize_error htokenize
    exact absurd (h.eq hhands) map_ok_ne_append_error

theorem tokenize_error_of_handsOut
    (h : (Lexer.ofText text).HandsOut (ts.map .ok ++ [.error e])) : tokenize text = .error e := by
  cases htokenize : tokenize text with
  | ok us => exact absurd ((handsOut_of_tokenize htokenize).eq h) map_ok_ne_append_error
  | error e' =>
    obtain ⟨-, us, -, -, -, hhands⟩ := handsOut_of_tokenize_error htokenize
    rw [(eq_of_append_error (hhands.eq h)).2]

/-- **A lexer hands out what reading the whole text gives**, and then nothing: the tokens of the
    text, or an error behind the tokens of what stands before the one place where reading breaks
    off. -/
theorem lexer_handsOut (text : String) :
    (∀ ts, tokenize text = .ok ts ↔ (Lexer.ofText text).HandsOut (ts.map .ok)) ∧
    (∀ e, tokenize text = .error e ↔
      ∃ ts : List Token, (Lexer.ofText text).HandsOut (ts.map .ok ++ [.error e])) ∧
    ∀ (ts : List Token) e, (Lexer.ofText text).HandsOut (ts.map .ok ++ [.error e]) →
      ∃ before cause, e = .malformed cause ∧ BreaksOff text before ts cause ∧
        ∀ before' ts' cause', BreaksOff text before' ts' cause' → before' = before := by
  refine ⟨fun ts => ⟨handsOut_of_tokenize, tokenize_of_handsOut⟩, fun e => ⟨fun h => ?_, ?_⟩,
    fun ts e h => ?_⟩
  · obtain ⟨-, ts, -, -, -, hhands⟩ := handsOut_of_tokenize_error h
    exact ⟨ts, hhands⟩
  · rintro ⟨ts, h⟩
    exact tokenize_error_of_handsOut h
  · obtain ⟨before, us, cause, rfl, hbreaks, hhands⟩ :=
      handsOut_of_tokenize_error (tokenize_error_of_handsOut h)
    obtain ⟨rfl, -⟩ := eq_of_append_error (hhands.eq h)
    exact ⟨before, cause, rfl, hbreaks, fun _ _ _ => hbreaks.eq⟩

end Texts

/-- The tokens of `AX p`. -/
def allNext : List Token :=
  [⟨.operator, "A", some ⟨⟨0, 0, 0⟩, ⟨1, 0, 1⟩⟩⟩, ⟨.operator, "X", some ⟨⟨1, 0, 1⟩, ⟨2, 0, 2⟩⟩⟩,
    ⟨.atom, "p", some ⟨⟨3, 0, 3⟩, ⟨4, 0, 4⟩⟩⟩]

/-- The first word gives two tokens, and behind `p` stands half of an operator. -/
theorem lexer_handsOut_allNext :
    tokenize "AX p" = .ok allNext ∧
    (Lexer.ofText "AX p").HandsOut (allNext.map .ok) ∧
    tokenize "AX p-q" = .error (.malformed (.unknownCharacter '-')) ∧
    (Lexer.ofText "AX p-q").HandsOut
      (allNext.map .ok ++ [.error (.malformed (.unknownCharacter '-'))]) ∧
    BreaksOff "AX p-q" "AX p" allNext (.unknownCharacter '-') := by
  have hread : tokenize "AX p" = .ok allNext := by decide +kernel
  have hfails : tokenize "AX p-q" = .error (.malformed (.unknownCharacter '-')) := by
    decide +kernel
  have hplace : BreaksOff "AX p-q" "AX p" allNext (.unknownCharacter '-') :=
    ⟨hread, '-', ['q'], rfl, rfl, rfl⟩
  obtain ⟨hok, -, -⟩ := lexer_handsOut "AX p"
  obtain ⟨-, herror, hbreaks⟩ := lexer_handsOut "AX p-q"
  obtain ⟨ts, hhands⟩ := (herror _).1 hfails
  obtain ⟨before, cause, -, hbefore, honly⟩ := hbreaks ts _ hhands
  obtain rfl : "AX p" = before := honly _ _ _ hplace
  obtain rfl : ts = allNext := Except.ok.inj (hbefore.tokenize.symm.trans hread)
  exact ⟨hread, (hok _).1 hread, hfails, hhands, hplace⟩

end BranchingTime
