import BranchingTime.Proofs.Canonical
import BranchingTime.Proofs.Followers

set_option autoImplicit false

/-! # Names without a spelling

A name without a spelling is written all the same. Its text begins with a quotation mark, and mostly
reading ends right there, in an error that tells what is wrong with the name (`Formula.Flaw`). But a
name with both quotation marks can have the mark that it is put between behind something that may
stand between two such marks (`Formula.IsCutAt`). That mark ends an atom, and what is left of the
name is read as formula text. An atom ends an operand, so the text is refused all the same unless an
infix operator or a closing parenthesis follows, and then it may be read as another formula. No text
is ever read as a formula with a name that has no spelling. All this is
`Formula.parse_render_of_not_isSpellable`. -/

namespace BranchingTime

variable {c : Char} {cs ds es : List Char} {ts : List Token} {p : Position} {e : SyntaxError}

/-! ## Parts of a text -/

/-- The characters stand in the text, behind a part that spells tokens. -/
def Reaches (cs ds : List Char) : Prop :=
  ∃ front rest ts, cs = front ++ (ds ++ rest) ∧ Spells front ts

theorem reaches_self (cs : List Char) : Reaches cs cs :=
  ⟨[], [], [], by simp, spells_nil⟩

theorem Reaches.append (h : Reaches cs ds) (es : List Char) : Reaches (cs ++ es) ds := by
  obtain ⟨front, rest, ts, rfl, hfront⟩ := h
  exact ⟨front, rest ++ es, ts, by simp, hfront⟩

theorem Reaches.blank_cons (c : Char) (h : Reaches cs ds) (hc : isBlank c = true) :
    Reaches (c :: cs) ds := by
  obtain ⟨front, rest, ts, rfl, hfront⟩ := h
  exact ⟨c :: front, rest, ts, rfl, hfront.blank_cons c hc⟩

theorem Reaches.operator_cons (c : Char) (cs : List Char) (h : Reaches ds es)
    (hc : isBlank c = false)
    (hread : ∀ rest, Lexeme.read c (cs ++ rest) = .ok (.operator (c :: cs), rest)) :
    Reaches (c :: cs ++ ds) es := by
  obtain ⟨front, rest, ts, rfl, hfront⟩ := h
  exact ⟨c :: cs ++ front, rest, _, by simp, hfront.operator_cons c cs hc hread⟩

theorem Spells.reaches_append (hcs : Spells cs ts) (h : Reaches (c :: ds) es)
    (hc : isNameChar c = false) : Reaches (cs ++ c :: ds) es := by
  obtain ⟨front, rest, us, heq, hfront⟩ := h
  have hend : EndsWord front := by
    cases front with
    | nil => exact endsWord_nil
    | cons b bs => exact (List.cons.inj heq).1 ▸ endsWord_cons hc
  exact ⟨cs ++ front, rest, ts ++ us, by rw [heq, List.append_assoc], hcs.append hfront hend⟩

theorem Reaches.exists_tokens {text : String} (h : Reaches text.toList (c :: ds))
    (hc : isNameChar c = false) :
    ∃ us p rest, (Cursor.ofText text).tokens =
      (Cursor.mk p (c :: ds ++ rest)).tokens.map (us ++ ·) := by
  obtain ⟨front, rest, ts, heq, hfront⟩ := h
  obtain ⟨us, -, hu⟩ := hfront .start (c :: ds ++ rest) (endsWord_cons hc)
  rw [Cursor.ofText, heq]
  exact ⟨us, _, rest, hu⟩

namespace Formula

variable {name text : String} {f g : Formula}

/-! ## What is wrong with a name -/

/-- The quotation mark that a name is put between, if it is put between any. -/
def quotationMark (name : String) : Char :=
  if name.toList.contains '"' then '\'' else '"'

/-- What is wrong with a name: the error that its text ends in. -/
inductive Flaw : String → SyntaxError → Prop where
  | empty : Flaw "" (.unknownCharacter '"')
  | backslash {name : String} {before after : List Char}
      (hname : name.toList = before ++ '\\' :: after)
      (hbefore : ∀ c ∈ before, Lexeme.continuesQuote (quotationMark name) c = true) :
      Flaw name .backslashInQuotes
  | leadingMark {name : String} {after : List Char} (hname : name.toList = '\'' :: after)
      (hafter : '"' ∈ after) : Flaw name (.unknownCharacter '\'')

/-- The name has both quotation marks, so it is put between single ones, and in front of its own
    first single one stands something that may stand between two of them. -/
structure IsCutAt (name : String) (before after : List Char) : Prop where
  toList_eq : name.toList = before ++ '\'' :: after
  ne_nil : before ≠ []
  clean : ∀ c ∈ before, c ≠ '\'' ∧ c ≠ '\\'
  double : '"' ∈ name.toList

theorem quotationMark_eq (name : String) :
    quotationMark name = '\'' ∨ quotationMark name = '"' := by
  rw [quotationMark]
  split <;> simp

theorem isSpellableName_of_isPlainName (h : isPlainName name = true) :
    isSpellableName name = true := by
  simp only [isPlainName, Bool.and_eq_true, Bool.not_eq_true', List.isEmpty_eq_false_iff,
    List.all_eq_true] at h
  obtain ⟨⟨hne, hchars⟩, -⟩ := h
  rw [← String.ofList_toList (s := name)]
  exact isSpellableName_of_isNameChar hne hchars

theorem toList_spell (h : isSpellableName name = false) :
    (spell name).toList = quotationMark name :: (name.toList ++ [quotationMark name]) := by
  have hplain : isPlainName name = false := by
    cases hplain : isPlainName name with
    | false => rfl
    | true =>
      rw [isSpellableName_of_isPlainName hplain] at h
      cases h
  rw [spell, hplain, quotationMark]
  split_ifs <;> simp_all

theorem quotationMark_of_mem (h : '"' ∈ name.toList) : quotationMark name = '\'' := by
  rw [quotationMark, if_pos (List.contains_iff_mem.2 h)]

theorem mem_of_quotationMark_mem (h : quotationMark name ∈ name.toList) : '"' ∈ name.toList := by
  by_contra hnot
  have hquote : quotationMark name = '"' := by simp [quotationMark, hnot]
  exact hnot (hquote ▸ h)

theorem Flaw.not_isSpellableName (h : Flaw name e) : isSpellableName name = false := by
  cases h with
  | empty => rfl
  | backslash hname => simp [isSpellableName, hname]
  | leadingMark hname hafter => simp [isSpellableName, hname, hafter]

/-- A name without a spelling has a flaw, or it is cut. -/
theorem flaw_or_isCutAt (h : isSpellableName name = false) :
    (∃ e, Flaw name e) ∨ ∃ before after, IsCutAt name before after := by
  have hmark := quotationMark_eq name
  rcases hfind : name.toList.find? (fun c => !Lexeme.continuesQuote (quotationMark name) c) with
    _ | c
  -- nothing in the name ends the atom, so the name is empty
  · have hall : ∀ c ∈ name.toList, c ≠ quotationMark name ∧ c ≠ '\\' := by
      simpa [Lexeme.continuesQuote] using List.find?_eq_none.1 hfind
    by_cases hne : name.toList = []
    · rw [String.toList_eq_nil_iff.1 hne]
      exact Or.inl ⟨_, .empty⟩
    · have hspelled := isSpellableName_of_forall hmark hne hall
      rw [String.ofList_toList, h] at hspelled
      cases hspelled
  · obtain ⟨hstop, before, after, hname, hbefore⟩ := List.find?_eq_some_iff_append.1 hfind
    simp only [Bool.not_not] at hbefore
    by_cases hc : c = '\\'
    · exact Or.inl ⟨_, .backslash (hc ▸ hname) hbefore⟩
    -- the name has the mark that it is put between, so that is not the double one
    · obtain rfl : c = quotationMark name := by simpa [Lexeme.continuesQuote, hc] using hstop
      have hmem : quotationMark name ∈ name.toList := by
        rw [hname]
        exact List.mem_append_right _ List.mem_cons_self
      have hdouble := mem_of_quotationMark_mem hmem
      rw [quotationMark_of_mem hdouble] at hname hbefore
      rcases before with _ | ⟨b, bs⟩
      · refine Or.inl ⟨_, .leadingMark hname ?_⟩
        simpa [hname] using hdouble
      · refine Or.inr ⟨_, _, hname, by simp, fun c hc => ?_, hdouble⟩
        simpa [Lexeme.continuesQuote] using hbefore c hc

theorem IsCutAt.not_isSpellableName {before after : List Char} (h : IsCutAt name before after) :
    isSpellableName name = false := by
  have hsingle : '\'' ∈ name.toList := by simp [h.toList_eq]
  simp [isSpellableName, h.double, hsingle]

/-- The text of a name with a flaw is read no further than to the error. -/
theorem Flaw.tokens (h : Flaw name e) (p : Position) (rest : List Char) :
    (Cursor.mk p ((spell name).toList ++ rest)).tokens = .error e := by
  have hmark := quotationMark_eq name
  have hblank : isBlank (quotationMark name) = false := by
    rcases hmark with hmark | hmark <;> rw [hmark] <;> rfl
  rw [toList_spell h.not_isSpellableName, List.cons_append]
  refine Cursor.tokens_of_read_error hblank ?_
  cases h with
  | empty => rfl
  | @backslash _ before after hname hbefore =>
    rw [hname, List.append_assoc, List.append_assoc, List.cons_append,
      Lexeme.read_stop hmark hbefore (by simp [Lexeme.continuesQuote])]
    rfl
  | @leadingMark _ after hname hafter =>
    have hquote : quotationMark name = '\'' := quotationMark_of_mem (by simp [hname, hafter])
    rw [hname, hquote]
    have hnone : ∀ c ∈ ([] : List Char), Lexeme.continuesQuote '\'' c = true :=
      List.forall_mem_nil _
    exact Lexeme.read_stop (Or.inl rfl) hnone rfl _

/-- The text of a name that is cut is read as an atom first. -/
theorem IsCutAt.exists_atom {before after : List Char} (h : IsCutAt name before after)
    (p : Position) (rest : List Char) :
    ∃ t p', t.kind = .atom ∧ (Cursor.mk p ((spell name).toList ++ rest)).tokens =
      (Cursor.mk p' (after ++ '\'' :: rest)).tokens.map (t :: ·) := by
  have hbefore : ∀ c ∈ before, Lexeme.continuesQuote '\'' c = true := by
    simpa [Lexeme.continuesQuote] using h.clean
  have hread := Lexeme.read_quoted (Or.inl rfl) h.ne_nil hbefore (after ++ '\'' :: rest)
  rw [toList_spell h.not_isSpellableName, quotationMark_of_mem h.double, h.toList_eq]
  have htokens := Cursor.tokens_lexeme (p := p) rfl hread
  simp only [List.append_assoc, List.cons_append, List.nil_append] at htokens ⊢
  exact ⟨_, _, rfl, htokens⟩

/-! ## Formulas -/

/-- The first name without a spelling, from left to right. -/
def firstUnspellable (f : Formula) : Option String :=
  f.names.find? fun name => !isSpellableName name

theorem firstUnspellable_of_append {a b : Formula}
    (h : (a.names ++ b.names).find? (fun name => !isSpellableName name) = some name) :
    a.firstUnspellable = some name ∨ a.isSpellable = true ∧ b.firstUnspellable = some name := by
  rw [List.find?_append, Option.or_eq_some_iff] at h
  refine h.imp id fun h => ⟨?_, h.2⟩
  simpa [isSpellable_iff] using h.1

theorem exists_firstUnspellable (hf : f.isSpellable = false) :
    ∃ name, f.firstUnspellable = some name := by
  obtain ⟨name, hmem, hname⟩ := List.all_eq_false.1 hf
  rw [← Option.isSome_iff_exists, firstUnspellable, List.find?_isSome]
  exact ⟨name, hmem, by simpa using hname⟩

theorem reaches_enclose (bare : Bool) (h : Reaches text.toList ds) :
    Reaches (enclose bare text).toList ds := by
  cases bare with
  | true => exact h
  | false =>
    have henclosed := (h.append [')']).operator_cons '(' [] rfl fun _ => rfl
    simpa [enclose] using henclosed

theorem reaches_sign_cons (c : Connective) (h : Reaches cs ds) :
    Reaches (c.sign.toList ++ cs) ds := by
  cases c with
  | and => exact h.operator_cons '&' [] rfl fun _ => rfl
  | or => exact h.operator_cons '|' [] rfl fun _ => rfl
  | implies => exact h.operator_cons '-' ['>'] rfl fun _ => rfl

/-- Of two operands with a sign between them the first name without a spelling is in the left one,
    or the left one is read to its end. -/
theorem reaches_joined {a b : Formula} {sign : String}
    (hname : (a.names ++ b.names).find? (fun name => !isSpellableName name) = some name)
    (iha : a.firstUnspellable = some name → Reaches a.render.toList ds)
    (ihb : b.firstUnspellable = some name → Reaches b.render.toList ds)
    (hsign : ∀ cs, Reaches (' ' :: cs) ds → Reaches (sign.toList ++ ' ' :: cs) ds) :
    Reaches (enclose a.isTight a.render ++ " " ++ sign ++ " " ++
      enclose b.isTight b.render).toList ds := by
  rcases firstUnspellable_of_append hname with ha | ⟨ha, hb⟩
  · have hleft := reaches_enclose a.isTight (iha ha)
    have hboth := hleft.append (" " ++ sign ++ " " ++ enclose b.isTight b.render).toList
    simpa using hboth
  · have hright := (reaches_enclose b.isTight (ihb hb)).blank_cons ' ' rfl
    have hrest := (hsign _ hright).blank_cons ' ' rfl
    have hboth := (spells_enclose a.isTight (spells_render ha)).reaches_append hrest rfl
    simpa using hboth

/-- What stands before the first name without a spelling is read as in any formula. -/
theorem reaches_render (hname : f.firstUnspellable = some name) :
    Reaches f.render.toList (spell name).toList := by
  induction f with
  | atom n =>
    obtain rfl : name = n := List.mem_singleton.1 (List.mem_of_find?_eq_some hname)
    exact reaches_self _
  | truth b => cases hname
  | not a iha =>
    have hnot := (reaches_enclose a.isAtomic (iha hname)).operator_cons '!' [] rfl fun _ => rfl
    simpa [render] using hnot
  | connect c a b iha ihb =>
    exact reaches_joined hname iha ihb fun cs h => reaches_sign_cons c h
  | unary q o a iha =>
    have ha := (reaches_enclose a.isTight (iha hname)).blank_cons ' ' rfl
    have hletters : ∀ e ∈ [q.letter, o.letter], isReserved e = true := by
      simp [isReserved_quantifier, isReserved_unaryPath]
    have hword := (spells_letters hletters).reaches_append ha rfl
    simpa [render] using hword
  | binary q o a b iha ihb =>
    have hquantifier : ∀ e ∈ [q.letter], isReserved e = true := by simp [isReserved_quantifier]
    have hletter : ∀ e ∈ [o.letter], isReserved e = true := by simp [isReserved_binaryPath]
    have hpath : ∀ cs, Reaches (' ' :: cs) (spell name).toList →
        Reaches (o.letter.toString.toList ++ ' ' :: cs) (spell name).toList := by
      intro cs h
      simpa using (spells_letters hletter).reaches_append h rfl
    have hinner := (reaches_joined hname iha ihb hpath).append [')']
    have hgroup := hinner.operator_cons '(' [] rfl fun _ => rfl
    have hword := (spells_letters hquantifier).reaches_append hgroup rfl
    simpa [render] using hword

theorem exists_tokens_render (hname : f.firstUnspellable = some name) :
    ∃ us p rest, (Cursor.ofText f.render).tokens =
      (Cursor.mk p ((spell name).toList ++ rest)).tokens.map (us ++ ·) := by
  have hnot : isSpellableName name = false := by simpa using List.find?_some hname
  have hreaches := reaches_render hname
  rw [toList_spell hnot] at hreaches ⊢
  refine hreaches.exists_tokens ?_
  rcases quotationMark_eq name with hmark | hmark <;> rw [hmark] <;> rfl

theorem parse_render_of_flaw (hname : f.firstUnspellable = some name) (h : Flaw name e) :
    parse f.render = .error (.malformed e) := by
  obtain ⟨us, p, rest, htokens⟩ := exists_tokens_render hname
  rw [h.tokens] at htokens
  rw [parse, tokenize, htokens]
  rfl

/-- If the text of a formula is read although its first name without a spelling is cut, the cut is
    followed by what may follow an operand. -/
theorem goesOn_of_parse_render {before after : List Char} (hname : f.firstUnspellable = some name)
    (hcut : IsCutAt name before after) (h : parse f.render = .ok g) : goesOn after = true := by
  obtain ⟨us, p, rest, hrender⟩ := exists_tokens_render hname
  obtain ⟨t, p', hatom, hspell⟩ := hcut.exists_atom p rest
  obtain ⟨ts, tree, -, hts, htree, -⟩ := parse_eq_ok h
  have htokens := tokens_of_tokenize hts
  rw [hrender, hspell] at htokens
  obtain ⟨_, hinner, rfl⟩ := map_eq_ok.1 htokens
  obtain ⟨vs, hrest, rfl⟩ := map_eq_ok.1 hinner
  refine goesOn_of_tokens hrest fun u hu => ?_
  obtain ⟨ws, rfl⟩ := List.head?_eq_some_iff.1 hu
  exact Construct.isFollower_of_treeOfTokens htree hatom

/-- **A formula with a name that has no spelling is never read back**: what is read from its text,
    if anything, has names with spellings only. The text is refused for what is wrong with the first
    name without a spelling, or this name is cut, and then the text is refused unless the cut is
    followed by what may follow an operand. -/
theorem parse_render_of_not_isSpellable (hf : f.isSpellable = false) :
    (∀ g, parse f.render = .ok g → g.isSpellable = true ∧ g ≠ f.normalize) ∧
    ∃ name, f.firstUnspellable = some name ∧
      ((∃ e, Flaw name e ∧ parse f.render = .error (.malformed e)) ∨
        ∃ before after, IsCutAt name before after ∧
          (goesOn after = false → ∃ e, parse f.render = .error e)) := by
  refine ⟨?_, ?_⟩
  · intro g hg
    have hspellable := isSpellable_of_parse hg
    refine ⟨hspellable, ?_⟩
    rintro rfl
    rw [isSpellable_normalize, hf] at hspellable
    cases hspellable
  · obtain ⟨name, hname⟩ := exists_firstUnspellable hf
    have hnot : isSpellableName name = false := by simpa using List.find?_some hname
    refine ⟨name, hname, ?_⟩
    rcases flaw_or_isCutAt hnot with ⟨e, he⟩ | ⟨before, after, hcut⟩
    · exact Or.inl ⟨e, he, parse_render_of_flaw hname he⟩
    · refine Or.inr ⟨before, after, hcut, fun hstop => ?_⟩
      cases hparse : parse f.render with
      | error e => exact ⟨e, rfl⟩
      | ok g =>
        rw [goesOn_of_parse_render hname hcut hparse] at hstop
        cases hstop

/-- The empty name is the first that has no spelling, though the one behind it is cut. -/
theorem parse_render_of_not_isSpellable_empty :
    (and (ag (atom "p")) (or (atom "") (atom "a'\""))).isSpellable = false ∧
    parse (and (ag (atom "p")) (or (atom "") (atom "a'\""))).render =
      .error (.malformed (.unknownCharacter '"')) := by
  have hf : (and (ag (atom "p")) (or (atom "") (atom "a'\""))).isSpellable = false := rfl
  refine ⟨hf, ?_⟩
  obtain ⟨name, hname, hread⟩ := (parse_render_of_not_isSpellable hf).2
  obtain rfl : "" = name := Option.some.inj hname
  rcases hread with ⟨e, he, hread⟩ | ⟨before, after, hcut, -⟩
  · rw [hread]
    cases he with
    | empty => rfl
    | backslash hname => simp at hname
    | leadingMark hname => simp at hname
  · exact absurd hcut.double (by simp)

/-- The text of a name can be that of an operator applied to two other names, so it is read as
    the operator applied to them. -/
theorem parse_render_of_cut (c : Connective) (left right : String)
    (hleft : isSpellableName left = true) (hright : isSpellableName right = true)
    (hleftmark : '"' ∈ left.toList) (hrightmark : '"' ∈ right.toList) :
    parse (atom (left ++ "' " ++ c.sign ++ " '" ++ right)).render =
      .ok (connect c (atom left) (atom right)) := by
  have hspell : ∀ {name : String}, '"' ∈ name.toList → spell name = "'" ++ name ++ "'" := by
    intro name hname
    have hplain : isPlainName name = false := by
      have hall : name.toList.all isNameChar = false := List.all_eq_false.2 ⟨'"', hname, by decide⟩
      simp [isPlainName, hall]
    simp [spell, hplain, hname]
  have htext : (atom (left ++ "' " ++ c.sign ++ " '" ++ right)).render =
      (connect c (atom left) (atom right)).render := by
    have hwhole : '"' ∈ (left ++ "' " ++ c.sign ++ " '" ++ right).toList := by simp [hleftmark]
    rw [render, hspell hwhole]
    simp [render, enclose, isTight, isAtomic, hspell hleftmark, hspell hrightmark,
      ← String.toList_inj]
  rw [htext]
  refine parse_render_eq_self ?_ rfl rfl
  simp [isSpellable, names, hleft, hright]

/-- The name `"' & '"` is read as a conjunction. -/
theorem not_parse_render_of_not_isSpellable :
    (atom "\"' & '\"").isSpellable = false ∧
    parse (atom "\"' & '\"").render = .ok (and (atom "\"") (atom "\"")) := by
  have hname : "\"" ++ "' " ++ Connective.and.sign ++ " '" ++ "\"" = "\"' & '\"" := rfl
  refine ⟨rfl, ?_⟩
  rw [← hname]
  exact parse_render_of_cut .and "\"" "\"" rfl rfl (by decide) (by decide)

end Formula

end BranchingTime
