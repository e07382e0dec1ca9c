import BranchingTime.Proofs.Leaves
import BranchingTime.Proofs.Lexemes
import Mathlib.Data.List.Chain

set_option autoImplicit false

/-! # What may follow an operand

In a derivation an operand is followed by an infix operator, by the end of a group, or by nothing.
So a token list is refused if something else follows one of its atoms
(`Construct.isFollower_of_treeOfTokens`), and already the first character of what follows can tell
(`goesOn_of_tokens`). -/

namespace BranchingTime

namespace Construct

variable {n : Phrase} {t u t' u' : Token} {ts us : List Token} {tree : Tree Construct}

/-! ## Tokens -/

/-- The spellings of the operators that an operand may be followed by. -/
def followers : List String := [")", "&", "|", "->", "U", "R", "W"]

def EndsOperand (t : Token) : Prop := t.kind = .atom ∨ t.IsOperatorIn [")"]

/-- The second token may follow the first one in a derivation. -/
def MayPrecede (t u : Token) : Prop := EndsOperand t → u.IsOperatorIn followers

theorem mayPrecede_of_operator {texts : List String} (ht : t.IsOperatorIn texts)
    (hclosing : ")" ∉ texts) (u : Token) : MayPrecede t u := by
  rintro (hatom | ⟨-, htext⟩)
  · rw [ht.1] at hatom
    cases hatom
  · exact absurd (List.mem_singleton.1 htext ▸ ht.2) hclosing

theorem Derivation.isChain_yield (d : Derivation n) : d.yield.IsChain MayPrecede := by
  induction d with
  | atom t ht => exact .singleton t
  | group t ht d u hu ih =>
    have hend : u.IsOperatorIn followers := ⟨hu.1, List.mem_singleton.1 hu.2 ▸ by decide⟩
    refine List.isChain_cons.2 ⟨fun v _ => mayPrecede_of_operator ht (by decide) v, ?_⟩
    refine ih.append (.singleton u) fun v _ w hw => ?_
    cases hw
    exact fun _ => hend
  | applied t ht d ih =>
    exact List.isChain_cons.2 ⟨fun v _ => mayPrecede_of_operator ht (by decide) v, ih⟩
  | lift o d ih => exact ih
  | join o a t ht b iha ihb =>
    have hclosing : ")" ∉ o.spellings := by cases o <;> decide
    have hsub : o.spellings ⊆ followers := by cases o <;> decide
    refine iha.append ?_ fun v _ w hw => ?_
    · exact List.isChain_cons.2 ⟨fun v _ => mayPrecede_of_operator ht hclosing v, ihb⟩
    · cases hw
      exact fun _ => ⟨ht.1, hsub ht.2⟩

/-- The token is an operator that an operand may be followed by, or it is taken for one. -/
def IsFollower (t : Token) : Prop := t.IsOperatorIn followers ∨ t.kind = .atom ∧ t.text = ")"

theorem isFollower_of_takenFor (ht : TakenFor t t') (hu : TakenFor u u') (h : MayPrecede t' u')
    (hatom : t.kind = .atom) : IsFollower u := by
  have hend : EndsOperand t' := by
    rcases ht.eq_or_closing with rfl | ⟨-, ht'⟩
    · exact Or.inl hatom
    · exact Or.inr ht'
  obtain ⟨kind, text, span⟩ := u
  rcases hu with rfl | ⟨htext, rfl⟩
  · exact Or.inl (h hend)
  · cases kind with
    | atom => exact Or.inr ⟨rfl, htext⟩
    | operator => exact Or.inl (h hend)

theorem isChain_of_takenFor (h : List.Forall₂ TakenFor ts us) (hus : us.IsChain MayPrecede) :
    ts.IsChain fun t u => t.kind = .atom → IsFollower u := by
  induction h with
  | nil => exact .nil
  | cons ht h ih =>
    cases h with
    | nil => exact .singleton _
    | cons hu h =>
      obtain ⟨hfirst, hrest⟩ := List.isChain_cons_cons.1 hus
      exact List.isChain_cons_cons.2 ⟨isFollower_of_takenFor ht hu hfirst, ih hrest⟩

/-- In a token list that is accepted, an atom is followed by an infix operator or by the end of a
    group, if by anything. -/
theorem isFollower_of_treeOfTokens (h : Formula.treeOfTokens (ts ++ t :: u :: us) = .ok tree)
    (ht : t.kind = .atom) : IsFollower u := by
  obtain ⟨d, hd, -⟩ := derives_of_parse rfl h
  have hchain := isChain_of_takenFor hd d.isChain_yield
  exact (List.isChain_append_cons_cons.1 hchain).2.1 ht

end Construct

/-! ## Characters -/

variable {c : Char} {cs ds : List Char} {ts : List Token} {l : Lexeme} {p : Position}

/-- The characters that a token which follows an operand may begin with. -/
def canFollow (c : Char) : Bool := c ∈ [')', '&', '|', '-', 'U', 'R', 'W', '\'', '"']

theorem canFollow_of_operator {span : Span}
    (h : Construct.IsFollower ((Token.operator c.toString).withSpan span)) : canFollow c = true := by
  rcases h with ⟨-, hmem⟩ | ⟨hkind, -⟩
  · have htexts : c.toString.toList ∈ Construct.followers.map String.toList :=
      List.mem_map_of_mem hmem
    have hc : c = ')' ∨ c = '&' ∨ c = '|' ∨ c = 'U' ∨ c = 'R' ∨ c = 'W' := by
      simpa [Construct.followers] using htexts
    rcases hc with rfl | rfl | rfl | rfl | rfl | rfl <;> rfl
  · cases hkind

theorem toList_of_atom {text : String} {span : Span}
    (h : Construct.IsFollower ((Token.atom text).withSpan span)) : text.toList = [')'] := by
  rcases h with ⟨hkind, -⟩ | ⟨-, htext⟩
  · cases hkind
  · exact congrArg String.toList htext

theorem Lexeme.IsValid.canFollow (hl : l.IsValid) (hsource : l.source.head? = some c) {t : Token}
    (ht : (l.tokens p).head? = some t) (h : Construct.IsFollower t) : canFollow c = true := by
  cases hl with
  | quoted hd =>
    cases hsource
    rcases hd with rfl | rfl <;> rfl
  | literal hletter =>
    cases ht
    simpa using toList_of_atom h
  | operator htext =>
    cases ht
    simp only [List.mem_cons, List.not_mem_nil, or_false] at htext
    rcases htext with rfl | rfl | rfl | rfl | rfl | rfl <;> cases hsource <;>
      first
      | rfl
      | exact canFollow_of_operator h
  | @word letters hne hletters =>
    rcases letters with _ | ⟨b, letters⟩
    · cases hsource
    obtain rfl : b = c := Option.some.inj hsource
    rw [tokens] at ht
    split at ht
    · cases ht
      exact canFollow_of_operator h
    · cases ht
      obtain ⟨rfl, -⟩ : b = ')' ∧ letters = [] := by simpa using toList_of_atom h
      cases hletters _ List.mem_cons_self

/-- Whether the text goes on, blanks aside, as it may behind an operand. -/
def goesOn (cs : List Char) : Bool := (cs.dropWhile isBlank).head?.all canFollow

theorem goesOn_of_tokens (h : (Cursor.mk p (cs ++ ds)).tokens = .ok ts)
    (hts : ∀ t ∈ ts.head?, Construct.IsFollower t) : goesOn cs = true := by
  rw [goesOn]
  cases hdrop : cs.dropWhile isBlank with
  | nil => rfl
  | cons c rest =>
    have hc : isBlank c = false := by
      have := List.head?_dropWhile_not isBlank cs
      simpa [hdrop] using this
    have hsplit : cs.takeWhile isBlank ++ (c :: (rest ++ ds)) = cs ++ ds := by
      rw [← List.cons_append, ← hdrop, ← List.append_assoc, List.takeWhile_append_dropWhile]
    rw [← hsplit, Cursor.tokens_blanks fun b hb => List.mem_takeWhile_imp hb] at h
    obtain ⟨l, rest', us, hread, rfl⟩ := Cursor.exists_lexeme_of_tokens hc h
    have hl := Lexeme.isValid_of_read hread
    obtain ⟨t, vs, hvs⟩ := List.exists_cons_of_ne_nil (hl.tokens_ne_nil _)
    have hsource : l.source.head? = some c := by
      have happend := Lexeme.source_append_of_read hread
      obtain ⟨b, bs, hbs⟩ := List.exists_cons_of_ne_nil (Lexeme.source_ne_nil_of_read hread)
      rw [hbs] at happend ⊢
      exact congrArg some (List.cons.inj happend).1
    refine hl.canFollow hsource (t := t) (by rw [hvs]; rfl) (hts t ?_)
    rw [hvs]
    rfl

end BranchingTime
