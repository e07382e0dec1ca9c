import BranchingTime.Proofs.Leaves
import BranchingTime.Proofs.Lexemes
import BranchingTime.Proofs.NormalForms
import BranchingTime.Proofs.RoundTrip

set_option autoImplicit false

/-! # What is read is written back

The names of a formula that is read from a text stand in the text, each as an atom, so each has a
spelling. The formula is normalized, and nothing is left to do when it is normalized once more. So
the text of the formula is read as the formula itself: from the first reading on, writing and
reading change nothing (`Formula.canonical_of_parse`). -/

namespace BranchingTime

open Formula (ofName ofTree ofOne ofTwo isSpellableName)

/-! ## Names in a text -/

theorem isSpellableName_of_forall {cs : List Char} {d : Char} (hd : d = '\'' ∨ d = '"')
    (hne : cs ≠ []) (hcs : ∀ c ∈ cs, c ≠ d ∧ c ≠ '\\') :
    isSpellableName (String.ofList cs) = true := by
  have hmark : cs.contains d = false := by
    simpa using fun hmem => (hcs d hmem).1 rfl
  have hbackslash : cs.contains '\\' = false := by
    simpa using fun hmem => (hcs _ hmem).2 rfl
  rw [isSpellableName, String.toList_ofList]
  rcases hd with rfl | rfl <;> simp_all

theorem isSpellableName_of_isNameChar {cs : List Char} (hne : cs ≠ [])
    (hcs : ∀ c ∈ cs, isNameChar c = true) : isSpellableName (String.ofList cs) = true := by
  refine isSpellableName_of_forall (Or.inl rfl) hne fun c hc => ?_
  have hc' := hcs c hc
  constructor <;> rintro rfl <;> cases hc'

theorem isSpellable_ofName {name : String} (h : isSpellableName name = true) :
    (ofName name).isSpellable = true := by
  rw [Formula.ofName_of_isSpellableName h]
  simpa [Formula.isSpellable, Formula.names] using h

namespace Lexeme

theorem kind_of_mem_letterTokens {p : Position} {cs : List Char} :
    ∀ t ∈ letterTokens p cs, t.kind = .operator := by
  induction cs generalizing p with
  | nil => simp [letterTokens]
  | cons c cs ih =>
    rw [letterTokens, List.forall_mem_cons]
    exact ⟨rfl, ih⟩

/-- An atom that is read is a literal, or it has a name with a spelling. -/
theorem IsValid.isSpellable {l : Lexeme} (hl : l.IsValid) (p : Position) :
    ∀ t ∈ l.tokens p, t.kind = .atom → (ofName t.text).isSpellable = true := by
  intro t ht hatom
  cases hl with
  | @quoted d body hd hne hbody =>
    cases List.mem_singleton.1 ht
    refine isSpellable_ofName (isSpellableName_of_forall hd hne fun c hc => ?_)
    simpa [continuesQuote] using hbody c hc
  | @literal b hletter =>
    cases List.mem_singleton.1 ht
    rcases hletter with rfl | rfl <;> rfl
  | operator =>
    cases List.mem_singleton.1 ht
    cases hatom
  | @word letters hne hletters =>
    rw [tokens] at ht
    split at ht
    · rw [kind_of_mem_letterTokens t ht] at hatom
      cases hatom
    · cases List.mem_singleton.1 ht
      exact isSpellable_ofName (isSpellableName_of_isNameChar hne hletters)

end Lexeme

/-! ## Names in a tree -/

namespace Construct

variable {text : String} {ts : List Token} {tree : Tree Construct}
  {children : List (Tree Construct)} {f g : Formula}

/-- A tree that is no atom stands for an operator applied to what its operands stand for. -/
theorem operands_of_ofTree {kind : Construct} {span : Option Span}
    (h : ofTree (.node kind text span children) = .ok f) (hkind : kind ≠ atom) :
    f.isAtomic = false ∧ List.Forall₂ (fun a g => ofTree a = .ok g) children f.operands := by
  rcases kind with _ | _ | c | o | q | ⟨q, o | o⟩ | _ | _ <;> rw [ofTree] at h
  · exact absurd rfl hkind
  · obtain ⟨g, hg, hf⟩ := bind_eq_ok.1 h
    obtain ⟨a, rfl, ha⟩ := exists_of_ofOne hg
    cases hf
    exact ⟨rfl, .cons ha .nil⟩
  · obtain ⟨⟨g, g'⟩, hg, hf⟩ := bind_eq_ok.1 h
    obtain ⟨a, b, rfl, ha, hb⟩ := exists_of_ofTwo hg
    cases hf
    exact ⟨rfl, .cons ha (.cons hb .nil)⟩
  · cases h
  · cases h
  · obtain ⟨g, hg, hf⟩ := bind_eq_ok.1 h
    obtain ⟨a, rfl, ha⟩ := exists_of_ofOne hg
    cases hf
    exact ⟨rfl, .cons ha .nil⟩
  · obtain ⟨⟨g, g'⟩, hg, hf⟩ := bind_eq_ok.1 h
    obtain ⟨a, b, rfl, ha, hb⟩ := exists_of_ofTwo hg
    cases hf
    exact ⟨rfl, .cons ha (.cons hb .nil)⟩
  · cases h
  · cases h

theorem names_eq_flatMap (h : f.isAtomic = false) :
    f.names = f.operands.flatMap Formula.names := by
  cases f with
  | atom => cases h
  | truth => cases h
  | _ => simp [Formula.names, Formula.operands]

/-- The names of what a leaf stands for. -/
def leafNames (leaf : String × Option Span) : List String := (ofName leaf.1).names

theorem flatMap_leavesAll {fs : List Formula}
    (h : List.Forall₂ (fun a g => g.names = a.leaves.flatMap leafNames) children fs) :
    fs.flatMap Formula.names = (Tree.leavesAll children).flatMap leafNames := by
  induction h with
  | nil => rfl
  | cons ha h ih => rw [List.flatMap_cons, Tree.leavesAll, List.flatMap_append, ha, ih]

/-- The names of a tree's formula are those of its leaves. -/
theorem IsBuilt.names_of_ofTree (hbuilt : IsBuilt tree) (h : ofTree tree = .ok f) :
    f.names = tree.leaves.flatMap leafNames := by
  induction hbuilt generalizing f with
  | @node kind text span children hcount hpath hnot hchildren ih =>
    by_cases hkind : kind = atom
    · subst hkind
      obtain rfl := List.length_eq_zero_iff.1 (Option.some.inj hcount).symm
      cases h
      simp [Tree.leaves, leafNames]
    · have hbuilt := IsBuilt.node kind text span hcount hpath hnot hchildren
      obtain ⟨hatomic, hoperands⟩ := operands_of_ofTree h hkind
      rw [names_eq_flatMap hatomic, hbuilt.leaves_eq hkind]
      have hboth := (List.forall₂_and_left children f.operands).2
        ⟨fun a ha g => @ih a ha g, hoperands⟩
      exact flatMap_leavesAll (hboth.imp fun a g ha => ha.1 g ha.2)

end Construct

namespace Formula

variable {name text : String} {ts : List Token} {f g : Formula}

/-! ## Spellings after normalization -/

theorem isSpellable_iff : f.isSpellable = true ↔ ∀ name ∈ f.names, isSpellableName name = true :=
  List.all_eq_true

theorem isSpellable_normalize : f.normalize.isSpellable = true ↔ f.isSpellable = true := by
  simp only [isSpellable_iff, mem_names_normalize]

/-! ## Reading what was written -/

/-- A text that is read goes through tokens and a tree. -/
theorem parse_eq_ok (h : parse text = .ok f) :
    ∃ ts tree g, tokenize text = .ok ts ∧ treeOfTokens ts = .ok tree ∧ ofTree tree = .ok g ∧
      f = g.normalize := by
  obtain ⟨ts, hts, h⟩ := bind_eq_ok.1 h
  obtain ⟨tree, htree, h⟩ := bind_eq_ok.1 h
  obtain ⟨g, hg, h⟩ := bind_eq_ok.1 h
  cases h
  exact ⟨ts, tree, g, hts, htree, hg, rfl⟩

/-- All names of a formula that is read have a spelling. -/
theorem isSpellable_of_parse (h : parse text = .ok f) : f.isSpellable = true := by
  obtain ⟨ts, tree, g, hts, htree, hg, rfl⟩ := parse_eq_ok h
  obtain ⟨hbuilt, hleaves⟩ := Construct.isBuilt_of_treeOfTokens htree
  have htokens := forall_of_tokenize (fun l hl p => hl.isSpellable p) hts
  rw [isSpellable_normalize, isSpellable_iff, hbuilt.names_of_ofTree hg]
  intro name hname
  obtain ⟨leaf, hleaf, hname⟩ := List.mem_flatMap.1 hname
  obtain ⟨t, ht, rfl⟩ := List.mem_map.1 (hleaves.subset hleaf)
  obtain ⟨ht, hatom⟩ := List.mem_filter.1 ht
  exact isSpellable_iff.1 (htokens t ht (by simpa [Token.isAtom] using hatom)) name hname

/-- A text is read as a formula, normalized, if its tokens are, with whatever ranges. -/
theorem parse_of_spells (htext : Spells text.toList ts)
    (hread : ∀ us : List Token, us.map Token.bare = ts → Construct.IsExpressionOf us f) :
    parse text = .ok f.normalize := by
  obtain ⟨us, hus, htokenize⟩ := htext.tokenize
  obtain ⟨tree, htree, hf⟩ := hread us hus
  have hroot : Construct.grammar.acceptRoot tree = .ok () := by
    show (Construct.acceptRoot tree).mapError _ = _
    rw [Construct.acceptRoot, Construct.isPath_eq_false_of_ofTree hf]
    rfl
  have hparse : treeOfTokens us = .ok tree := htree.parse hroot
  refine bind_eq_ok.2 ⟨us, htokenize, bind_eq_ok.2 ⟨tree, hparse, ?_⟩⟩
  exact bind_eq_ok.2 ⟨f, hf, rfl⟩

/-- The text of a normalized formula without double negations is read as the formula. -/
theorem parse_render_eq_self (hf : f.isSpellable = true) (hnormal : f.isNormal = true)
    (hreduced : f.isReduced = true) : parse f.render = .ok f := by
  have hread := parse_of_spells (spells_render hf) fun us hus =>
    (isRead_of_isSpellable hf us hus).1
  rwa [normalize_collapse, normalize_eq_self hnormal hreduced] at hread

/-- **A formula that is read is normalized, without double negations, and its names have a spelling;
    normalizing it once more, and reading what is written of it, give the formula again.** -/
theorem canonical_of_parse (h : parse text = .ok f) :
    f.isNormal = true ∧ f.isReduced = true ∧
      (∀ name ∈ f.names, name ≠ "" ∧ '\\' ∉ name.toList ∧
        ¬ ('\'' ∈ name.toList ∧ '"' ∈ name.toList)) ∧
      f.normalize = f ∧ parse f.render = .ok f := by
  have hspellable := isSpellable_of_parse h
  obtain ⟨-, -, g, -, -, -, rfl⟩ := parse_eq_ok h
  have hnormal := isNormal_normalize g
  have hreduced := isReduced_normalize g
  refine ⟨hnormal, hreduced, ?_, normalize_eq_self hnormal hreduced,
    parse_render_eq_self hspellable hnormal hreduced⟩
  intro name hname
  simpa [isSpellableName, and_assoc, imp_iff_not_or] using isSpellable_iff.1 hspellable name hname

/-- A formula with a derived operator and two negations, one directly under the other. -/
def derived : Formula := aw (atom "p") (not (and (atom "A") (not (not (atom "q")))))

/-- What is read from its text. -/
def derivedRead : Formula :=
  not (eu (and (atom "A") (atom "q")) (and (not (atom "p")) (and (atom "A") (atom "q"))))

theorem canonical_of_parse_derived :
    parse derived.render = .ok derivedRead ∧ derivedRead.isNormal = true ∧
      derivedRead.isReduced = true ∧ derivedRead.normalize = derivedRead ∧
      parse derivedRead.render = .ok derivedRead := by
  have h : parse derived.render = .ok derivedRead :=
    parse_of_spells (spells_render rfl) fun us hus => (isRead_of_isSpellable rfl us hus).1
  obtain ⟨hnormal, hreduced, -, hself, hread⟩ := canonical_of_parse h
  exact ⟨h, hnormal, hreduced, hself, hread⟩

end Formula

end BranchingTime
