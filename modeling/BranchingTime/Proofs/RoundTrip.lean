import BranchingTime.Proofs.Reading
import BranchingTime.Proofs.Rendering

set_option autoImplicit false

/-! # Rendered formulas are read back

The tokens of a rendered formula are read as the formula, but for its double negations: the parser
takes them away from the inside out while it reads (`Formula.collapse`), and normalization takes
them away by its own rules. The two orders agree in the end, so what comes back is the normalized
formula (`Formula.parse_render`). -/

namespace BranchingTime.Formula

open Construct (IsExpressionOf IsOperandOf)

variable {name : String} {ts : List Token} {a b f : Formula}

/-! ## Double negations -/

/-- The formula without the double negations that the parser takes away. -/
def collapse : Formula → Formula
  | atom name => atom name
  | truth b => truth b
  | not a => negate a.collapse
  | connect c a b => connect c a.collapse b.collapse
  | unary q o a => unary q o a.collapse
  | binary q o a b => binary q o a.collapse b.collapse

theorem normalize_collapse (f : Formula) : f.collapse.normalize = f.normalize := by
  induction f with
  | atom name => rfl
  | truth b => rfl
  | not a iha => rw [collapse, normalize_negate, iha, normalize_not]
  | connect c a b iha ihb => rw [collapse, normalize, iha, ihb, normalize]
  | unary q o a iha => rw [collapse, normalize, iha, normalize]
  | binary q o a b iha ihb => rw [collapse, normalize, iha, ihb, normalize]

/-! ## Names -/

theorem ofName_literal (b : Bool) : ofName (literal b) = truth b := by
  cases b <;> rfl

/-- A name without a backslash is that of no literal. -/
theorem ofName_of_isSpellableName (h : isSpellableName name = true) : ofName name = atom name := by
  have hliteral : ∀ b, name ≠ literal b := by
    rintro b rfl
    cases b <;> cases h
  rw [ofName, if_neg (hliteral true), if_neg (hliteral false)]

/-! ## Reading the tokens of a formula -/

/-- The tokens of the formula, with whatever ranges, are read as the formula. -/
def IsRead (f : Formula) : Prop :=
  ∀ ts : List Token, ts.map Token.bare = f.tokens →
    IsExpressionOf ts f.collapse ∧ (f.isTight = true → IsOperandOf ts f.collapse)

theorem isRead_of_isOperandOf
    (h : ∀ ts : List Token, ts.map Token.bare = f.tokens → IsOperandOf ts f.collapse) :
    f.IsRead := by
  intro ts hts
  exact ⟨(h ts hts).isExpressionOf, fun _ => h ts hts⟩

/-- An operand is read as one, between parentheses or without where it needs none. -/
theorem IsRead.isOperandOf (h : f.IsRead) {bare : Bool} (hbare : bare = true → f.isTight = true)
    (hts : ts.map Token.bare = encloseTokens bare f.tokens) : IsOperandOf ts f.collapse := by
  cases bare with
  | true => exact (h ts hts).2 (hbare rfl)
  | false =>
    obtain ⟨t, us, rfl, ht, hus⟩ := List.map_eq_cons_iff.1 hts
    obtain ⟨vs, ws, rfl, hvs, hws⟩ := List.map_eq_append_iff.1 hus
    obtain ⟨w, rfl, hw⟩ := List.map_eq_singleton_iff.1 hws
    exact (h vs hvs).1.enclosed ht hw

theorem isTight_of_isAtomic (h : f.isAtomic = true) : f.isTight = true := by
  cases f with
  | not a => cases h
  | _ => exact h

/-- **The tokens of a formula are read as the formula**, but for its double negations. -/
theorem isRead_of_isSpellable (hf : f.isSpellable = true) : f.IsRead := by
  induction f with
  | atom name =>
    have hname : isSpellableName name = true := isSpellable_atom.symm.trans hf
    refine isRead_of_isOperandOf ?_
    intro ts hts
    obtain ⟨t, rfl, ht⟩ := List.map_eq_singleton_iff.1 hts
    have hread := Construct.isOperandOf_atom ht
    rwa [ofName_of_isSpellableName hname] at hread
  | truth b =>
    refine isRead_of_isOperandOf ?_
    intro ts hts
    obtain ⟨t, rfl, ht⟩ := List.map_eq_singleton_iff.1 hts
    have hread := Construct.isOperandOf_atom ht
    rwa [ofName_literal] at hread
  | not a iha =>
    refine isRead_of_isOperandOf ?_
    intro ts hts
    obtain ⟨t, us, rfl, ht, hus⟩ := List.map_eq_cons_iff.1 hts
    exact ((iha hf).isOperandOf isTight_of_isAtomic hus).not ht
  | connect c a b iha ihb =>
    obtain ⟨ha, hb⟩ := isSpellable_connect.1 hf
    intro ts hts
    obtain ⟨us, vs, rfl, hus, hvs⟩ := List.map_eq_append_iff.1 hts
    obtain ⟨t, ws, rfl, ht, hws⟩ := List.map_eq_cons_iff.1 hvs
    have hleft := (iha ha).isOperandOf id hus
    have hright := (ihb hb).isOperandOf id hws
    -- of all forms this one alone is no operand without parentheses
    refine ⟨hleft.connect c ht hright, ?_⟩
    intro htight
    cases htight
  | unary q o a iha =>
    refine isRead_of_isOperandOf ?_
    intro ts hts
    obtain ⟨t, us, rfl, ht, hus⟩ := List.map_eq_cons_iff.1 hts
    obtain ⟨u, vs, rfl, hu, hvs⟩ := List.map_eq_cons_iff.1 hus
    exact ((iha hf).isOperandOf id hvs).unary q o ht hu
  | binary q o a b iha ihb =>
    obtain ⟨ha, hb⟩ := isSpellable_binary.1 hf
    refine isRead_of_isOperandOf ?_
    intro ts hts
    obtain ⟨t, us, rfl, ht, hus⟩ := List.map_eq_cons_iff.1 hts
    obtain ⟨v, vs, rfl, hv, hvs⟩ := List.map_eq_cons_iff.1 hus
    obtain ⟨as, ws, rfl, has, hws⟩ := List.map_eq_append_iff.1 hvs
    obtain ⟨u, xs, rfl, hu, hxs⟩ := List.map_eq_cons_iff.1 hws
    obtain ⟨bs, ys, rfl, hbs, hys⟩ := List.map_eq_append_iff.1 hxs
    obtain ⟨w, rfl, hw⟩ := List.map_eq_singleton_iff.1 hys
    have hleft := (iha ha).isOperandOf id has
    have hright := (ihb hb).isOperandOf id hbs
    have hwhole := hleft.binary q o ht hv hu hw hright
    rwa [List.append_assoc, List.cons_append] at hwhole

/-! ## Texts -/

/-- **The text of a formula is read back as the formula, normalized**, if all its names have a
    spelling. -/
theorem parse_render (hf : f.isSpellable = true) : parse f.render = .ok f.normalize := by
  obtain ⟨ts, hts, htokenize⟩ := (spells_render hf).tokenize
  obtain ⟨tree, hread, htree⟩ := (isRead_of_isSpellable hf ts hts).1
  have hroot : Construct.grammar.acceptRoot tree = .ok () := by
    show (Construct.acceptRoot tree).mapError _ = _
    rw [Construct.acceptRoot, Construct.isPath_eq_false_of_ofTree htree]
    rfl
  have hparse : treeOfTokens ts = .ok tree := hread.parse hroot
  simp only [parse, htokenize, ofTokens, hparse, normalOfTree, htree, bind, Except.bind, pure,
    Except.pure, normalize_collapse]

/-- Names of reserved letters or with blanks, parentheses and quotation marks, under negations that
    the parser and normalization take away in different orders. -/
def quoted : Formula :=
  not (not (not (aw (atom "AG") (not (not (er (atom "it's (p)") (atom "say \"EX\"")))))))

theorem parse_render_quoted :
    quoted.isSpellable = true ∧ parse quoted.render = .ok quoted.normalize :=
  ⟨rfl, parse_render rfl⟩

end BranchingTime.Formula
