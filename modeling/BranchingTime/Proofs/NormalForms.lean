import BranchingTime.Proofs.Subformulas
import Mathlib.Tactic.Tauto

set_option autoImplicit false

/-! # Normal forms

A formula is in normal form if it is normalized and no negation stands directly under another in it.
Normalization gives every formula a normal form with the same names, and leaves a formula as it is
if and only if that is in normal form already (`Formula.normalize_normal_form`). -/

namespace BranchingTime.Formula

variable {f : Formula} {name : String}

/-! ## Names after normalization -/

@[simp] theorem names_negate (f : Formula) : f.negate.names = f.names := by
  cases f <;> rfl

theorem mem_names_normalize : name ∈ f.normalize.names ↔ name ∈ f.names := by
  induction f with
  | atom _ => exact Iff.rfl
  | truth _ => exact Iff.rfl
  | not a iha => rwa [normalize_not, names_negate, names]
  | connect c a b iha ihb => simp [normalize, names, iha, ihb]
  | unary q o a iha => cases q <;> cases o <;> simp [normalize, normalizeUnary, names, iha]
  | binary q o a b iha ihb =>
    cases q <;> cases o <;> simp [normalize, normalizeBinary, names, iha, ihb] <;> tauto

theorem toList_atoms_normalize (f : Formula) : f.normalize.atoms.toList = f.atoms.toList := by
  have hequiv : f.normalize.atoms.Equiv f.atoms :=
    .of_forall_mem_iff fun name => by rw [mem_atoms, mem_atoms, mem_names_normalize]
  exact hequiv.toList_eq

/-! ## Formulas that are left as they are -/

theorem normalizeUnary_of_isMinimal {q : Quantifier} {o : UnaryPath} {a : Formula}
    (h : (unary q o a).isMinimal = true) : normalizeUnary q o a = unary q o a := by
  cases q <;> cases o <;> first | rfl | cases h

theorem normalizeBinary_of_isMinimal {q : Quantifier} {o : BinaryPath} {a b : Formula}
    (h : (binary q o a b).isMinimal = true) : normalizeBinary q o a b = binary q o a b := by
  cases q <;> cases o <;> first | rfl | cases h

/-- Nothing is left to do in a normalized formula without double negations. -/
theorem normalize_eq_self (hnormal : f.isNormal = true) (hreduced : f.isReduced = true) :
    f.normalize = f := by
  induction f with
  | atom _ => rfl
  | truth _ => rfl
  | not a iha =>
    obtain ⟨hinner, ha⟩ := Bool.and_eq_true_iff.1 hreduced
    rw [normalize_not, iha hnormal ha, negate_of_not_isNegation (by simpa using hinner)]
  | connect c a b iha ihb =>
    obtain ⟨hna, hnb⟩ := Bool.and_eq_true_iff.1 hnormal
    obtain ⟨hra, hrb⟩ := Bool.and_eq_true_iff.1 hreduced
    rw [normalize, iha hna hra, ihb hnb hrb]
  | unary q o a iha =>
    obtain ⟨hminimal, ha⟩ := Bool.and_eq_true_iff.1 hnormal
    rw [normalize, iha ha hreduced, normalizeUnary_of_isMinimal hminimal]
  | binary q o a b iha ihb =>
    obtain ⟨hrest, hnb⟩ := Bool.and_eq_true_iff.1 hnormal
    obtain ⟨hminimal, hna⟩ := Bool.and_eq_true_iff.1 hrest
    obtain ⟨hra, hrb⟩ := Bool.and_eq_true_iff.1 hreduced
    rw [normalize, iha hna hra, ihb hnb hrb, normalizeBinary_of_isMinimal hminimal]

theorem normalize_eq_self_iff :
    f.normalize = f ↔ f.isNormal = true ∧ f.isReduced = true := by
  constructor
  · intro h
    rw [← h]
    exact ⟨isNormal_normalize f, isReduced_normalize f⟩
  · rintro ⟨hnormal, hreduced⟩
    exact normalize_eq_self hnormal hreduced

theorem normalize_normalize (f : Formula) : f.normalize.normalize = f.normalize :=
  normalize_eq_self (isNormal_normalize f) (isReduced_normalize f)

/-! ## All together -/

/-- **Normalization gives a normal form, and does nothing to a formula that has it.** The operators
    left are those of the minimal set, no negation is left directly under another, and no name is
    lost or added. Negating a formula first negates the result. -/
theorem normalize_normal_form (f : Formula) :
    (∀ g ∈ f.normalize.subformulas, g.isMinimal = true) ∧
    (∀ a, not (not a) ∉ f.normalize.subformulas) ∧
    f.normalize.atoms.toList = f.atoms.toList ∧
    (not f).normalize = f.normalize.negate ∧
    (f.normalize = f ↔ f.isNormal = true ∧ ∀ a, not (not a) ∉ f.subformulas) ∧
    f.normalize.normalize = f.normalize := by
  refine ⟨isNormal_iff_forall_isMinimal.1 (isNormal_normalize f),
    isReduced_iff_forall_ne.1 (isReduced_normalize f), toList_atoms_normalize f, normalize_not f,
    ?_, normalize_normalize f⟩
  rw [normalize_eq_self_iff, isReduced_iff_forall_ne]

end BranchingTime.Formula
