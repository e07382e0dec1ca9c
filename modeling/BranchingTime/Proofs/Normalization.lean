import BranchingTime.Formula.Normal
import BranchingTime.Proofs.Meaning

set_option autoImplicit false

/-! # What normalization gives, and what it means

A normalized formula is built from the minimal set of operators, and no negation stands directly
under another in it. On formulas of the second sort `Formula.negate` undoes itself.

The rule of an operator is exact if it gives a formula with the meaning of the operator, in every
model. The rules of all operators are exact but for those of `ER`, `EW` and `AU`, so normalization
keeps the meaning of the formulas without these three (`Formula.holds_normalize`). -/

namespace BranchingTime

namespace Formula

/-! ## Negations -/

/-- Whether the formula is a negation. -/
def isNegation : Formula → Bool
  | not _ => true
  | _ => false

/-- Whether no negation stands directly under another. -/
def isReduced : Formula → Bool
  | atom _ => true
  | truth _ => true
  | not a => !a.isNegation && a.isReduced
  | connect _ a b => a.isReduced && b.isReduced
  | unary _ _ a => a.isReduced
  | binary _ _ a b => a.isReduced && b.isReduced

variable {a b f : Formula}

theorem negate_of_not_isNegation (h : a.isNegation = false) : a.negate = not a := by
  cases a with
  | not a => cases h
  | _ => rfl

theorem isReduced_negate (h : a.isReduced = true) : a.negate.isReduced = true := by
  cases ha : a.isNegation with
  | false =>
    rw [negate_of_not_isNegation ha, isReduced, ha, h]
    rfl
  | true =>
    cases a with
    | not a => exact (Bool.and_eq_true_iff.1 h).2
    | _ => cases ha

theorem isNormal_negate (h : a.isNormal = true) : a.negate.isNormal = true := by
  cases a with
  | not a => exact h
  | _ => exact h

theorem negate_negate (h : a.isReduced = true) : a.negate.negate = a := by
  cases ha : a.isNegation with
  | false =>
    rw [negate_of_not_isNegation ha]
    rfl
  | true =>
    cases a with
    | not a =>
      obtain ⟨hinner, -⟩ := Bool.and_eq_true_iff.1 h
      have ha' : a.isNegation = false := by simpa using hinner
      exact negate_of_not_isNegation ha'
    | _ => cases ha

/-! ## The form of the result -/

theorem isReduced_normalizeUnary (q : Quantifier) (o : UnaryPath) (h : a.isReduced = true) :
    (normalizeUnary q o a).isReduced = true := by
  cases q <;> cases o <;> simp [normalizeUnary, isReduced, isReduced_negate, h]

theorem isReduced_normalizeBinary (q : Quantifier) (o : BinaryPath) (ha : a.isReduced = true)
    (hb : b.isReduced = true) : (normalizeBinary q o a b).isReduced = true := by
  cases q <;> cases o <;> simp [normalizeBinary, isReduced, isReduced_negate, ha, hb]

theorem isReduced_normalize (f : Formula) : f.normalize.isReduced = true := by
  induction f using normalize.induct with
  | case1 name => rfl
  | case2 b => rfl
  | case3 a iha => exact iha
  | case4 a hnegation iha =>
    rw [normalize]
    · exact isReduced_negate iha
    · exact hnegation
  | case5 o a b iha ihb => exact Bool.and_eq_true_iff.2 ⟨iha, ihb⟩
  | case6 q o a iha => exact isReduced_normalizeUnary q o iha
  | case7 q o a b iha ihb => exact isReduced_normalizeBinary q o iha ihb

/-- Two negations that are taken away make no difference to what is left. -/
theorem normalize_not (a : Formula) : (not a).normalize = a.normalize.negate := by
  induction a with
  | not a iha =>
    calc (not (not a)).normalize = a.normalize := rfl
      _ = a.normalize.negate.negate := (negate_negate (isReduced_normalize a)).symm
      _ = (not a).normalize.negate := by rw [iha]
  | _ => rfl

theorem isNormal_normalize (f : Formula) : f.normalize.isNormal = true := by
  induction f with
  | atom name => rfl
  | truth b => rfl
  | not a iha =>
    rw [normalize_not]
    exact isNormal_negate iha
  | connect o a b iha ihb => exact Bool.and_eq_true_iff.2 ⟨iha, ihb⟩
  | unary q o a iha =>
    cases q <;> cases o <;>
      simp [normalize, normalizeUnary, isNormal, isMinimal, isNormal_negate, iha]
  | binary q o a b iha ihb =>
    cases q <;> cases o <;>
      simp [normalize, normalizeBinary, isNormal, isMinimal, isNormal_negate, iha, ihb]

/-- Taking a negation away before normalizing is the same as doing so afterwards. -/
theorem normalize_negate (a : Formula) : a.negate.normalize = a.normalize.negate := by
  cases a with
  | not a =>
    rw [normalize_not, negate_negate (isReduced_normalize a)]
    rfl
  | _ => rfl

/-! ## The meaning of the result -/

/-- Whether the rules of all operators are exact: none of them is `ER`, `EW` or `AU`. -/
def isExact : Formula → Bool
  | atom _ => true
  | truth _ => true
  | not a => a.isExact
  | connect _ a b => a.isExact && b.isExact
  | unary _ _ a => a.isExact
  | er _ _ => false
  | ew _ _ => false
  | au _ _ => false
  | binary _ _ a b => a.isExact && b.isExact

variable {ι : Type} {m : Model ι} {i : Nat}

@[simp] theorem holds_negate : a.negate.Holds m i ↔ ¬ a.Holds m i := by
  cases a with
  | not a => exact Classical.not_not.symm
  | _ => exact Iff.rfl

theorem holds_negate_eq : a.negate.Holds m = fun i => ¬ a.Holds m i :=
  funext fun _ => propext holds_negate

/-- The rules of operators with one operand are exact. -/
theorem holds_normalizeUnary (q : Quantifier) (o : UnaryPath) :
    (normalizeUnary q o a).Holds m i ↔ holdsUnary m.Step q o (a.Holds m) i := by
  cases q with
  | some =>
    cases o with
    | next => exact Iff.rfl
    | eventually =>
      rw [someEventually_iff]
      show SomeUntil m.Step (fun _ => true = true) (a.Holds m) i ↔ _
      simp only
    | always => exact Iff.rfl
  | every =>
    cases o with
    | next =>
      rw [everyNext_iff, normalizeUnary, holds_negate, ← holds_negate_eq]
      exact Iff.rfl
    | eventually =>
      rw [everyEventually_iff, normalizeUnary, holds_negate, ← holds_negate_eq]
      exact Iff.rfl
    | always =>
      rw [everyAlways_iff, normalizeUnary, holds_negate, ← holds_negate_eq]
      show ¬ SomeUntil m.Step (fun _ => true = true) (a.negate.Holds m) i ↔ _
      simp only

theorem holds_normalize_ar :
    (normalizeBinary .every .release a b).Holds m i ↔ (ar a b).Holds m i := by
  rw [Holds, everyRelease_iff, normalizeBinary, holds_negate, ← holds_negate_eq, ← holds_negate_eq]
  exact Iff.rfl

theorem holds_normalize_aw :
    (normalizeBinary .every .weakUntil a b).Holds m i ↔ (aw a b).Holds m i := by
  rw [Holds, everyWeakUntil_iff, normalizeBinary, holds_negate]
  show ¬ SomeUntil m.Step (b.negate.Holds m)
    (fun j => a.negate.Holds m j ∧ b.negate.Holds m j) i ↔ _
  simp only [holds_negate_eq]

/-- **Normalization keeps the meaning of formulas whose rules are exact.** -/
theorem holds_normalize (hf : f.isExact = true) : f.normalize.Holds m = f.Holds m := by
  induction f with
  | atom name => rfl
  | truth b => rfl
  | not a iha =>
    funext i
    rw [normalize_not, holds_negate_eq, iha hf]
    rfl
  | connect o a b iha ihb =>
    obtain ⟨ha, hb⟩ := Bool.and_eq_true_iff.1 hf
    funext i
    simp only [normalize, Holds, iha ha, ihb hb]
  | unary q o a iha =>
    funext i
    rw [normalize, holds_normalizeUnary, iha hf, Holds]
  | binary q o a b iha ihb =>
    funext i
    cases q with
    | some =>
      cases o with
      | strongUntil =>
        obtain ⟨ha, hb⟩ := Bool.and_eq_true_iff.1 hf
        simp only [normalize, normalizeBinary, Holds, iha ha, ihb hb]
      | release => cases hf
      | weakUntil => cases hf
    | every =>
      cases o with
      | strongUntil => cases hf
      | release =>
        obtain ⟨ha, hb⟩ := Bool.and_eq_true_iff.1 hf
        rw [normalize, holds_normalize_ar, Holds, iha ha, ihb hb, Holds]
      | weakUntil =>
        obtain ⟨ha, hb⟩ := Bool.and_eq_true_iff.1 hf
        rw [normalize, holds_normalize_aw, Holds, iha ha, ihb hb, Holds]

end Formula

end BranchingTime
