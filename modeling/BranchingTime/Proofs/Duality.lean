import BranchingTime.Proofs.DerivedOperators

set_option autoImplicit false

/-! # Dual operators

What holds along every path is what fails along none, and weak until is a release. So each universal
operator is the negation of an existential one with negated operands, and both operators that say
weak until can be had from those that say release. The sets computed have all these identities, in
models with deadlocks too (`Checker.sat_duals`).

Between operators with one operand, and between `AR` and `EU`, the two sides have one normal form.
The others are normalized to different formulas, and it is what is found for these that agrees: the
rules of `AU` and `ER` are wrong at the same states, and so are those of `EW` and `ER`. -/

namespace BranchingTime

open Formula (ex ef eg ax af ag eu er ew au ar aw)

/-- What a path operator says of an operand if the negation of the operand is not said of it. -/
def UnaryPath.dual : UnaryPath → UnaryPath
  | next => next
  | eventually => always
  | always => eventually

namespace Formula

theorem normalize_every_unary (o : UnaryPath) (a : Formula) :
    (unary .every o a).normalize = (not (unary .some o.dual (not a))).normalize := by
  rw [normalize_not, normalize, normalize, normalize_not]
  cases o <;> rfl

theorem normalize_ar (a b : Formula) :
    (ar a b).normalize = (not (eu (not a) (not b))).normalize := by
  rw [normalize_not, normalize, normalize, normalize_not, normalize_not]
  rfl

end Formula

namespace Checker

variable {ι : Type} [DecidableEq ι] [Hashable ι] {c : Checker ι} {A B P Q : Nat → Prop}
  {a b f g : Formula}

/-! ## One set for two formulas -/

/-- When the formulas are normalized, sets are computed for both, and these are the same. -/
def SameSet (c : Checker ι) (f g : Formula) : Prop :=
  ∃ s, (∀ n, ((c.sat f.normalize).exec n).1 = .ok s) ∧
    ∀ n, ((c.sat g.normalize).exec n).1 = .ok s

theorem Finds.sameSet (hf : c.Finds f.normalize P) (hg : c.Finds g.normalize Q)
    (h : ∀ i < c.model.size, P i ↔ Q i) : c.SameSet f g := by
  obtain ⟨s, k, hs, hsrep⟩ := hf
  obtain ⟨t, l, ht, htrep⟩ := hg
  obtain rfl : s = t := (hsrep.congr h).unique htrep
  exact ⟨s, fun n => by rw [hs n], fun n => by rw [ht n]⟩

theorem sameSet_of_normalize_eq (c : Checker ι) (h : f.normalize = g.normalize) :
    c.SameSet f g := by
  have hf := c.finds_normalize f
  exact hf.sameSet (h ▸ hf) fun _ _ => Iff.rfl

/-! ## What is found for negations and for universal operators -/

theorem Finds.negate_normalize (ha : c.Finds a.normalize A) :
    c.Finds a.normalize.negate (fun i => ¬ A i) :=
  ha.negate (Formula.isNormal_normalize a)

theorem finds_normalize_not (ha : c.Finds a.normalize A) :
    c.Finds (Formula.not a).normalize (fun i => ¬ A i) := by
  rw [Formula.normalize_not]
  exact ha.negate_normalize

theorem finds_normalize_or (ha : c.Finds a.normalize A) (hb : c.Finds b.normalize B) :
    c.Finds (Formula.or a b).normalize (fun i => A i ∨ B i) :=
  ha.connect .or hb

theorem finds_normalize_ar (ha : c.Finds a.normalize A) (hb : c.Finds b.normalize B) :
    c.Finds (ar a b).normalize
      (fun i => ¬ SomeUntil c.model.Step (fun j => ¬ A j) (fun j => ¬ B j) i) :=
  (ha.negate_normalize.eu hb.negate_normalize).not

theorem finds_normalize_aw (ha : c.Finds a.normalize A) (hb : c.Finds b.normalize B) :
    c.Finds (aw a b).normalize
      (fun i => ¬ SomeUntil c.model.Step (fun j => ¬ B j) (fun j => ¬ A j ∧ ¬ B j) i) := by
  have hneither := ha.negate_normalize.connect .and hb.negate_normalize
  exact (hb.negate_normalize.eu hneither).not

/-! ## The identities -/

theorem sameSet_au (c : Checker ι) (a b : Formula) :
    c.SameSet (au a b) (.not (er (.not a) (.not b))) := by
  have hA := c.finds_holdsAt a
  have hB := c.finds_holdsAt b
  have her := finds_normalize_er (finds_normalize_not hA) (finds_normalize_not hB)
  refine (finds_normalize_au hA hB).sameSet (finds_normalize_not her) fun i _ => ?_
  rw [not_and_or, Classical.not_not]

theorem sameSet_aw (c : Checker ι) (a b : Formula) :
    c.SameSet (aw a b) (ar b (.or a b)) := by
  have hA := c.finds_holdsAt a
  have hB := c.finds_holdsAt b
  refine (finds_normalize_aw hA hB).sameSet
    (finds_normalize_ar hB (finds_normalize_or hA hB)) fun i _ => ?_
  simp only [not_or]

theorem sameSet_ew (c : Checker ι) (a b : Formula) :
    c.SameSet (ew a b) (er b (.or a b)) := by
  have hA := c.finds_holdsAt a
  have hB := c.finds_holdsAt b
  -- a state of the second operand is one of either, so the until of the release ends where it does
  have hend : ∀ j, c.HoldsAt b j ∧ (c.HoldsAt a j ∨ c.HoldsAt b j) ↔ c.HoldsAt b j :=
    fun j => and_iff_left_of_imp Or.inr
  refine (finds_normalize_ew hA hB).sameSet
    (finds_normalize_er hB (finds_normalize_or hA hB)) fun i _ => ?_
  simp only [hend]

/-- **The sets computed for derived operators are dual to each other**, whatever the model and the
    operands. -/
theorem sat_duals (c : Checker ι) (a b : Formula) :
    c.SameSet (au a b) (.not (er (.not a) (.not b))) ∧
    c.SameSet (ar a b) (.not (eu (.not a) (.not b))) ∧
    c.SameSet (aw a b) (ar b (.or a b)) ∧
    c.SameSet (ew a b) (er b (.or a b)) ∧
    c.SameSet (ag a) (.not (ef (.not a))) ∧
    c.SameSet (af a) (.not (eg (.not a))) ∧
    c.SameSet (ax a) (.not (ex (.not a))) :=
  ⟨c.sameSet_au a b, c.sameSet_of_normalize_eq (Formula.normalize_ar a b), c.sameSet_aw a b,
    c.sameSet_ew a b,
    c.sameSet_of_normalize_eq (Formula.normalize_every_unary .always a),
    c.sameSet_of_normalize_eq (Formula.normalize_every_unary .eventually a),
    c.sameSet_of_normalize_eq (Formula.normalize_every_unary .next a)⟩

end Checker

end BranchingTime
