import BranchingTime.Proofs.FiniteSets
import BranchingTime.Proofs.Satisfaction
import Mathlib.Order.Bounds.Basic

set_option autoImplicit false

/-! # Extreme fixpoints

The set of `EG a` is the greatest one that its functional does not lead out of, and that of
`E(a U b)` the least one that its functional does not lead out of (`Checker.sat_eg_eu_fixpoints`).
Neither is computed with the functional itself: what is shrunk is combined with its own
predecessors, and what is grown with itself. Round by round this makes no difference. A set that the
functional of `EG` makes no larger is made the same by one round of either sort, and so is a set
that the functional of `EU` makes no smaller; and what one round makes is again such a set, as more
states have no fewer predecessors. -/

namespace BranchingTime

/-! ## Inclusion -/

/-- Sets with one bound are ordered by inclusion; others are not comparable. -/
instance : PartialOrder BitSet where
  le s t := s.isSubset t = true
  le_refl s := BitSet.isSubset_iff.2 ⟨rfl, fun _ hi => hi⟩
  le_trans s t u hst htu := by
    obtain ⟨hbound, hmem⟩ := BitSet.isSubset_iff.1 hst
    obtain ⟨hbound', hmem'⟩ := BitSet.isSubset_iff.1 htu
    exact BitSet.isSubset_iff.2 ⟨hbound.trans hbound', fun i hi => hmem' i (hmem i hi)⟩
  le_antisymm s t hst hts := by
    obtain ⟨hbound, hmem⟩ := BitSet.isSubset_iff.1 hst
    obtain ⟨-, hmem'⟩ := BitSet.isSubset_iff.1 hts
    exact BitSet.ext hbound fun i => Bool.eq_iff_iff.2 ⟨hmem i, hmem' i⟩

theorem BitSet.le_iff {s t : BitSet} :
    s ≤ t ↔ s.bound = t.bound ∧ ∀ i, s.contains i = true → t.contains i = true :=
  isSubset_iff

/-! ## Rounds -/

section

variable {step step' : BitSet → Except Misuse BitSet} {Inv : BitSet → Prop} {y : BitSet}

/-- Steps that do the same to every set with a property, and keep the property, do the same in any
    number of rounds. -/
theorem rounds_eq (hstep : ∀ y, Inv y → ∃ z, step y = .ok z ∧ step' y = .ok z ∧ Inv z)
    (hy : Inv y) (k : Nat) : ∃ z, rounds step k y = .ok z ∧ rounds step' k y = .ok z := by
  induction k generalizing y with
  | zero => exact ⟨y, rfl, rfl⟩
  | succ k ih =>
    obtain ⟨z, hz, hz', hInv⟩ := hstep y hy
    obtain ⟨u, hu, hu'⟩ := ih hInv
    exact ⟨u, bind_eq_ok.2 ⟨z, hz, hu⟩, bind_eq_ok.2 ⟨z, hz', hu'⟩⟩

end

/-- The set is the greatest of those that are contained in what `F` makes of them, and `F` leaves it
    as it is. -/
structure IsGreatestFixpoint (F : BitSet → Except Misuse BitSet) (u : BitSet) : Prop where
  isGreatest : IsGreatest {z | ∃ v, F z = .ok v ∧ z ≤ v} u
  fixed : F u = .ok u

/-- The set is the least of those that contain what `F` makes of them, and `F` leaves it as it
    is. -/
structure IsLeastFixpoint (F : BitSet → Except Misuse BitSet) (u : BitSet) : Prop where
  isLeast : IsLeast {z | ∃ v, F z = .ok v ∧ v ≤ z} u
  fixed : F u = .ok u

namespace Checker

variable {ι : Type} [DecidableEq ι] [Hashable ι] {c : Checker ι} {A B : Nat → Prop}
  {w x y u : BitSet} {a b : Formula}

/-! ## Rounds of `EG` -/

/-- The functional of `EG` makes the set no larger. -/
structure Descending (c : Checker ι) (A : Nat → Prop) (y : BitSet) : Prop where
  bound : y.bound = c.model.size
  only : ∀ i, y.contains i = true → A i
  image : ∀ i < c.model.size, A i →
    SomeNext c.model.Step (fun j => y.contains j = true) i → y.contains i = true

theorem Descending.step (hw : w.Represents c.model.size A) (h : c.Descending A y) :
    ∃ z, c.shrinkStep y = .ok z ∧ c.alwaysOf w y = .ok z ∧ c.Descending A z := by
  obtain ⟨z, hz, hrep⟩ := shrinkStep_represents h.bound
  obtain ⟨z', hz', hrep'⟩ := alwaysOf_represents hw y
  have hsame : z' = z := by
    refine hrep'.unique (hrep.congr fun i hi => and_congr_left fun hnext => ?_)
    exact ⟨h.only i, fun hA => h.image i hi hA hnext⟩
  have hle : ∀ i, z.contains i = true → y.contains i = true :=
    fun i hi => ((hrep.contains_iff i).1 hi).2.1
  refine ⟨z, hz, hsame ▸ hz', hrep.bound, fun i hi => h.only i (hle i hi), fun i hi hA hnext => ?_⟩
  have hnext' := hnext.mono hle
  exact (hrep.mem i hi).2 ⟨h.image i hi hA hnext', hnext'⟩

theorem rounds_shrinkStep (hx : x.Represents c.model.size A) (k : Nat) :
    ∃ z, rounds c.shrinkStep k x = .ok z ∧ rounds (c.alwaysOf x) k x = .ok z := by
  have hstart : c.Descending A x := by
    refine ⟨hx.bound, fun i hi => ((hx.contains_iff i).1 hi).2, ?_⟩
    intro i hi hA _
    exact (hx.mem i hi).2 hA
  exact rounds_eq (fun _ h => Descending.step hx h) hstart k

theorem isGreatestFixpoint_alwaysOf (hx : x.Represents c.model.size A)
    (hu : u.Represents c.model.size (SomeAlways c.model.Step A)) :
    IsGreatestFixpoint (c.alwaysOf x) u := by
  have hfixed : c.alwaysOf x u = .ok u := by
    obtain ⟨v, hv, hrep⟩ := alwaysOf_represents hx u
    have hsame : u = v := by
      refine hu.unique (hrep.congr fun i _ => ?_)
      rw [someAlways_iff]
      exact and_congr_right fun _ => exists_congr fun j =>
        and_congr_right fun hij => hu.mem j hij.lt_right
    exact hsame ▸ hv
  refine ⟨⟨⟨u, hfixed, le_rfl⟩, ?_⟩, hfixed⟩
  rintro z ⟨v, hv, hle⟩
  obtain ⟨v', hv', hrep⟩ := alwaysOf_represents hx z
  obtain rfl : v' = v := Except.ok.inj (hv'.symm.trans hv)
  obtain ⟨hbound, hmem⟩ := BitSet.le_iff.1 hle
  -- from a member of the competing set a path leads on within that set
  have hclosed : ∀ i, z.contains i = true → A i ∧ ∃ j, c.model.Step i j ∧ z.contains j = true :=
    fun i hi => ((hrep.contains_iff i).1 (hmem i hi)).2
  refine BitSet.le_iff.2 ⟨(hbound.trans hrep.bound).trans hu.bound.symm, fun i hi => ?_⟩
  have hlt : i < c.model.size := ((hrep.contains_iff i).1 (hmem i hi)).1
  exact (hu.mem i hlt).2 (someAlways_of_closed hclosed hi)

/-! ## Rounds of `EU` -/

/-- The functional of `EU` makes the set no smaller. -/
structure Ascending (c : Checker ι) (A B : Nat → Prop) (y : BitSet) : Prop where
  bound : y.bound = c.model.size
  keeps : ∀ i < c.model.size, B i → y.contains i = true
  image : ∀ i, y.contains i = true →
    B i ∨ A i ∧ SomeNext c.model.Step (fun j => y.contains j = true) i

theorem Ascending.step (hw : w.Represents c.model.size A) (hx : x.Represents c.model.size B)
    (h : c.Ascending A B y) :
    ∃ z, c.growStep w y = .ok z ∧ c.untilOf w x y = .ok z ∧ c.Ascending A B z := by
  obtain ⟨z, hz, hrep⟩ := growStep_represents hw h.bound
  obtain ⟨z', hz', hrep'⟩ := untilOf_represents hw hx y
  have hsame : z' = z := by
    refine hrep'.unique (hrep.congr fun i hi => ?_)
    constructor
    · rintro (hmem | hback)
      · exact h.image i hmem
      · exact Or.inr hback
    · exact Or.imp_left (h.keeps i hi)
  have hle : ∀ i, y.contains i = true → z.contains i = true := by
    intro i hi
    exact (hrep.contains_iff i).2 ⟨h.bound ▸ BitSet.lt_bound_of_contains hi, Or.inl hi⟩
  refine ⟨z, hz, hsame ▸ hz', hrep.bound, fun i hi hB => hle i (h.keeps i hi hB), fun i hi => ?_⟩
  have hback : B i ∨ A i ∧ SomeNext c.model.Step (fun j => y.contains j = true) i := by
    rcases ((hrep.contains_iff i).1 hi).2 with hmem | hback
    · exact h.image i hmem
    · exact Or.inr hback
  exact hback.imp_right fun ⟨hA, hnext⟩ => ⟨hA, hnext.mono hle⟩

theorem rounds_growStep (hw : w.Represents c.model.size A) (hx : x.Represents c.model.size B)
    (k : Nat) : ∃ z, rounds (c.growStep w) k x = .ok z ∧ rounds (c.untilOf w x) k x = .ok z := by
  have hstart : c.Ascending A B x := by
    refine ⟨hx.bound, fun i hi hB => (hx.mem i hi).2 hB, ?_⟩
    intro i hi
    exact Or.inl ((hx.contains_iff i).1 hi).2
  exact rounds_eq (fun _ h => Ascending.step hw hx h) hstart k

theorem isLeastFixpoint_untilOf (hw : w.Represents c.model.size A)
    (hx : x.Represents c.model.size B)
    (hu : u.Represents c.model.size (SomeUntil c.model.Step A B)) :
    IsLeastFixpoint (c.untilOf w x) u := by
  have hfixed : c.untilOf w x u = .ok u := by
    obtain ⟨v, hv, hrep⟩ := untilOf_represents hw hx u
    have hsame : u = v := by
      refine hu.unique (hrep.congr fun i _ => ?_)
      rw [someUntil_iff]
      exact or_congr_right (and_congr_right fun _ => exists_congr fun j =>
        and_congr_right fun hij => hu.mem j hij.lt_right)
    exact hsame ▸ hv
  refine ⟨⟨⟨u, hfixed, le_rfl⟩, ?_⟩, hfixed⟩
  rintro z ⟨v, hv, hle⟩
  obtain ⟨v', hv', hrep⟩ := untilOf_represents hw hx z
  obtain rfl : v' = v := Except.ok.inj (hv'.symm.trans hv)
  obtain ⟨hbound, hmem⟩ := BitSet.le_iff.1 hle
  -- the competing set is closed under steps backwards, as far as there are states
  have hend : ∀ i, B i → i < c.model.size → z.contains i = true :=
    fun i hB hi => hmem i ((hrep.mem i hi).2 (Or.inl hB))
  have hback : ∀ i j, A i → c.model.Step i j → (j < c.model.size → z.contains j = true) →
      i < c.model.size → z.contains i = true :=
    fun i j hA hij hj hi => hmem i ((hrep.mem i hi).2 (Or.inr ⟨hA, j, hij, hj hij.lt_right⟩))
  refine BitSet.le_iff.2 ⟨hu.bound.trans (hrep.bound.symm.trans hbound), fun i hi => ?_⟩
  obtain ⟨hlt, huntil⟩ := (hu.contains_iff i).1 hi
  exact huntil.closed hend hback hlt

/-! ## The sets computed -/

/-- **`EG` and `EU` are computed as the extreme fixpoints of their functionals.** The repetitions
    that compute them shrink and grow a set by itself and not by the functional, but both make the
    same of the first set in any number of rounds. -/
theorem sat_eg_eu_fixpoints (c : Checker ι) (ha : a.isNormal = true) (hb : b.isNormal = true) :
    ∃ x y, (∀ n, ((c.sat a).exec n).1 = .ok x) ∧ (∀ n, ((c.sat b).exec n).1 = .ok y) ∧
      (∃ u k, (∀ n, ((c.sat (.eg a)).exec n).1 = .ok u) ∧ IsGreatestFixpoint (c.alwaysOf x) u ∧
        (c.shrink x).Yields (.ok u) k ∧ rounds c.shrinkStep k x = .ok u) ∧
      (∃ u k, (∀ n, ((c.sat (.eu a b)).exec n).1 = .ok u) ∧ IsLeastFixpoint (c.untilOf x y) u ∧
        (c.grow x y).Yields (.ok u) k ∧ rounds (c.growStep x) k y = .ok u) ∧
      (∀ k, ∃ z, rounds c.shrinkStep k x = .ok z ∧ rounds (c.alwaysOf x) k x = .ok z) ∧
      ∀ k, ∃ z, rounds (c.growStep x) k y = .ok z ∧ rounds (c.untilOf x y) k y = .ok z := by
  obtain ⟨x, k, hx, hxrep⟩ := c.finds_of_isNormal ha
  obtain ⟨y, l, hy, hyrep⟩ := c.finds_of_isNormal hb
  obtain ⟨u, m, hu, hurep, husettles⟩ := shrink_yields hxrep
  obtain ⟨v, n, hv, hvrep, hvsettles⟩ := grow_yields hxrep hyrep
  have hEG : (c.sat (.eg a)).Yields (.ok u) (k + m) := hx.bind hu
  have hEU : (c.sat (.eu a b)).Yields (.ok v) (k + (l + n)) := hx.bind (hy.bind hv)
  refine ⟨x, y, fun n => by rw [hx n], fun n => by rw [hy n], ⟨u, m, fun n => by rw [hEG n], ?_⟩,
    ⟨v, n, fun n => by rw [hEU n], ?_⟩, rounds_shrinkStep hxrep, rounds_growStep hxrep hyrep⟩
  · exact ⟨isGreatestFixpoint_alwaysOf hxrep hurep, hu, husettles.rounds⟩
  · exact ⟨isLeastFixpoint_untilOf hxrep hyrep hvrep, hv, hvsettles.rounds⟩

theorem sat_eg_eu_fixpoints_sharing :
    (Formula.atom "p").isNormal = true ∧ (Formula.atom "q").isNormal = true ∧
    ∃ x y, (∀ n, (((ofModel sharing).sat (.atom "p")).exec n).1 = .ok x) ∧
      (∀ n, (((ofModel sharing).sat (.atom "q")).exec n).1 = .ok y) ∧
      (∃ u k, (∀ n, (((ofModel sharing).sat (.eg (.atom "p"))).exec n).1 = .ok u) ∧
        IsGreatestFixpoint ((ofModel sharing).alwaysOf x) u ∧
        ((ofModel sharing).shrink x).Yields (.ok u) k ∧
        rounds (ofModel sharing).shrinkStep k x = .ok u) ∧
      (∃ u k, (∀ n, (((ofModel sharing).sat (.eu (.atom "p") (.atom "q"))).exec n).1 = .ok u) ∧
        IsLeastFixpoint ((ofModel sharing).untilOf x y) u ∧
        ((ofModel sharing).grow x y).Yields (.ok u) k ∧
        rounds ((ofModel sharing).growStep x) k y = .ok u) ∧
      (∀ k, ∃ z, rounds (ofModel sharing).shrinkStep k x = .ok z ∧
        rounds ((ofModel sharing).alwaysOf x) k x = .ok z) ∧
      ∀ k, ∃ z, rounds ((ofModel sharing).growStep x) k y = .ok z ∧
        rounds ((ofModel sharing).untilOf x y) k y = .ok z :=
  ⟨rfl, rfl, sat_eg_eu_fixpoints (ofModel sharing) rfl rfl⟩

end Checker

end BranchingTime
