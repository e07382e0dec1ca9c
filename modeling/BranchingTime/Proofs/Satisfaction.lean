import BranchingTime.Kripke.Satisfaction
import BranchingTime.Proofs.Iteration
import BranchingTime.Proofs.Meaning
import BranchingTime.Proofs.Sets

set_option autoImplicit false

/-! # The set computed for a formula

The set that `Checker.sat` computes for a normalized formula has exactly the states at which the
formula holds. Each clause of `sat` has one lemma, which says what the clause finds if its operands
are found (`Checker.Finds`); the theorem about all formulas is an induction over them.

Both repetitions keep a set between two bounds, one of which is the set wanted: what is shrunk never
loses a state from which the operand holds along a path for ever, and what is grown never gains a
state from which no path leads through the first operand to the second. That the step leaves the
last set as it is gives the other inclusion. -/

namespace BranchingTime

open CheckM (Yields yields_pure yields_permit)

namespace Checker

variable {ι : Type} [DecidableEq ι] [Hashable ι] {c : Checker ι} {A B P Q : Nat → Prop}
  {w x y z : BitSet} {a b f : Formula}

/-! ## Atoms and one step -/

theorem labelled_represents (c : Checker ι) (name : String) :
    ∃ s, BitSet.ofIndices c.model.size (c.model.indicesWith name) = .ok s ∧
      s.Represents c.model.size
        (fun i => ∃ s, c.model.states[i]? = some s ∧ s.has name = true) := by
  have hlt : ∀ i ∈ c.model.indicesWith name, i < c.model.size :=
    fun i hi => Model.lt_size_of_mem_indicesWhere hi
  obtain ⟨s, hs, hrep⟩ := BitSet.represents_ofIndices hlt
  exact ⟨s, hs, hrep.congr fun i _ => Model.mem_indicesWhere⟩

theorem pre_represents (c : Checker ι) (y : BitSet) :
    ∃ p, c.pre y = .ok p ∧
      p.Represents c.model.size (SomeNext c.model.Step (fun j => y.contains j = true)) := by
  have hlt : ∀ i ∈ (List.range c.model.size).filter
      (fun i => (c.successors.getD i []).any y.contains), i < c.model.size :=
    fun i hi => List.mem_range.1 (List.mem_filter.1 hi).1
  obtain ⟨p, hp, hrep⟩ := BitSet.represents_ofIndices hlt
  refine ⟨p, hp, hrep.congr fun i hi => ?_⟩
  simp only [List.mem_filter, List.mem_range, hi, true_and, List.any_eq_true, c.successors_eq,
    Model.mem_successors, SomeNext]

/-- The functional of `EG`: the states of `w` with a successor in the set. -/
def alwaysOf (c : Checker ι) (w y : BitSet) : Except Misuse BitSet := do
  w.inter (← c.pre y)

/-- The functional of `EU`: the states of `x`, and those of `w` with a successor in the set. -/
def untilOf (c : Checker ι) (w x y : BitSet) : Except Misuse BitSet := do
  x.union (← w.inter (← c.pre y))

theorem alwaysOf_represents (hw : w.Represents c.model.size A) (y : BitSet) :
    ∃ z, c.alwaysOf w y = .ok z ∧ z.Represents c.model.size
      (fun i => A i ∧ SomeNext c.model.Step (fun j => y.contains j = true) i) := by
  obtain ⟨p, hp, hrep⟩ := c.pre_represents y
  obtain ⟨z, hz, hzrep⟩ := hw.inter hrep
  refine ⟨z, ?_, hzrep⟩
  rw [alwaysOf, hp]
  exact hz

theorem untilOf_represents (hw : w.Represents c.model.size A) (hx : x.Represents c.model.size B)
    (y : BitSet) :
    ∃ z, c.untilOf w x y = .ok z ∧ z.Represents c.model.size
      (fun i => B i ∨ A i ∧ SomeNext c.model.Step (fun j => y.contains j = true) i) := by
  obtain ⟨v, hv, hvrep⟩ := alwaysOf_represents hw y
  obtain ⟨z, hz, hzrep⟩ := hx.union hvrep
  obtain ⟨p, hp, hv⟩ := bind_eq_ok.1 hv
  exact ⟨z, bind_eq_ok.2 ⟨p, hp, bind_eq_ok.2 ⟨v, hv, hz⟩⟩, hzrep⟩

/-- A set is shrunk by its own functional. -/
theorem shrinkStep_represents (hy : y.bound = c.model.size) :
    ∃ z, c.shrinkStep y = .ok z ∧ z.Represents c.model.size
      (fun i => y.contains i = true ∧
        SomeNext c.model.Step (fun j => y.contains j = true) i) :=
  alwaysOf_represents (hy ▸ y.represents_contains) y

theorem growStep_represents (hw : w.Represents c.model.size A) (hy : y.bound = c.model.size) :
    ∃ z, c.growStep w y = .ok z ∧ z.Represents c.model.size
      (fun i => y.contains i = true ∨
        A i ∧ SomeNext c.model.Step (fun j => y.contains j = true) i) :=
  untilOf_represents hw (hy ▸ y.represents_contains) y

/-! ## Shrinking -/

/-- What holds of every set on the way from the states of `A` down. -/
structure Shrinking (c : Checker ι) (A : Nat → Prop) (z : BitSet) : Prop where
  bound : z.bound = c.model.size
  only : ∀ i, z.contains i = true → A i
  keeps : ∀ i < c.model.size, SomeAlways c.model.Step A i → z.contains i = true

theorem Shrinking.step (h : c.Shrinking A z) :
    ∃ z', c.shrinkStep z = .ok z' ∧ c.Shrinking A z' := by
  obtain ⟨z', hz', hrep⟩ := shrinkStep_represents h.bound
  refine ⟨z', hz', hrep.bound, ?_, ?_⟩
  · intro i hi
    exact h.only i ((hrep.contains_iff i).1 hi).2.1
  · intro i hi halways
    -- the second state of the path is in the set, so the first one stays
    obtain ⟨-, j, hij, hj⟩ := someAlways_iff.1 halways
    exact (hrep.mem i hi).2 ⟨h.keeps i hi halways, j, hij, h.keeps j hij.lt_right hj⟩

/-- A set from which nothing is taken goes on with a step at each of its members. -/
theorem Shrinking.represents (h : c.Shrinking A z) (hfix : c.shrinkStep z = .ok z) :
    z.Represents c.model.size (SomeAlways c.model.Step A) := by
  obtain ⟨z', hz', hrep⟩ := shrinkStep_represents h.bound
  obtain rfl : z' = z := Except.ok.inj (hz'.symm.trans hfix)
  have hclosed : ∀ j, z'.contains j = true →
      A j ∧ ∃ k, c.model.Step j k ∧ z'.contains k = true := by
    intro j hj
    exact ⟨h.only j hj, ((hrep.contains_iff j).1 hj).2.2⟩
  refine ⟨h.bound, ?_⟩
  intro i hi
  exact ⟨fun hmem => someAlways_of_closed hclosed hmem, h.keeps i hi⟩

theorem shrink_yields (hy : y.Represents c.model.size A) :
    ∃ z k, (c.shrink y).Yields (.ok z) k ∧
      z.Represents c.model.size (SomeAlways c.model.Step A) ∧
      SettlesIn c.shrinkStep BitSet.size k y z := by
  have hstart : c.Shrinking A y := by
    refine ⟨hy.bound, ?_, ?_⟩
    · intro i hi
      exact ((hy.contains_iff i).1 hi).2
    · intro i hi halways
      exact (hy.mem i hi).2 (someAlways_iff.1 halways).1
  obtain ⟨z, k, hyields, hz, hsettles⟩ := untilStable_yields (fun _ h => Shrinking.step h) hstart
  exact ⟨z, k, hyields, hz.represents hsettles.fixed, hsettles⟩

/-! ## Growing -/

/-- What holds of every set on the way from the states of `B` up. -/
structure Growing (c : Checker ι) (A B : Nat → Prop) (z : BitSet) : Prop where
  bound : z.bound = c.model.size
  keeps : ∀ i < c.model.size, B i → z.contains i = true
  only : ∀ i, z.contains i = true → SomeUntil c.model.Step A B i

theorem Growing.step (hw : w.Represents c.model.size A) (h : c.Growing A B z) :
    ∃ z', c.growStep w z = .ok z' ∧ c.Growing A B z' := by
  obtain ⟨z', hz', hrep⟩ := growStep_represents hw h.bound
  refine ⟨z', hz', hrep.bound, ?_, ?_⟩
  · intro i hi hB
    exact (hrep.mem i hi).2 (Or.inl (h.keeps i hi hB))
  · intro i hi
    rcases ((hrep.contains_iff i).1 hi).2 with hmem | ⟨hA, j, hij, hj⟩
    · exact h.only i hmem
    -- the path found for the successor, with one more state in front
    · exact someUntil_iff.2 (Or.inr ⟨hA, j, hij, h.only j hj⟩)

/-- A set to which nothing is added is closed under steps backwards from the states of `A`. -/
theorem Growing.represents (hw : w.Represents c.model.size A) (h : c.Growing A B z)
    (hfix : c.growStep w z = .ok z) :
    z.Represents c.model.size (SomeUntil c.model.Step A B) := by
  obtain ⟨z', hz', hrep⟩ := growStep_represents hw h.bound
  obtain rfl : z' = z := Except.ok.inj (hz'.symm.trans hfix)
  have hend : ∀ j, B j → j < c.model.size → z'.contains j = true := by
    intro j hB hj
    exact h.keeps j hj hB
  have hback : ∀ j k, A j → c.model.Step j k → (k < c.model.size → z'.contains k = true) →
      j < c.model.size → z'.contains j = true := by
    intro j k hA hjk hk hj
    exact (hrep.mem j hj).2 (Or.inr ⟨hA, k, hjk, hk hjk.lt_right⟩)
  refine ⟨h.bound, ?_⟩
  intro i hi
  -- along the path backwards, each state is below the size as the next one is
  exact ⟨h.only i, fun huntil => huntil.closed hend hback hi⟩

theorem grow_yields (hw : w.Represents c.model.size A) (hy : y.Represents c.model.size B) :
    ∃ z k, (c.grow w y).Yields (.ok z) k ∧
      z.Represents c.model.size (SomeUntil c.model.Step A B) ∧
      SettlesIn (c.growStep w) BitSet.room k y z := by
  have hstart : c.Growing A B y := by
    refine ⟨hy.bound, ?_, ?_⟩
    · intro i hi hB
      exact (hy.mem i hi).2 hB
    · intro i hi
      exact someUntil_iff.2 (Or.inl ((hy.contains_iff i).1 hi).2)
  obtain ⟨z, k, hyields, hz, hsettles⟩ := untilStable_yields (fun _ h => Growing.step hw h) hstart
  exact ⟨z, k, hyields, hz.represents hw hsettles.fixed, hsettles⟩

/-! ## Formulas -/

/-- `sat` gives the set of the states at which `P` holds, whatever was counted before. -/
def Finds (c : Checker ι) (f : Formula) (P : Nat → Prop) : Prop :=
  ∃ s k, (c.sat f).Yields (.ok s) k ∧ s.Represents c.model.size P

theorem Finds.congr (h : c.Finds f P) (hPQ : ∀ i < c.model.size, P i ↔ Q i) : c.Finds f Q := by
  obtain ⟨s, k, hs, hrep⟩ := h
  exact ⟨s, k, hs, hrep.congr hPQ⟩

theorem finds_atom (c : Checker ι) (name : String) :
    c.Finds (.atom name) (fun i => ∃ s, c.model.states[i]? = some s ∧ s.has name = true) := by
  obtain ⟨s, hs, hrep⟩ := c.labelled_represents name
  refine ⟨s, 0, ?_, hrep⟩
  rw [sat, hs]
  exact yields_permit s

theorem finds_truth (c : Checker ι) (b : Bool) : c.Finds (.truth b) (fun _ => b = true) := by
  cases b with
  | false => exact ⟨_, 0, yields_pure _, (BitSet.represents_empty _).congr fun _ _ => by simp⟩
  | true => exact ⟨_, 0, yields_pure _, (BitSet.represents_full _).congr fun _ _ => by simp⟩

theorem Finds.not (ha : c.Finds a P) : c.Finds (.not a) (fun i => ¬ P i) := by
  obtain ⟨s, k, hs, hrep⟩ := ha
  exact ⟨s.compl, k + 0, hs.bind (yields_pure _), hrep.compl⟩

theorem Finds.connect (o : Connective) (ha : c.Finds a P) (hb : c.Finds b Q) :
    c.Finds (.connect o a b) (fun i => o.combine (P i) (Q i)) := by
  obtain ⟨s, k, hs, hsrep⟩ := ha
  obtain ⟨t, l, ht, htrep⟩ := hb
  cases o with
  | and =>
    obtain ⟨u, hu, hrep⟩ := hsrep.inter htrep
    exact ⟨u, _, hs.bind (ht.bind (hu ▸ yields_permit u)), hrep⟩
  | or =>
    obtain ⟨u, hu, hrep⟩ := hsrep.union htrep
    exact ⟨u, _, hs.bind (ht.bind (hu ▸ yields_permit u)), hrep⟩
  | implies =>
    obtain ⟨v, hv, hvrep⟩ := hsrep.inter htrep
    obtain ⟨u, hu, hrep⟩ := hvrep.union hsrep.compl
    refine ⟨u, _, hs.bind (ht.bind ((hv ▸ yields_permit v).bind (hu ▸ yields_permit u))),
      hrep.congr fun i _ => ?_⟩
    show (P i ∧ Q i) ∨ ¬ P i ↔ (P i → Q i)
    tauto

theorem Finds.ex (ha : c.Finds a P) : c.Finds (.ex a) (SomeNext c.model.Step P) := by
  obtain ⟨s, k, hs, hrep⟩ := ha
  obtain ⟨p, hp, hprep⟩ := c.pre_represents s
  refine ⟨p, _, hs.bind (hp ▸ yields_permit p), hprep.congr fun i _ => ?_⟩
  exact exists_congr fun j => and_congr_right fun hij => hrep.mem j hij.lt_right

theorem Finds.eg (ha : c.Finds a P) : c.Finds (.eg a) (SomeAlways c.model.Step P) := by
  obtain ⟨s, k, hs, hrep⟩ := ha
  obtain ⟨z, l, hz, hzrep, -⟩ := shrink_yields hrep
  exact ⟨z, k + l, hs.bind hz, hzrep⟩

theorem Finds.eu (ha : c.Finds a P) (hb : c.Finds b Q) :
    c.Finds (.eu a b) (SomeUntil c.model.Step P Q) := by
  obtain ⟨s, k, hs, hsrep⟩ := ha
  obtain ⟨t, l, ht, htrep⟩ := hb
  obtain ⟨z, m, hz, hzrep, -⟩ := grow_yields hsrep htrep
  exact ⟨z, k + (l + m), hs.bind (ht.bind hz), hzrep⟩

/-- **What is found for a normalized formula is where it holds.** -/
theorem finds_of_isNormal (c : Checker ι) (hf : f.isNormal = true) :
    c.Finds f (f.Holds c.model) := by
  induction f with
  | atom name => exact c.finds_atom name
  | truth b => exact c.finds_truth b
  | not a iha => exact (iha hf).not
  | connect o a b iha ihb =>
    obtain ⟨ha, hb⟩ := Bool.and_eq_true_iff.1 hf
    exact (iha ha).connect o (ihb hb)
  | unary q o a iha =>
    obtain ⟨hmin, ha⟩ := Bool.and_eq_true_iff.1 hf
    cases q with
    | every => cases o <;> cases hmin
    | some =>
      cases o with
      | next => exact (iha ha).ex
      | eventually => cases hmin
      | always => exact (iha ha).eg
  | binary q o a b iha ihb =>
    obtain ⟨hmin, hb⟩ := Bool.and_eq_true_iff.1 hf
    obtain ⟨hmin, ha⟩ := Bool.and_eq_true_iff.1 hmin
    cases q with
    | every => cases o <;> cases hmin
    | some =>
      cases o with
      | strongUntil => exact (iha ha).eu (ihb hb)
      | release => cases hmin
      | weakUntil => cases hmin

/-- **The set computed for a normalized formula consists of the states at which it holds.** It is
    computed without failure, has the states of the model as its bound, and does not depend on the
    steps counted before. -/
theorem sat_sound_and_complete (c : Checker ι) (hf : f.isNormal = true) :
    ∃ s, (∀ n, ((c.sat f).exec n).1 = .ok s) ∧ s.bound = c.model.size ∧
      ∀ i < c.model.size, s.contains i = true ↔ f.Holds c.model i := by
  obtain ⟨s, k, hs, hrep⟩ := c.finds_of_isNormal hf
  exact ⟨s, fun n => by rw [hs n], hrep.bound, hrep.mem⟩

/-- A state with a transition that leads nowhere and one that leads to both of the states that share
    an id, of which the first is a deadlock. -/
def sharing : Model Nat := .ofList
  [((State.ofId 0).addProperty "p").addTransitions [1, 7],
    (State.ofId 1).addProperty "p",
    ((State.ofId 1).addProperty "q").addTransition 0]

theorem sat_sound_and_complete_sharing :
    (Formula.eu (.truth true) (.not (.eg (.atom "p")))).isNormal = true ∧
    ∃ s, (∀ n, (((ofModel sharing).sat (.eu (.truth true) (.not (.eg (.atom "p"))))).exec n).1 =
        .ok s) ∧
      s.bound = 3 ∧
      ∀ i < 3, s.contains i = true ↔
        (Formula.eu (.truth true) (.not (.eg (.atom "p")))).Holds sharing i :=
  ⟨rfl, sat_sound_and_complete (ofModel sharing) rfl⟩

end Checker

end BranchingTime
