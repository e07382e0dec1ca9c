import BranchingTime.Proofs.Members
import BranchingTime.Proofs.Verdicts
import Mathlib.Data.List.Forall2
import Mathlib.Data.List.Sort

set_option autoImplicit false

/-! # Answers about one formula

A checker can be asked for the verdict on a formula, for the states at which it holds and for the
initial states at which it does not. Each answer is computed on its own way from the set that
`Checker.sat` gives. The set puts each initial state on one of two sides: with those that violate
the formula, or with those that violate its negation. So the answers fit together, whatever states
share their ids, and also if no state is initial (`Checker.answers_agree`). -/

namespace BranchingTime

/-! ## Members in order -/

/-- The members of a set are listed as they come in the range below its bound. -/
theorem BitSet.toList_eq_filter (s : BitSet) :
    s.toList = (List.range s.bound).filter s.contains := by
  have hrange : ((List.range s.bound).filter s.contains).Pairwise (· < ·) :=
    List.pairwise_lt_range.filter _
  refine s.pairwise_toList.eq_of_mem_iff hrange fun i => ?_
  rw [mem_toList, List.mem_filter, List.mem_range]
  exact ⟨fun h => ⟨lt_bound_of_contains h, h⟩, And.right⟩

/-! ## Ids of states -/

variable {ι : Type}

/-- The ids are those of the states with the indices, one for each index and in the same order. -/
def Model.Lists (m : Model ι) : List Nat → List ι → Prop :=
  List.Forall₂ fun i id => ∃ s, m.state? i = some s ∧ s.id = id

theorem Model.Lists.length_eq {m : Model ι} {indices : List Nat} {ids : List ι}
    (h : m.Lists indices ids) : indices.length = ids.length :=
  List.Forall₂.length_eq h

namespace Checker

open CheckM (Yields permit yields_pure yields_permit)

variable [DecidableEq ι] [Hashable ι] {c : Checker ι} {s : BitSet} {f : Formula} {k : Nat}
  {indices : List Nat}

/-- Below the number of states every index has an id. -/
theorem exists_idsAt_eq (hlt : ∀ i ∈ indices, i < c.model.size) :
    ∃ ids, c.idsAt indices = .ok ids ∧ c.model.Lists indices ids := by
  induction indices with
  | nil => exact ⟨[], rfl, .nil⟩
  | cons i indices ih =>
    obtain ⟨hi, hrest⟩ := List.forall_mem_cons.1 hlt
    obtain ⟨ids, hids, hlists⟩ := ih hrest
    have hstate : c.model.state? i = some c.model.states[i] := Array.getElem?_eq_getElem hi
    refine ⟨c.model.states[i].id :: ids, ?_, .cons ⟨_, hstate, rfl⟩ hlists⟩
    rw [idsAt, List.mapM_cons, hstate]
    exact bind_eq_ok.2 ⟨_, rfl, bind_eq_ok.2 ⟨ids, hids, rfl⟩⟩

/-! ## Answers from a set -/

theorem satisfying_yields (hs : (c.sat f).Yields (.ok s) k) (hbound : s.bound = c.model.size) :
    ∃ ids, (c.satisfying f).Yields (.ok ids) k ∧ c.ids s = .ok ids ∧
      c.model.Lists ((List.range c.model.size).filter s.contains) ids := by
  have hlt : ∀ i ∈ (List.range c.model.size).filter s.contains, i < c.model.size :=
    fun i hi => List.mem_range.1 (List.mem_filter.1 hi).1
  obtain ⟨ids, hids, hlists⟩ := exists_idsAt_eq hlt
  have hset : c.ids s = .ok ids := by rw [Checker.ids, s.toList_eq_filter, hbound, hids]
  have hyields : (permit (c.ids s)).Yields (.ok ids) 0 := hset ▸ yields_permit ids
  exact ⟨ids, hs.andThen hyields, hset, hlists⟩

theorem violations_yields (hs : (c.sat f).Yields (.ok s) k) :
    ∃ ids, (c.violations f).Yields (.ok ids) k ∧
      c.model.Lists (c.model.initials.filter fun i => !s.contains i) ids := by
  have hlt : ∀ i ∈ c.model.initials.filter fun i => !s.contains i, i < c.model.size :=
    fun i hi => Model.lt_size_of_mem_indicesWhere (List.mem_filter.1 hi).1
  obtain ⟨ids, hids, hlists⟩ := exists_idsAt_eq hlt
  have hyields : (permit (c.idsAt (c.model.initials.filter fun i => !s.contains i))).Yields
      (.ok ids) 0 := hids ▸ yields_permit ids
  exact ⟨ids, hs.andThen hyields, hlists⟩

theorem holds_yields (hs : (c.sat f).Yields (.ok s) k) (policy : Policy) :
    (c.holds policy f).Yields (.ok (c.accepts policy s)) k :=
  hs.andThen (yields_pure _)

/-! ## A set and its complement -/

/-- An initial state is in the complement of a set if it is not in the set. -/
theorem contains_compl_of_mem_initials (hbound : s.bound = c.model.size) {i : Nat}
    (hi : i ∈ c.model.initials) : s.compl.contains i = !s.contains i := by
  have hlt : i < c.model.size := Model.lt_size_of_mem_indicesWhere hi
  simp [hbound, hlt]

theorem filter_not_compl (hbound : s.bound = c.model.size) :
    (c.model.initials.filter fun i => !s.compl.contains i) =
      c.model.initials.filter s.contains := by
  refine List.filter_congr fun i hi => ?_
  rw [contains_compl_of_mem_initials hbound hi, Bool.not_not]

/-- All initial states are in the complement of a set if none is in the set. -/
theorem accepts_all_compl (hbound : s.bound = c.model.size) :
    c.accepts .all s.compl = !c.accepts .any s := by
  have hcompl : c.model.initials.all s.compl.contains =
      c.model.initials.all fun i => !s.contains i := by
    rw [Bool.eq_iff_iff, List.all_eq_true, List.all_eq_true]
    refine forall₂_congr fun i hi => ?_
    rw [contains_compl_of_mem_initials hbound hi]
  rw [accepts, accepts, hcompl, List.not_any_eq_all_not]

theorem accepts_all_iff {ids : List ι}
    (hids : c.model.Lists (c.model.initials.filter fun i => !s.contains i) ids) :
    c.accepts .all s = true ↔ ids = [] := by
  rw [← List.length_eq_zero_iff, ← hids.length_eq, List.length_eq_zero_iff,
    List.filter_eq_nil_iff, accepts, List.all_eq_true]
  simp

theorem accepts_any_iff {ids : List ι}
    (hids : c.model.Lists (c.model.initials.filter s.contains) ids) :
    c.accepts .any s = true ↔ ids ≠ [] := by
  rw [Ne, ← List.length_eq_zero_iff, ← hids.length_eq, List.length_eq_zero_iff,
    List.filter_eq_nil_iff, accepts, List.any_eq_true]
  simp

/-! ## All together -/

/-- **The answers about a normalized formula fit together.** They are computed without failure, in
    the steps of `sat`, and all are told by its set. The states at which the formula holds are those
    in the set, in ascending order. The initial states outside of the set violate the formula, and
    those in it violate the negation. So all initial states are accepted if none violates the
    formula, and one of them if one violates the negation, that is, if the negation does not hold
    at all of them. -/
theorem answers_agree (c : Checker ι) (hf : f.isNormal = true) :
    ∃ s k ids violating complying, (c.sat f).Yields (.ok s) k ∧
      ((c.satisfying f).Yields (.ok ids) k ∧ c.ids s = .ok ids ∧
        c.model.Lists ((List.range c.model.size).filter s.contains) ids) ∧
      ((c.violations f).Yields (.ok violating) k ∧
        c.model.Lists (c.model.initials.filter fun i => !s.contains i) violating) ∧
      ((c.violations (.not f)).Yields (.ok complying) k ∧
        c.model.Lists (c.model.initials.filter s.contains) complying) ∧
      violating.length + complying.length = c.model.initials.length ∧
      (∀ policy, (c.holds policy f).Yields (.ok (c.accepts policy s)) k) ∧
      (c.accepts .all s = true ↔ violating = []) ∧
      (c.accepts .any s = true ↔ complying ≠ []) ∧
      (c.holds .all (.not f)).Yields (.ok (!c.accepts .any s)) k := by
  obtain ⟨s, k, hs, hrep⟩ := c.finds_of_isNormal hf
  have hnot : (c.sat (.not f)).Yields (.ok s.compl) k := hs.andThen (yields_pure _)
  obtain ⟨ids, hids⟩ := satisfying_yields hs hrep.bound
  obtain ⟨violating, hviolating⟩ := violations_yields hs
  obtain ⟨complying, hcomplying⟩ := violations_yields hnot
  rw [filter_not_compl hrep.bound] at hcomplying
  have hall := holds_yields hnot .all
  rw [accepts_all_compl hrep.bound] at hall
  refine ⟨s, k, ids, violating, complying, hs, hids, hviolating, hcomplying, ?_, holds_yields hs,
    accepts_all_iff hviolating.2, accepts_any_iff hcomplying.2, hall⟩
  rw [← hviolating.2.length_eq, ← hcomplying.2.length_eq, Nat.add_comm]
  exact (List.length_eq_length_filter_add s.contains).symm

/-- Two initial states with one id, of which the second alone goes on for ever. -/
def divided : Model Nat := .ofList
  [((State.ofId 0).setInitial true).addTransition 1, ((State.ofId 0).setInitial true).addTransition 0]

theorem answers_agree_divided :
    (Formula.eg (.truth true)).isNormal = true ∧
    ∃ k violating complying,
      ((ofModel divided).violations (.eg (.truth true))).Yields (.ok violating) k ∧
      ((ofModel divided).violations (.not (.eg (.truth true)))).Yields (.ok complying) k ∧
      violating.length + complying.length = 2 ∧
      ∃ b, ((ofModel divided).holds .all (.eg (.truth true))).Yields (.ok b) k ∧
        (b = true ↔ violating = []) := by
  have hnormal : (Formula.eg (.truth true)).isNormal = true := rfl
  obtain ⟨s, k, -, violating, complying, -, -, hviolating, hcomplying, hcount, hholds, hall, -⟩ :=
    answers_agree (ofModel divided) hnormal
  exact ⟨hnormal, k, violating, complying, hviolating.1, hcomplying.1, hcount, _, hholds .all, hall⟩

end Checker

end BranchingTime
