import BranchingTime.Kripke.Model
import Mathlib.Data.List.Sort
import Mathlib.Tactic.Tauto

set_option autoImplicit false

/-! # Steps of a model

One state can come after another if the first has a transition to the id of the second
(`Model.Step`). The lists of successors are computed from an index of the states by id: what it has
for the transitions of a state is put together, sorted, and freed of repetitions, which sorting has
made neighbours. What is left are the states that one would find by looking at every state
(`Model.eraseReps_mergeSort_indicesById`). So the lists hold exactly the steps, each of them once,
for models with dangling transitions and with ids that states share alike
(`Model.successors_exact`). -/

namespace BranchingTime

/-! ## Repetitions removed -/

/-- Removing repetitions keeps the members, those passed already (`acc`) included. -/
private theorem mem_eraseRepsBy_loop {α : Type} [BEq α] [LawfulBEq α] (x a : α)
    (as acc : List α) :
    x ∈ List.eraseRepsBy.loop (· == ·) a as acc ↔ x ∈ a :: as ∨ x ∈ acc := by
  induction as generalizing a acc with
  | nil => simp [List.eraseRepsBy.loop, or_comm]
  | cons b bs ih =>
    rw [List.eraseRepsBy.loop]
    split
    · next hab =>
      obtain rfl : a = b := eq_of_beq hab
      rw [ih]
      simp
    · rw [ih]
      simp only [List.mem_cons]
      tauto

theorem mem_eraseReps {α : Type} [BEq α] [LawfulBEq α] (x : α) (as : List α) :
    x ∈ as.eraseReps ↔ x ∈ as := by
  cases as with
  | nil => exact Iff.rfl
  | cons a as =>
    rw [List.eraseReps, List.eraseRepsBy, mem_eraseRepsBy_loop]
    simp

/-- Removing repetitions from an ascending row behind a descending one (`acc`) that it goes on with
    leaves each member once. -/
private theorem pairwise_eraseRepsBy_loop (a : Nat) (as acc : List Nat)
    (has : (a :: as).Pairwise (· ≤ ·)) (hacc : acc.Pairwise (· > ·)) (hlt : ∀ b ∈ acc, b < a) :
    (List.eraseRepsBy.loop (· == ·) a as acc).Pairwise (· < ·) := by
  have hpassed : (a :: acc).Pairwise (· > ·) := List.pairwise_cons.2 ⟨hlt, hacc⟩
  induction as generalizing a acc with
  | nil =>
    rw [List.eraseRepsBy.loop, List.pairwise_reverse]
    exact hpassed
  | cons b bs ih =>
    obtain ⟨hab, hbs⟩ := List.pairwise_cons.1 has
    rw [List.eraseRepsBy.loop]
    split
    · next heq =>
      obtain rfl : a = b := eq_of_beq heq
      exact ih a acc hbs hacc hlt hpassed
    · next hne =>
      have hne' : a ≠ b := fun h => by simp [h] at hne
      have hlt' : a < b := Nat.lt_of_le_of_ne (hab b List.mem_cons_self) hne'
      have hbelow : ∀ c ∈ a :: acc, c < b := by
        intro c hc
        rcases List.mem_cons.1 hc with rfl | hc
        · exact hlt'
        · exact Nat.lt_trans (hlt c hc) hlt'
      exact ih b (a :: acc) hbs hpassed hbelow (List.pairwise_cons.2 ⟨hbelow, hpassed⟩)

theorem pairwise_eraseReps {as : List Nat} (h : as.Pairwise (· ≤ ·)) :
    as.eraseReps.Pairwise (· < ·) := by
  cases as with
  | nil => exact List.Pairwise.nil
  | cons a as =>
    refine pairwise_eraseRepsBy_loop a as [] h List.Pairwise.nil ?_
    intro b hb
    cases hb

/-! ## Steps -/

namespace Model

variable {ι : Type} {m : Model ι} {i j : Nat}

/-- The state `i` has a transition to the id of the state `j`. -/
def Step (m : Model ι) (i j : Nat) : Prop :=
  ∃ s t, m.states[i]? = some s ∧ m.states[j]? = some t ∧ t.id ∈ s.transitions

theorem Step.lt_right (h : m.Step i j) : j < m.size := by
  obtain ⟨s, t, -, ht, -⟩ := h
  exact (Array.getElem?_eq_some_iff.1 ht).1

variable [DecidableEq ι] [Hashable ι]

/-- The indices kept under an id are those of the states that have it. -/
theorem mem_indicesById (t : ι) :
    j ∈ (indicesById 0 m.states.toList).getD t [] ↔
      ∃ s, m.states[j]? = some s ∧ s.id = t := by
  rw [getD_indicesById]
  simp only [List.mem_map, List.mem_filter, decide_eq_true_eq, Prod.exists, exists_eq_right,
    List.mem_zipIdx_iff_getElem?, Array.getElem?_toList]

/-- The indices kept under ids, put in order and each once, are those of all states that have one of
    the ids. It does not matter how often an id is listed, and whether some state has it. -/
theorem eraseReps_mergeSort_indicesById (m : Model ι) (ids : List ι) :
    ((ids.flatMap fun t => (indicesById 0 m.states.toList).getD t []).mergeSort).eraseReps =
      m.indicesWhere fun s => decide (s.id ∈ ids) := by
  refine (pairwise_eraseReps (List.pairwise_mergeSort' (· ≤ ·) _)).eq_of_mem_iff
    (m.pairwise_indicesWhere _) ?_
  intro j
  rw [mem_eraseReps, List.mem_mergeSort, List.mem_flatMap, mem_indicesWhere]
  simp only [mem_indicesById, decide_eq_true_eq]
  constructor
  · rintro ⟨t, ht, s, hs, rfl⟩
    exact ⟨s, hs, ht⟩
  · rintro ⟨s, hs, ht⟩
    exact ⟨s.id, ht, s, hs, rfl⟩

/-- The successors of a state are the states with an id that it has a transition to. -/
theorem successors_eq_map (m : Model ι) :
    m.successors = m.states.map fun s => m.indicesWhere fun t => decide (t.id ∈ s.transitions) := by
  unfold successors
  simp only [eraseReps_mergeSort_indicesById]

theorem getElem?_successors (m : Model ι) (i : Nat) :
    m.successors[i]? =
      (m.state? i).map fun s => m.indicesWhere fun t => decide (t.id ∈ s.transitions) := by
  rw [successors_eq_map, Array.getElem?_map, state?]

/-- **The successors listed for a state are the states one step away.** -/
theorem mem_successors : j ∈ m.successors.getD i [] ↔ m.Step i j := by
  unfold Step
  rw [Array.getD_eq_getD_getElem?, getElem?_successors, state?]
  cases hs : m.states[i]? with
  | none => simp
  | some s => simp [mem_indicesWhere]

/-- The successors of a state are listed in ascending order, each of them once. -/
theorem pairwise_successors (m : Model ι) (i : Nat) :
    (m.successors.getD i []).Pairwise (· < ·) := by
  rw [Array.getD_eq_getD_getElem?, getElem?_successors]
  cases m.state? i with
  | none => exact List.Pairwise.nil
  | some s => exact m.pairwise_indicesWhere _

/-- **The successors are found exactly**, whatever transitions there are: to ids that no state has,
    to one id more than once, or to an id that several states share. There is one list for each
    state, which is the one found by looking through all states. It is ascending, and its members are
    the states whose id is that of a transition. -/
theorem successors_exact (m : Model ι) :
    m.successors.size = m.size ∧
      m.successors = (m.states.map fun s =>
        m.indicesWhere fun t => decide (t.id ∈ s.transitions)) ∧
      ∀ i s, m.state? i = some s → ∃ js, m.successors[i]? = some js ∧ js.Pairwise (· < ·) ∧
        ∀ j, j ∈ js ↔ ∃ t, m.state? j = some t ∧ t.id ∈ s.transitions := by
  refine ⟨?_, m.successors_eq_map, ?_⟩
  · rw [successors_eq_map, Array.size_map, size]
  · intro i s hs
    have hentry : m.successors[i]? =
        some (m.indicesWhere fun t => decide (t.id ∈ s.transitions)) := by
      rw [getElem?_successors, hs, Option.map_some]
    refine ⟨_, hentry, m.pairwise_indicesWhere _, ?_⟩
    intro j
    rw [mem_indicesWhere]
    simp only [state?, decide_eq_true_eq]

/-- Two states that share an id, behind one with a transition to this id twice and to an id that no
    state has. -/
def crowded : Model Nat := .ofList
  [{ State.ofId 0 with transitions := [1, 7, 1] }, .ofId 1, .ofId 1]

theorem successors_exact_crowded :
    crowded.state? 0 = some { State.ofId 0 with transitions := [1, 7, 1] } ∧
      crowded.successors[0]? = some [1, 2] ∧
      ∀ j, j ∈ [1, 2] ↔ ∃ t, crowded.state? j = some t ∧ t.id ∈ [1, 7, 1] := by
  have hstate : crowded.state? 0 = some { State.ofId 0 with transitions := [1, 7, 1] } := rfl
  obtain ⟨-, hmap, hentry⟩ := successors_exact crowded
  obtain ⟨js, hjs, -, hmem⟩ := hentry 0 _ hstate
  have hfirst : crowded.successors[0]? = some [1, 2] := by
    rw [hmap, Array.getElem?_map]
    decide
  obtain rfl : js = [1, 2] := Option.some.inj (hjs.symm.trans hfirst)
  exact ⟨hstate, hjs, hmem⟩

end Model

end BranchingTime
