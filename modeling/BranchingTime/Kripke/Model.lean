import BranchingTime.Kripke.State
import Std.Data.HashMap

set_option autoImplicit false

/-! # Models

A model is a row of states, which are told by their places in it, their *indices*. Transitions name
ids, and an id need not belong to one state: a transition leads to every state with the id it names,
and to none if there is no such state. `Model.successors` puts the indices in place of the ids. -/

namespace BranchingTime

/-- A row of states. -/
structure Model (ι : Type) where
  states : Array (State ι)

namespace Model

variable {ι : Type}

/-- The model without states. -/
def empty : Model ι := ⟨#[]⟩

/-- The model of the states listed. -/
def ofList (states : List (State ι)) : Model ι := ⟨states.toArray⟩

/-- The model with a state behind the others. -/
def push (m : Model ι) (s : State ι) : Model ι := ⟨m.states.push s⟩

/-- The number of states. -/
def size (m : Model ι) : Nat := m.states.size

/-- Whether there are no states. -/
def isEmpty (m : Model ι) : Bool := m.states.isEmpty

/-- The state with the index `i`. -/
def state? (m : Model ι) (i : Nat) : Option (State ι) := m.states[i]?

/-- The indices of the states that satisfy `p`, ascending. -/
def indicesWhere (m : Model ι) (p : State ι → Bool) : List Nat :=
  (List.range m.size).filter fun i => m.states[i]?.any p

/-- The indices of the initial states, ascending. -/
def initials (m : Model ι) : List Nat := m.indicesWhere (·.isInitial)

/-- The indices of the states with the property `p`, ascending. -/
def indicesWith (m : Model ι) (p : String) : List Nat := m.indicesWhere (·.has p)

theorem mem_indicesWhere {m : Model ι} {p : State ι → Bool} {i : Nat} :
    i ∈ m.indicesWhere p ↔ ∃ s, m.states[i]? = some s ∧ p s = true := by
  rw [indicesWhere, List.mem_filter, List.mem_range]
  constructor
  · rintro ⟨hi, hp⟩
    have hsome : m.states[i]? = some m.states[i] := Array.getElem?_eq_getElem hi
    rw [hsome] at hp
    exact ⟨_, hsome, hp⟩
  · rintro ⟨s, hs, hp⟩
    have hi : i < m.states.size := (Array.getElem?_eq_some_iff.1 hs).1
    exact ⟨hi, by simp [hs, hp]⟩

theorem lt_size_of_mem_indicesWhere {m : Model ι} {p : State ι → Bool} {i : Nat}
    (h : i ∈ m.indicesWhere p) : i < m.size :=
  List.mem_range.1 (List.mem_filter.1 h).1

theorem pairwise_indicesWhere (m : Model ι) (p : State ι → Bool) :
    (m.indicesWhere p).Pairwise (· < ·) :=
  List.pairwise_lt_range.filter _

theorem nodup_indicesWhere {m : Model ι} {p : State ι → Bool} : (m.indicesWhere p).Nodup :=
  (m.pairwise_indicesWhere p).imp Nat.ne_of_lt

variable [DecidableEq ι]

/-- The index of the first state with the id. -/
def indexOf? (m : Model ι) (i : ι) : Option Nat := m.states.findIdx? (·.id = i)

variable [Hashable ι]

/-- The indices of the states listed, by id, when the first of them has the index `i`. -/
def indicesById (i : Nat) : List (State ι) → Std.HashMap ι (List Nat)
  | [] => ∅
  | s :: ss => (indicesById (i + 1) ss).alter s.id fun is => some (i :: is.getD [])

/-- Under each id stand the indices of the states that have it, ascending. -/
theorem getD_indicesById (ss : List (State ι)) (i : Nat) (t : ι) :
    (indicesById i ss).getD t [] = ((ss.zipIdx i).filter fun p => p.1.id = t).map (·.2) := by
  induction ss generalizing i with
  | nil => simp [indicesById]
  | cons s ss ih =>
    rw [indicesById, Std.HashMap.getD_alter, List.zipIdx_cons, List.filter_cons]
    by_cases h : s.id = t
    · subst h
      have := ih (i + 1)
      rw [Std.HashMap.getD_eq_getD_getElem?] at this
      simp [this]
    · simp [h, ih]

/-- For each state the indices of the states that can come next, ascending and each once. -/
def successors (m : Model ι) : Array (List Nat) :=
  let byId := indicesById 0 m.states.toList
  m.states.map fun s => ((s.transitions.flatMap fun t => byId.getD t []).mergeSort).eraseReps

end Model

end BranchingTime
