import BranchingTime.BitSet.Basic
import BranchingTime.Proofs.Attempts
import Mathlib.Data.List.Induction

set_option autoImplicit false

/-! # Which predicate a set represents

A set with the bound `n` represents a predicate on the numbers below `n`. Every operation on sets
succeeds on operands with one bound, and what it gives represents the matching combination of the
predicates. Whenever an operation succeeds, its result has the bound of its operands. -/

namespace BranchingTime.BitSet

variable {n : Nat} {P Q : Nat → Prop} {s t : BitSet}

/-- The members of the set are the numbers below `n` at which `P` holds. -/
structure Represents (s : BitSet) (n : Nat) (P : Nat → Prop) : Prop where
  bound : s.bound = n
  mem : ∀ i < n, s.contains i = true ↔ P i

theorem Represents.congr (h : s.Represents n P) (hPQ : ∀ i < n, P i ↔ Q i) : s.Represents n Q :=
  ⟨h.bound, fun i hi => (h.mem i hi).trans (hPQ i hi)⟩

/-- A member of the set is below the bound, so it can be told from the predicate. -/
theorem Represents.contains_iff (h : s.Represents n P) (i : Nat) :
    s.contains i = true ↔ i < n ∧ P i := by
  constructor
  · intro hi
    have hlt : i < n := h.bound ▸ lt_bound_of_contains hi
    exact ⟨hlt, (h.mem i hlt).1 hi⟩
  · rintro ⟨hlt, hi⟩
    exact (h.mem i hlt).2 hi

/-- A set is told by what it represents. -/
theorem Represents.unique (hs : s.Represents n P) (ht : t.Represents n P) : s = t := by
  refine ext (hs.bound.trans ht.bound.symm) fun i => ?_
  rw [Bool.eq_iff_iff, hs.contains_iff, ht.contains_iff]

theorem represents_contains (s : BitSet) : s.Represents s.bound (fun i => s.contains i = true) :=
  ⟨rfl, fun _ _ => Iff.rfl⟩

theorem represents_full (n : Nat) : (full n).Represents n (fun _ => True) := by
  refine ⟨rfl, ?_⟩
  intro i hi
  simp [hi]

theorem represents_empty (n : Nat) : (empty n).Represents n (fun _ => False) := by
  refine ⟨rfl, ?_⟩
  intro i _
  simp

theorem Represents.compl (h : s.Represents n P) : s.compl.Represents n (fun i => ¬ P i) := by
  refine ⟨h.bound, ?_⟩
  intro i hi
  rw [contains_compl, ← h.mem i hi, h.bound]
  simp [hi]

theorem Represents.union (hs : s.Represents n P) (ht : t.Represents n Q) :
    ∃ u, s.union t = .ok u ∧ u.Represents n (fun i => P i ∨ Q i) := by
  have hbound : s.bound = t.bound := hs.bound.trans ht.bound.symm
  refine ⟨zip unionOp s t hbound, dif_pos hbound, hs.bound, ?_⟩
  intro i hi
  rw [contains_zip, ← hs.mem i hi, ← ht.mem i hi]
  exact Bool.or_eq_true_iff

theorem Represents.inter (hs : s.Represents n P) (ht : t.Represents n Q) :
    ∃ u, s.inter t = .ok u ∧ u.Represents n (fun i => P i ∧ Q i) := by
  have hbound : s.bound = t.bound := hs.bound.trans ht.bound.symm
  refine ⟨zip interOp s t hbound, dif_pos hbound, hs.bound, ?_⟩
  intro i hi
  rw [contains_zip, ← hs.mem i hi, ← ht.mem i hi]
  exact Bool.and_eq_true_iff

/-- Indices below the bound can be inserted one after the other. -/
theorem Represents.insertAll (indices : List Nat) (h : s.Represents n P)
    (hlt : ∀ i ∈ indices, i < n) :
    ∃ u, indices.foldlM (fun s i => (s.insert i).map (·.1)) s = .ok u ∧
      u.Represents n (fun i => P i ∨ i ∈ indices) := by
  induction indices generalizing s P with
  | nil => exact ⟨s, rfl, h.congr fun i _ => by simp⟩
  | cons j js ih =>
    have hj : j < s.bound := h.bound ▸ hlt j List.mem_cons_self
    have hset : (s.set j hj).Represents n (fun i => P i ∨ i = j) := by
      refine ⟨h.bound, ?_⟩
      intro i hi
      rw [contains_set, Bool.or_eq_true, h.mem i hi, decide_eq_true_eq]
      exact or_comm
    obtain ⟨u, hu, hrep⟩ := ih hset fun i hi => hlt i (List.mem_cons_of_mem j hi)
    refine ⟨u, ?_, hrep.congr fun i _ => ?_⟩
    · rw [List.foldlM_cons, insert, dif_pos hj]
      exact hu
    · rw [List.mem_cons, or_assoc]

theorem represents_ofIndices {indices : List Nat} (hlt : ∀ i ∈ indices, i < n) :
    ∃ u, ofIndices n indices = .ok u ∧ u.Represents n (fun i => i ∈ indices) := by
  obtain ⟨u, hu, hrep⟩ := (represents_empty n).insertAll indices hlt
  exact ⟨u, hu, hrep.congr fun i _ => by simp⟩

/-! ## Bounds -/

theorem bound_of_insert {i : Nat} {b : Bool} (h : s.insert i = .ok (t, b)) : t.bound = s.bound := by
  unfold insert at h
  split at h <;> cases h
  exact bound_set s _

theorem bound_of_combine {op : BitOp} {u : BitSet} (h : combine op s t = .ok u) :
    u.bound = s.bound := by
  unfold combine at h
  split at h <;> cases h
  exact bound_zip op s t _

theorem ofIndices_concat (n : Nat) (indices : List Nat) (i : Nat) :
    ofIndices n (indices ++ [i]) = ofIndices n indices >>= fun s => (s.insert i).map (·.1) := by
  simp [ofIndices]

theorem bound_of_ofIndices {indices : List Nat} (h : ofIndices n indices = .ok s) :
    s.bound = n := by
  induction indices using List.reverseRecOn generalizing s with
  | nil =>
    cases h
    exact bound_empty n
  | append_singleton indices i ih =>
    rw [ofIndices_concat] at h
    obtain ⟨t, ht, h⟩ := bind_eq_ok.1 h
    obtain ⟨p, hp, rfl⟩ := map_eq_ok.1 h
    exact (bound_of_insert hp).trans (ih ht)

end BranchingTime.BitSet
