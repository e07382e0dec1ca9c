import BranchingTime.Proofs.Members
import BranchingTime.Proofs.Sets

set_option autoImplicit false

/-! # Members on demand

A listing can be asked for a member as often as one likes. One call passes the words of which
nothing is left, gives the lowest position of the first other one and takes it out of the word. What
the listing had still to give before the call is this number and what it has still to give
afterwards. Once nothing is left it stays so, though the place goes on with every further call
(`Listing.toList_of_next_none`). So the calls give what is left, one number after the other, and then
nothing for ever (`Listing.nth_eq_getElem?`).

For a listing that has not been asked yet this is all of the set. The words hold no bit at or beyond
the bound, so only members are given, and they make the set again when they are put into the empty
one (`ofIndices_toList`). -/

namespace BranchingTime.BitSet

namespace Listing

variable {l l' : Listing}

/-- What the call of `next` with the number `k` gives. -/
def nth (l : Listing) : Nat → Option Nat
  | 0 => l.next.1
  | k + 1 => l.next.2.nth k

/-- A listing of which nothing is left is asked in vain ever after. -/
theorem toList_of_next_none (h : l.next = (none, l')) : l'.toList = [] := by
  fun_induction next l with
  | case1 k v hv =>
    cases h
    have hnext : next ⟨k + 1, v, []⟩ = (none, ⟨k + 1 + 1, v, []⟩) := by
      rw [next]
      exact if_pos hv
    exact toList_of_none hnext
  | case2 k v w ws hv ih => exact ih h
  | case3 => simp at h

theorem nth_eq_getElem? (l : Listing) (k : Nat) : l.nth k = l.toList[k]? := by
  induction k generalizing l with
  | zero =>
    unfold nth
    rcases h : l.next with ⟨_ | i, l'⟩
    · rw [toList_of_none h, List.getElem?_nil]
    · rw [toList_of_some h, List.getElem?_cons_zero]
  | succ k ih =>
    unfold nth
    rw [ih]
    rcases h : l.next with ⟨_ | i, l'⟩
    · rw [toList_of_none h, toList_of_next_none h, List.getElem?_nil, List.getElem?_nil]
    · rw [toList_of_some h, List.getElem?_cons_succ]

end Listing

/-- The members listed make the set again. -/
theorem ofIndices_toList (s : BitSet) : ofIndices s.bound s.toList = .ok s := by
  have hlt : ∀ i ∈ s.toList, i < s.bound := by
    intro i hi
    exact lt_bound_of_contains (mem_toList.1 hi)
  have hself : s.Represents s.bound (fun i => i ∈ s.toList) := by
    refine s.represents_contains.congr ?_
    intro i _
    exact mem_toList.symm
  obtain ⟨t, ht, hrep⟩ := represents_ofIndices hlt
  rw [ht, hrep.unique hself]

/-- **A listing gives the members of its set and nothing else**, for a set with any bound and made
    by any operations. The calls give the members in ascending order, as many as the set has, and all
    further calls give nothing. The members listed make the set again. -/
theorem listing_enumerates (s : BitSet) :
    (∀ k, s.listing.nth k = s.toList[k]?) ∧
      s.toList.Pairwise (· < ·) ∧
      (∀ i, i ∈ s.toList ↔ s.contains i = true) ∧
      s.toList.length = s.size ∧
      (∀ k, s.listing.nth k = none ↔ s.size ≤ k) ∧
      ofIndices s.bound s.toList = .ok s := by
  refine ⟨s.listing.nth_eq_getElem?, s.pairwise_toList, fun i => mem_toList, s.length_toList, ?_,
    s.ofIndices_toList⟩
  intro k
  rw [Listing.nth_eq_getElem?, List.getElem?_eq_none_iff, ← s.length_toList]
  rfl

end BranchingTime.BitSet
