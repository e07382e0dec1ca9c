import BranchingTime.BitSet.Words
import BranchingTime.Error

set_option autoImplicit false

/-! # Sets of numbers below a bound

The states of a model are told by their indices, so a set of states is a set of natural numbers
below a bound. It is kept as a row of words, in which the bits at and beyond the bound are always
clear (`BitSet.clear_tail`). So two sets with one bound are equal exactly if they have the same
members (`BitSet.ext`). Each operation works on whole words, and is described by what `contains`
says of its result.

Two sets can be combined only if they have the same bound, and only indices below the bound can be
inserted; both are checked, and a violation is a `Misuse`. -/

namespace BranchingTime

/-- A set of natural numbers below a bound. -/
structure BitSet where
  bound : Nat
  words : Words
  size_words : words.size = Words.needed bound
  clear_tail : ∀ i, bound ≤ i → words.bit i = false
deriving DecidableEq

namespace BitSet

/-! ## Membership -/

/-- Whether the index is in the set. -/
def contains (s : BitSet) (i : Nat) : Bool := decide (i < s.bound) && s.words.bit i

theorem contains_eq_bit (s : BitSet) (i : Nat) : s.contains i = s.words.bit i := by
  by_cases h : i < s.bound
  · simp [contains, h]
  · simp [contains, h, s.clear_tail i (by omega)]

theorem lt_bound_of_contains {s : BitSet} {i : Nat} (h : s.contains i = true) : i < s.bound := by
  simp only [contains, Bool.and_eq_true, decide_eq_true_eq] at h
  exact h.1

/-- Sets with one bound and the same members are equal. -/
theorem ext {s t : BitSet} (hbound : s.bound = t.bound)
    (h : ∀ i, s.contains i = t.contains i) : s = t := by
  have hwords : s.words = t.words := by
    refine Words.ext (by rw [s.size_words, t.size_words, hbound]) fun i => ?_
    rw [← contains_eq_bit, ← contains_eq_bit, h]
  cases s
  cases t
  simp_all

/-! ## Sets made from nothing -/

/-- The set with no member. -/
def empty (n : Nat) : BitSet where
  bound := n
  words := Array.replicate (Words.needed n) 0
  size_words := Array.size_replicate
  clear_tail i _ := by
    by_cases h : i / 64 < Words.needed n
    · rw [Words.bit_of_lt (by simpa using h)]
      simp
    · exact Words.bit_of_size_le (by simpa using h)

/-- The set of all numbers below the bound. The last word holds no more than what is left for
    it. -/
def full (n : Nat) : BitSet where
  bound := n
  words := Array.ofFn fun k : Fin (Words.needed n) => Word.below (n - 64 * k)
  size_words := Array.size_ofFn
  clear_tail i hi := by
    by_cases h : i / 64 < Words.needed n
    · rw [Words.bit_of_lt (by simpa using h), Array.getElem_ofFn, Word.bit_below]
      simp only [decide_eq_false_iff_not, not_and, Nat.not_lt]
      omega
    · exact Words.bit_of_size_le (by simpa using h)

@[simp] theorem bound_empty (n : Nat) : (empty n).bound = n := rfl

@[simp] theorem bound_full (n : Nat) : (full n).bound = n := rfl

@[simp] theorem contains_empty (n i : Nat) : (empty n).contains i = false := by
  rw [contains_eq_bit]
  by_cases h : i / 64 < Words.needed n
  · rw [Words.bit_of_lt (by simpa [empty] using h)]
    simp [empty]
  · exact Words.bit_of_size_le (by simpa [empty] using h)

@[simp] theorem contains_full (n i : Nat) : (full n).contains i = decide (i < n) := by
  by_cases hi : i < n
  · have h := Words.div_lt_needed hi
    rw [contains_eq_bit, Words.bit_of_lt (by simpa [full] using h)]
    simp only [full, Array.getElem_ofFn, Word.bit_below]
    grind
  · simp [contains, full, hi]

/-! ## One member more or less -/

/-- The set with the index in it. -/
def set (s : BitSet) (i : Nat) (hi : i < s.bound) : BitSet where
  bound := s.bound
  words := s.words.modifyAt i (· ||| Word.single (i % 64))
  size_words := by simp [s.size_words]
  clear_tail j hj := by
    rw [Words.bit_modifyAt (b := true) (by rw [s.size_words]; exact Words.div_lt_needed hi)]
    · rw [if_neg (by omega), s.clear_tail j hj]
    · intro w k
      rw [Word.bit_or, Word.bit_single (by omega)]
      split <;> simp_all

/-- The set without the index. -/
def erase (s : BitSet) (i : Nat) (hi : i < s.bound) : BitSet where
  bound := s.bound
  words := s.words.modifyAt i (·.clear (i % 64))
  size_words := by simp [s.size_words]
  clear_tail j hj := by
    rw [Words.bit_modifyAt (b := false) (by rw [s.size_words]; exact Words.div_lt_needed hi)]
    · rw [if_neg (by omega), s.clear_tail j hj]
    · intro w k
      rw [Word.bit_clear _ (by omega)]
      split <;> simp_all

@[simp] theorem bound_set (s : BitSet) {i : Nat} (hi : i < s.bound) :
    (s.set i hi).bound = s.bound := rfl

@[simp] theorem bound_erase (s : BitSet) {i : Nat} (hi : i < s.bound) :
    (s.erase i hi).bound = s.bound := rfl

theorem contains_set (s : BitSet) {i : Nat} (hi : i < s.bound) (j : Nat) :
    (s.set i hi).contains j = (decide (j = i) || s.contains j) := by
  rw [contains_eq_bit, contains_eq_bit, set, Words.bit_modifyAt (b := true)
    (by rw [s.size_words]; exact Words.div_lt_needed hi)]
  · split <;> simp_all
  · intro w k
    rw [Word.bit_or, Word.bit_single (by omega)]
    split <;> simp_all

theorem contains_erase (s : BitSet) {i : Nat} (hi : i < s.bound) (j : Nat) :
    (s.erase i hi).contains j = (decide (j ≠ i) && s.contains j) := by
  rw [contains_eq_bit, contains_eq_bit, erase, Words.bit_modifyAt (b := false)
    (by rw [s.size_words]; exact Words.div_lt_needed hi)]
  · split <;> simp_all
  · intro w k
    rw [Word.bit_clear _ (by omega)]
    split <;> simp_all

/-- Insert an index; with the set comes whether the index is new. -/
def insert (s : BitSet) (i : Nat) : Except Misuse (BitSet × Bool) :=
  if h : i < s.bound then .ok (s.set i h, !s.contains i)
  else .error (.outOfBound i s.bound)

/-- Remove an index; with the set comes whether the index was a member. -/
def remove (s : BitSet) (i : Nat) : BitSet × Bool :=
  if h : i < s.bound then (s.erase i h, s.contains i) else (s, false)

/-- The set of the indices listed. -/
def ofIndices (n : Nat) (indices : List Nat) : Except Misuse BitSet :=
  indices.foldlM (fun s i => (s.insert i).map (·.1)) (empty n)

/-! ## Two sets -/

/-- An operation on words that treats every position alike and adds none. -/
structure BitOp where
  onWord : Word → Word → Word
  onBit : Bool → Bool → Bool
  bit_onWord : ∀ v w i, (onWord v w).bit i = onBit (v.bit i) (w.bit i)
  onBit_false : onBit false false = false

/-- Apply an operation word by word. -/
def zip (op : BitOp) (s t : BitSet) (h : s.bound = t.bound) : BitSet where
  bound := s.bound
  words := Array.zipWith op.onWord s.words t.words
  size_words := by simp [s.size_words, t.size_words, h]
  clear_tail i hi := by
    by_cases hs : i / 64 < Words.needed s.bound
    · have hs' : i / 64 < s.words.size := by rw [s.size_words]; exact hs
      have ht' : i / 64 < t.words.size := by rw [t.size_words, ← h]; exact hs
      have hsi := s.clear_tail i hi
      have hti := t.clear_tail i (h ▸ hi)
      rw [Words.bit_of_lt hs'] at hsi
      rw [Words.bit_of_lt ht'] at hti
      rw [Words.bit_of_lt (by simp; omega), Array.getElem_zipWith, op.bit_onWord, hsi, hti,
        op.onBit_false]
    · refine Words.bit_of_size_le ?_
      simp [s.size_words, t.size_words, ← h]
      omega

@[simp] theorem bound_zip (op : BitOp) (s t : BitSet) (h : s.bound = t.bound) :
    (zip op s t h).bound = s.bound := rfl

theorem contains_zip (op : BitOp) (s t : BitSet) (h : s.bound = t.bound) (i : Nat) :
    (zip op s t h).contains i = op.onBit (s.contains i) (t.contains i) := by
  by_cases hi : i < s.bound
  · have hs : i / 64 < s.words.size := by rw [s.size_words]; exact Words.div_lt_needed hi
    have ht : i / 64 < t.words.size := by rw [t.size_words, ← h]; exact Words.div_lt_needed hi
    rw [contains_eq_bit, contains_eq_bit, contains_eq_bit, Words.bit_of_lt hs, Words.bit_of_lt ht,
      zip, Words.bit_of_lt (by simp; omega), Array.getElem_zipWith, op.bit_onWord]
  · simp [contains, zip, hi, ← h, op.onBit_false]

/-- The members of either set. -/
def unionOp : BitOp where
  onWord v w := v ||| w
  onBit a b := a || b
  bit_onWord := Word.bit_or
  onBit_false := rfl

/-- The members of both sets. -/
def interOp : BitOp where
  onWord v w := v &&& w
  onBit a b := a && b
  bit_onWord := Word.bit_and
  onBit_false := rfl

/-- The members of the first set that are not in the second. -/
def diffOp : BitOp where
  onWord v w := v &&& ~~~w
  onBit a b := a && !b
  bit_onWord := Word.bit_and_not
  onBit_false := rfl

/-- Apply an operation to two sets with the same bound. -/
def combine (op : BitOp) (s t : BitSet) : Except Misuse BitSet :=
  if h : s.bound = t.bound then .ok (zip op s t h) else .error .differentBounds

/-- The members of either set. -/
def union (s t : BitSet) : Except Misuse BitSet := combine unionOp s t

/-- The members of both sets. -/
def inter (s t : BitSet) : Except Misuse BitSet := combine interOp s t

/-- The members of `s` that are not in `t`. -/
def diff (s t : BitSet) : Except Misuse BitSet := combine diffOp s t

/-- The numbers below the bound that are not in the set. -/
def compl (s : BitSet) : BitSet := zip diffOp (full s.bound) s (bound_full _)

@[simp] theorem bound_compl (s : BitSet) : s.compl.bound = s.bound := rfl

@[simp] theorem contains_compl (s : BitSet) (i : Nat) :
    s.compl.contains i = (decide (i < s.bound) && !s.contains i) := by
  rw [compl, contains_zip, contains_full]
  rfl

/-- Whether the sets have the same bound and each member of `s` is in `t`. -/
def isSubset (s t : BitSet) : Bool :=
  s.bound == t.bound && (Array.zipWith (fun v w => v &&& ~~~w == 0) s.words t.words).all id

/-- Whether the set has no member. -/
def isEmpty (s : BitSet) : Bool := s.words.all (· == 0)

end BitSet

end BranchingTime
