import BranchingTime.BitSet.Listing

set_option autoImplicit false

/-! # The members that a listing gives

What a listing has still to give is told by the bits of its present word and of the later ones, taken
as one row that begins at the place of the present word (`Listing.Has`). One step gives the least
number and leaves the others. So the members of a set are listed in ascending order, each once, and
`BitSet.size` is their number. -/

namespace BranchingTime

theorem Words.bit_cons (w : Word) (ws : List Word) (i : Nat) :
    bit (w :: ws).toArray i = if i < 64 then w.bit i else bit ws.toArray (i - 64) := by
  simp only [bit, Array.getD_eq_getD_getElem?, List.getElem?_toArray]
  by_cases hi : i < 64
  · simp [hi, Nat.div_eq_of_lt hi, Nat.mod_eq_of_lt hi]
  · have hdiv : i / 64 = (i - 64) / 64 + 1 := by omega
    have hmod : i % 64 = (i - 64) % 64 := by omega
    simp [hi, hdiv, hmod]

theorem Words.bit_nil (i : Nat) : bit [].toArray i = false :=
  bit_of_size_le (by simp)

namespace BitSet

namespace Listing

variable {l l' : Listing} {i j k : Nat} {v w : Word} {ws : List Word}

/-- The number has not been listed yet. -/
def Has (l : Listing) (i : Nat) : Prop :=
  64 * l.place ≤ i ∧ Words.bit (l.word :: l.later).toArray (i - 64 * l.place) = true

/-! ## One step -/

/-- Nothing is lost when an empty word is passed. -/
theorem has_skip : Has ⟨k, 0, w :: ws⟩ i ↔ Has ⟨k + 1, w, ws⟩ i := by
  have hsub : i - 64 * (k + 1) = i - 64 * k - 64 := by omega
  simp only [Has, Words.bit_cons 0, hsub]
  by_cases hi : i - 64 * k < 64
  · have hlt : ¬ 64 * (k + 1) ≤ i ∨ i = 64 * (k + 1) := by omega
    simp only [hi, ↓reduceIte, Word.bit_zero]
    simp
    omega
  · have hle : 64 * k ≤ i ↔ 64 * (k + 1) ≤ i := by omega
    simp [hi, hle]

theorem not_has_of_next (h : l.next = (none, l')) : l.size = 0 ∧ ∀ i, ¬ l.Has i := by
  fun_induction next l with
  | case1 k v hv =>
    obtain rfl : v = 0 := hv
    refine ⟨by simp [size, countAll, Word.count], fun i => ?_⟩
    rw [Has, Words.bit_cons, Words.bit_nil]
    simp
  | case2 k v w ws hv ih =>
    obtain rfl : v = 0 := hv
    obtain ⟨hsize, hnot⟩ := ih h
    refine ⟨?_, fun i hi => hnot i (has_skip.1 hi)⟩
    simpa [size, countAll, Word.count] using hsize
  | case3 => simp at h

/-- A step gives the least number not listed yet, and leaves the others. -/
theorem has_of_next (h : l.next = (some i, l')) :
    (∀ j, l.Has j ↔ j = i ∨ l'.Has j) ∧ ∀ j, l'.Has j → i < j := by
  fun_induction next l with
  | case1 => simp at h
  | case2 k v w ws hv ih =>
    obtain rfl : v = 0 := hv
    obtain ⟨hleft, hlt⟩ := ih h
    exact ⟨fun j => has_skip.trans (hleft j), hlt⟩
  | case3 l hl =>
    cases h
    obtain ⟨hlow, hbit, hbelow⟩ := Word.lowest_spec hl
    rw [Word.dropLowest_eq_clear hl]
    constructor
    · intro j
      simp only [Has, Words.bit_cons, Word.bit_clear _ hlow]
      split
      · by_cases hj : j - 64 * l.place = l.word.lowest
        · simp [hj, hbit]
          omega
        · simp [hj]
          omega
      · simp
        omega
    · intro j hj
      simp only [Has, Words.bit_cons, Word.bit_clear _ hlow] at hj
      refine Nat.lt_of_not_le fun hle => ?_
      have hin : j - 64 * l.place < 64 := by omega
      simp [hin] at hj
      by_cases hlt : j - 64 * l.place < l.word.lowest
      · simp [hbelow _ hlt] at hj
      · omega

/-! ## All steps -/

theorem mem_toList : i ∈ l.toList ↔ l.Has i := by
  fun_induction toList l with
  | case1 l l' h => simpa using (not_has_of_next h).2 i
  | case2 l j l' h _ ih => rw [List.mem_cons, ih, (has_of_next h).1]

theorem pairwise_toList (l : Listing) : l.toList.Pairwise (· < ·) := by
  fun_induction toList l with
  | case1 => exact .nil
  | case2 l j l' h _ ih =>
    exact List.pairwise_cons.2 ⟨fun i hi => (has_of_next h).2 i (mem_toList.1 hi), ih⟩

theorem length_toList (l : Listing) : l.toList.length = l.size := by
  fun_induction toList l with
  | case1 l l' h => simpa using (not_has_of_next h).1.symm
  | case2 l j l' h _ ih => rw [List.length_cons, ih, size_of_next h]

end Listing

/-! ## Sets -/

variable {s : BitSet} {i : Nat}

theorem has_listing : s.listing.Has i ↔ s.contains i = true := by
  rw [contains_eq_bit, listing, Listing.Has]
  cases hwords : s.words.toList with
  | nil =>
    have : s.words = [].toArray := by rw [← hwords]
    rw [this, Words.bit_cons, Words.bit_nil, Words.bit_nil]
    simp
  | cons w ws =>
    have : s.words = (w :: ws).toArray := by rw [← hwords]
    simp [this]

/-- The members of a set are listed. -/
@[simp] theorem mem_toList : i ∈ s.toList ↔ s.contains i = true :=
  Listing.mem_toList.trans has_listing

/-- The members are listed in ascending order, and each once. -/
theorem pairwise_toList (s : BitSet) : s.toList.Pairwise (· < ·) := s.listing.pairwise_toList

theorem nodup_toList (s : BitSet) : s.toList.Nodup := s.pairwise_toList.imp Nat.ne_of_lt

theorem length_toList (s : BitSet) : s.toList.length = s.size := by
  rw [toList, Listing.length_toList, size, listing, Listing.size]
  cases s.words.toList with
  | nil => simp [countAll, Word.count]
  | cons w ws => simp [countAll]

end BitSet

end BranchingTime
