import BranchingTime.BitSet.Size

set_option autoImplicit false

/-! # The members of a set one by one

A `Listing` stands somewhere in the row of words of a set. `Listing.next` takes the lowest position
out of the present word, and passes on to the next word when nothing is left of the present one, so
the members come in ascending order. Each step leaves one member fewer
(`Listing.size_of_next`). -/

namespace BranchingTime.BitSet

/-- How far the members of a set have been listed. -/
structure Listing where
  /-- The place of the present word in its row. -/
  place : Nat
  /-- What has not been listed of the present word. -/
  word : Word
  /-- The words behind the present one. -/
  later : List Word
deriving DecidableEq, Repr

namespace Listing

/-- List the next member, if there is one. A listing that is asked again behind its last word goes
    on by one place each time. -/
def next (l : Listing) : Option Nat × Listing :=
  if l.word = 0 then
    match l with
    | ⟨k, v, []⟩ => (none, ⟨k + 1, v, []⟩)
    | ⟨k, _, w :: ws⟩ => next ⟨k + 1, w, ws⟩
  else
    (some (64 * l.place + l.word.lowest), { l with word := l.word.dropLowest })
termination_by l.later.length

/-- The number of members not listed yet. -/
def size (l : Listing) : Nat := l.word.count + countAll l.later

/-- Each step leaves one member fewer. -/
theorem size_of_next {l l' : Listing} {i : Nat} (h : l.next = (some i, l')) :
    l'.size + 1 = l.size := by
  fun_induction next l with
  | case1 => cases h
  | case2 k v w ws hv ih =>
    rw [ih h]
    have hzero : v.count = 0 := by
      have hv : v = 0 := hv
      subst hv
      decide
    simp [size, countAll, hzero]
  | case3 l hl =>
    cases h
    have := Word.count_clear (Word.lowest_spec hl).2.1
    simp only [size, Word.dropLowest_eq_clear hl]
    omega

/-- All members not listed yet, ascending. -/
def toList (l : Listing) : List Nat :=
  match h : l.next with
  | (none, _) => []
  | (some i, l') =>
    have : l'.size < l.size := by rw [← size_of_next h]; exact Nat.lt_succ_self _
    i :: l'.toList
termination_by l.size

theorem toList_of_none {l l' : Listing} (h : l.next = (none, l')) : l.toList = [] := by
  rw [toList]
  split <;> simp_all

theorem toList_of_some {l l' : Listing} {i : Nat} (h : l.next = (some i, l')) :
    l.toList = i :: l'.toList := by
  rw [toList]
  split <;> simp_all

end Listing

/-- The listing of a set before its first member. -/
def listing (s : BitSet) : Listing :=
  match s.words.toList with
  | [] => ⟨0, 0, []⟩
  | w :: ws => ⟨0, w, ws⟩

/-- The members, ascending. -/
def toList (s : BitSet) : List Nat := s.listing.toList

/-- The members between braces, such as `{1, 2}`. -/
protected def toString (s : BitSet) : String :=
  "\x7b" ++ String.intercalate ", " (s.toList.map toString) ++ "\x7d"

instance : ToString BitSet := ⟨BitSet.toString⟩

end BranchingTime.BitSet
