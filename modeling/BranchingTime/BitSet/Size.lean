import BranchingTime.BitSet.Basic

set_option autoImplicit false

/-! # The number of members of a set

`BitSet.size` counts the members of a set and `BitSet.room` the bits of its words that are
clear. An intersection that is not its first operand has fewer members than it, and a union that is
not its first operand has less room; so neither operation can change a set again and again. -/

namespace BranchingTime.BitSet

/-- The number of bits set in the words listed. -/
def countAll : List Word → Nat
  | [] => 0
  | w :: ws => w.count + countAll ws

/-- The number of members. -/
def size (s : BitSet) : Nat := countAll s.words.toList

/-- The number of clear bits in the words of the set. -/
def room (s : BitSet) : Nat := 64 * s.words.size - s.size

theorem countAll_le (ws : List Word) : countAll ws ≤ 64 * ws.length := by
  induction ws with
  | nil => exact Nat.le_refl _
  | cons w ws ih =>
    have := w.count_le
    simp only [countAll, List.length_cons]
    omega

theorem size_le (s : BitSet) : s.size ≤ 64 * s.words.size := countAll_le _

/-- Words that lose bits, position by position, lose some in all. -/
theorem countAll_zipWith_lt {f : Word → Word → Word}
    (hf : ∀ v w i, (f v w).bit i = true → v.bit i = true) :
    ∀ {vs ws : List Word}, vs.length = ws.length → List.zipWith f vs ws ≠ vs →
      countAll (List.zipWith f vs ws) < countAll vs := by
  have hle : ∀ vs ws : List Word, countAll (List.zipWith f vs ws) ≤ countAll vs := by
    intro vs
    induction vs with
    | nil => simp [countAll]
    | cons v vs ih =>
      intro ws
      cases ws with
      | nil => simp [countAll]
      | cons w ws =>
        have := ih ws
        have := Word.count_mono (hf v w)
        simp only [List.zipWith_cons_cons, countAll]
        omega
  intro vs
  induction vs with
  | nil => simp
  | cons v vs ih =>
    intro ws hlen hne
    cases ws with
    | nil => cases hlen
    | cons w ws =>
      have hrest := hle vs ws
      have hword := Word.count_mono (hf v w)
      rw [List.zipWith_cons_cons] at hne ⊢
      simp only [countAll]
      by_cases hv : f v w = v
      · have := ih (Nat.succ.inj hlen) fun h => hne (by rw [hv, h])
        omega
      · have := Word.count_lt_count (hf v w) hv
        omega

/-- Words that gain bits, position by position, gain some in all. -/
theorem countAll_lt_zipWith {f : Word → Word → Word}
    (hf : ∀ v w i, v.bit i = true → (f v w).bit i = true) :
    ∀ {vs ws : List Word}, vs.length = ws.length → List.zipWith f vs ws ≠ vs →
      countAll vs < countAll (List.zipWith f vs ws) := by
  have hle : ∀ vs ws : List Word, vs.length = ws.length →
      countAll vs ≤ countAll (List.zipWith f vs ws) := by
    intro vs
    induction vs with
    | nil => simp [countAll]
    | cons v vs ih =>
      intro ws hlen
      cases ws with
      | nil => cases hlen
      | cons w ws =>
        have := ih ws (Nat.succ.inj hlen)
        have := Word.count_mono (hf v w)
        simp only [List.zipWith_cons_cons, countAll]
        omega
  intro vs
  induction vs with
  | nil => simp
  | cons v vs ih =>
    intro ws hlen hne
    cases ws with
    | nil => cases hlen
    | cons w ws =>
      have hrest := hle vs ws (Nat.succ.inj hlen)
      have hword := Word.count_mono (hf v w)
      rw [List.zipWith_cons_cons] at hne ⊢
      simp only [countAll]
      by_cases hv : f v w = v
      · have := ih (Nat.succ.inj hlen) fun h => hne (by rw [hv, h])
        omega
      · have := Word.count_lt_count (hf v w) (fun h => hv h.symm)
        omega

private theorem zip_eq_self {op : BitOp} {s t : BitSet} {h : s.bound = t.bound}
    (hwords : List.zipWith op.onWord s.words.toList t.words.toList = s.words.toList) :
    zip op s t h = s := by
  have : Array.zipWith op.onWord s.words t.words = s.words := by
    rw [← Array.toList_inj, Array.toList_zipWith, hwords]
  cases s
  simp_all [zip]

/-- An intersection that is not its first operand has fewer members. -/
theorem size_lt_of_inter {s t u : BitSet} (h : s.inter t = .ok u) (hne : u ≠ s) :
    u.size < s.size := by
  unfold inter combine at h
  split at h
  · next hb =>
    cases h
    rw [size, size, zip, Array.toList_zipWith]
    refine countAll_zipWith_lt (fun v w i hi => ?_) ?_ fun hwords => hne (zip_eq_self hwords)
    · rw [interOp.bit_onWord] at hi
      simp only [interOp, Bool.and_eq_true] at hi
      exact hi.1
    · rw [Array.length_toList, Array.length_toList, s.size_words, t.size_words, hb]
  · cases h

/-- A union that is not its first operand has less room. -/
theorem room_lt_of_union {s t u : BitSet} (h : s.union t = .ok u) (hne : u ≠ s) :
    u.room < s.room := by
  unfold union combine at h
  split at h
  · next hb =>
    cases h
    have hsize : s.size < (zip unionOp s t hb).size := by
      rw [size, size, zip, Array.toList_zipWith]
      refine countAll_lt_zipWith (fun v w i hi => ?_) ?_ fun hwords => hne (zip_eq_self hwords)
      · rw [unionOp.bit_onWord]
        simp [unionOp, hi]
      · rw [Array.length_toList, Array.length_toList, s.size_words, t.size_words, hb]
    have hle := (zip unionOp s t hb).size_le
    have hwords : (zip unionOp s t hb).words.size = s.words.size := by
      rw [(zip unionOp s t hb).size_words, s.size_words]
      rfl
    unfold room
    omega
  · cases h

end BranchingTime.BitSet
