import BranchingTime.BitSet.Word

set_option autoImplicit false

/-! # Rows of words

A row of words is one long run of bits: bit `i` of the row is bit `i % 64` of word `i / 64`, and all
bits beyond the end are clear. -/

namespace BranchingTime

/-- A row of words. -/
abbrev Words := Array Word

namespace Words

/-- The number of words that hold `n` bits. -/
def needed (n : Nat) : Nat := (n + 63) / 64

/-- The bit `i` of the row. -/
def bit (ws : Words) (i : Nat) : Bool := (ws.getD (i / 64) 0).bit (i % 64)

/-- The row with the word of bit `i` replaced by a function of it. -/
def modifyAt (ws : Words) (i : Nat) (f : Word → Word) : Words := ws.modify (i / 64) f

theorem div_lt_needed {n i : Nat} (h : i < n) : i / 64 < needed n := by
  unfold needed
  omega

theorem bit_of_size_le {ws : Words} {i : Nat} (h : ws.size ≤ i / 64) : ws.bit i = false := by
  simp [bit, Array.getD_eq_getD_getElem?, Array.getElem?_eq_none h]

theorem bit_of_lt {ws : Words} {i : Nat} (h : i / 64 < ws.size) :
    ws.bit i = ws[i / 64].bit (i % 64) := by
  simp [bit, Array.getD_eq_getD_getElem?, h]

/-- Rows of one length with the same bits are equal. -/
theorem ext {vs ws : Words} (hsize : vs.size = ws.size) (h : ∀ i, vs.bit i = ws.bit i) :
    vs = ws := by
  refine Array.ext hsize fun k hv hw => Word.ext fun i hi => ?_
  have := h (64 * k + i)
  have hk : (64 * k + i) / 64 = k := by omega
  have hm : (64 * k + i) % 64 = i := by omega
  rw [bit_of_lt (by rw [hk]; exact hv), bit_of_lt (by rw [hk]; exact hw)] at this
  simpa only [hk, hm] using this

@[simp] theorem size_modifyAt (ws : Words) (i : Nat) (f : Word → Word) :
    (ws.modifyAt i f).size = ws.size := by
  simp [modifyAt]

theorem bit_modifyAt {ws : Words} {i : Nat} {f : Word → Word} {b : Bool} (hi : i / 64 < ws.size)
    (hf : ∀ w k, (f w).bit k = if k = i % 64 then b else w.bit k) (j : Nat) :
    (ws.modifyAt i f).bit j = if j = i then b else ws.bit j := by
  by_cases hj : j / 64 < ws.size
  · rw [bit_of_lt (by simpa using hj), bit_of_lt hj]
    simp only [modifyAt, Array.getElem_modify]
    split
    · rw [hf]
      by_cases h : j % 64 = i % 64
      · rw [if_pos h, if_pos (by omega)]
      · rw [if_neg h, if_neg (by omega)]
    · rw [if_neg (by omega)]
  · rw [bit_of_size_le (by simpa using hj), bit_of_size_le (by omega), if_neg (by omega)]

end Words

end BranchingTime
