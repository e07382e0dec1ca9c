set_option autoImplicit false

/-! # Words of 64 bits

A word is a set of bit positions below 64. This module has the words that sets are made of (a single
position, all positions below a limit), the questions asked of a word, and the law of each in terms
of `Word.bit`. Two words with the same bits are equal (`Word.ext`), and of two words one of whose
positions are among the other's the smaller one has fewer (`Word.count_lt_count`). -/

namespace BranchingTime

/-- A set of bit positions below 64. -/
abbrev Word := UInt64

namespace Word

/-- Whether the position `i` is in the word. -/
def bit (w : Word) (i : Nat) : Bool := w.toBitVec.getLsbD i

/-- The word with the position `i` alone, for `i` below 64. -/
def single (i : Nat) : Word := 1 <<< UInt64.ofNat i

/-- The word with the positions below `n`. -/
def below (n : Nat) : Word := if 64 ≤ n then 0xFFFFFFFFFFFFFFFF else single n - 1

/-- The number of positions in the word. -/
def count (w : Word) : Nat := (List.range 64).countP w.bit

/-- The lowest position in the word, 64 if there is none. -/
def lowest (w : Word) : Nat := ((List.range 64).find? w.bit).getD 64

/-- The word without the position `i`. -/
def clear (w : Word) (i : Nat) : Word := w &&& ~~~single i

/-- The word without its lowest position, which subtracting one clears. The positions below it, which
    subtracting one sets, are not in the word. -/
def dropLowest (w : Word) : Word := w &&& (w - 1)

/-! ## Bits -/

theorem ext {v w : Word} (h : ∀ i < 64, v.bit i = w.bit i) : v = w :=
  UInt64.toBitVec_inj.1 (BitVec.eq_of_getLsbD_eq h)

theorem bit_eq_false_of_le (w : Word) {i : Nat} (h : 64 ≤ i) : w.bit i = false :=
  BitVec.getLsbD_of_ge _ _ h

@[simp] theorem bit_zero (i : Nat) : bit 0 i = false := by
  simp [bit]

@[simp] theorem bit_and (v w : Word) (i : Nat) : bit (v &&& w) i = (v.bit i && w.bit i) := by
  simp [bit]

@[simp] theorem bit_or (v w : Word) (i : Nat) : bit (v ||| w) i = (v.bit i || w.bit i) := by
  simp [bit]

theorem bit_not (w : Word) {i : Nat} (h : i < 64) : bit (~~~w) i = !w.bit i := by
  simp [bit, h]

theorem bit_and_not (v w : Word) (i : Nat) : bit (v &&& ~~~w) i = (v.bit i && !w.bit i) := by
  by_cases h : i < 64
  · rw [bit_and, bit_not w h]
  · rw [bit_eq_false_of_le _ (by omega), bit_eq_false_of_le v (by omega), Bool.false_and]

theorem toNat_single {i : Nat} (hi : i < 64) : (single i).toNat = 1 <<< i := by
  have hpow : 2 ^ i < 2 ^ 64 := Nat.pow_lt_pow_right (by decide) hi
  have hi' : (UInt64.ofNat i).toNat = i :=
    UInt64.toNat_ofNat_of_lt' (Nat.lt_of_lt_of_le hi (by decide))
  rw [single, UInt64.toNat_shiftLeft, hi', Nat.mod_eq_of_lt hi, UInt64.toNat_one,
    Nat.one_shiftLeft, Nat.mod_eq_of_lt hpow]

theorem bit_single {i : Nat} (hi : i < 64) (j : Nat) : bit (single i) j = decide (j = i) := by
  change (single i).toNat.testBit j = _
  rw [toNat_single hi, Nat.one_shiftLeft, Nat.testBit_two_pow]
  simp [eq_comm]

theorem bit_below (n j : Nat) : bit (below n) j = decide (j < n ∧ j < 64) := by
  unfold below
  split
  · next h =>
    change (2 ^ 64 - 1).testBit j = _
    rw [Nat.testBit_two_pow_sub_one]
    grind
  · next h =>
    have hsingle : (single n).toNat = 2 ^ n := by
      rw [toNat_single (Nat.lt_of_not_le h), Nat.one_shiftLeft]
    have hle : (1 : UInt64) ≤ single n := by
      rw [UInt64.le_iff_toNat_le, hsingle]
      exact Nat.one_le_two_pow
    change (single n - 1).toNat.testBit j = _
    rw [UInt64.toNat_sub_of_le _ _ hle, hsingle, UInt64.toNat_one, Nat.testBit_two_pow_sub_one]
    grind

/-- Only the empty word has no position. -/
theorem eq_zero_iff (w : Word) : w = 0 ↔ ∀ i < 64, w.bit i = false := by
  constructor
  · rintro rfl i -
    exact bit_zero i
  · intro h
    exact ext fun i hi => by rw [h i hi, bit_zero]

/-! ## The lowest position -/

theorem lowest_spec {w : Word} (h : w ≠ 0) :
    w.lowest < 64 ∧ w.bit w.lowest = true ∧ ∀ i < w.lowest, w.bit i = false := by
  unfold lowest
  cases hfind : (List.range 64).find? w.bit with
  | none =>
    refine absurd ((eq_zero_iff w).2 fun i hi => ?_) h
    simpa using List.find?_eq_none.1 hfind i (List.mem_range.2 hi)
  | some i =>
    refine ⟨List.mem_range.1 (List.mem_of_find?_eq_some hfind), List.find?_some hfind, ?_⟩
    intro j hj
    rw [List.find?_range_eq_some] at hfind
    simpa using hfind.2.2 j hj

theorem bit_clear (w : Word) {i : Nat} (hi : i < 64) (j : Nat) :
    bit (w.clear i) j = (w.bit j && decide (j ≠ i)) := by
  rw [clear, bit_and_not, bit_single hi, decide_not]

/-- All that is left of a number up to its lowest bit is that bit. -/
theorem mod_of_lowest_testBit {n i : Nat} (hi : n.testBit i = true)
    (hbelow : ∀ j < i, n.testBit j = false) : n % (1 <<< (i + 1)) = 1 <<< i := by
  rw [Nat.one_shiftLeft, Nat.one_shiftLeft]
  apply Nat.eq_of_testBit_eq
  intro j
  rw [Nat.testBit_mod_two_pow, Nat.testBit_two_pow]
  rcases Nat.lt_trichotomy j i with hlt | rfl | hgt
  · have hne : i ≠ j := by omega
    simp [hbelow j hlt, hne]
  · simp [hi]
  · have hne : i ≠ j := by omega
    have hge : ¬ j < i + 1 := by omega
    simp [hge, hne]

/-- Subtracting one takes the lowest bit away and leaves those above it. -/
theorem testBit_sub_one {n i : Nat} (hi : n.testBit i = true)
    (hbelow : ∀ j < i, n.testBit j = false) {j : Nat} (hj : i ≤ j) :
    (n - 1).testBit j = (n.testBit j && decide (j ≠ i)) := by
  have hmod := mod_of_lowest_testBit hi hbelow
  rw [Nat.one_shiftLeft, Nat.one_shiftLeft] at hmod
  have hpos : 1 ≤ 2 ^ i := Nat.one_le_two_pow
  have hlt : 2 ^ i < 2 ^ (i + 1) := Nat.pow_lt_pow_right (by decide) (Nat.lt_succ_self i)
  have hn : 2 ^ (i + 1) * (n / 2 ^ (i + 1)) + 2 ^ i = n := by
    rw [← hmod]
    exact Nat.div_add_mod n _
  have hsub : n - 1 = 2 ^ (i + 1) * (n / 2 ^ (i + 1)) + (2 ^ i - 1) := by omega
  have hbefore : n.testBit j = (2 ^ (i + 1) * (n / 2 ^ (i + 1)) + 2 ^ i).testBit j := by rw [hn]
  rw [hsub, hbefore, Nat.testBit_two_pow_mul_add _ (by omega), Nat.testBit_two_pow_mul_add _ hlt]
  rcases Nat.eq_or_lt_of_le hj with rfl | hgt
  · simp [Nat.testBit_two_pow_sub_one]
  · have hne : j ≠ i := by omega
    have hge : ¬ j < i + 1 := by omega
    simp [hge, hne]

theorem dropLowest_eq_clear {w : Word} (h : w ≠ 0) : w.dropLowest = w.clear w.lowest := by
  obtain ⟨hlow, hbit, hbelow⟩ := lowest_spec h
  have hone : (1 : UInt64) ≤ w := by
    rw [UInt64.le_iff_toNat_le, UInt64.toNat_one]
    have : w.toNat ≠ 0 := fun hzero => h (UInt64.toNat_inj.1 hzero)
    omega
  refine ext fun j _ => ?_
  rw [dropLowest, bit_and, bit_clear w hlow]
  by_cases hj : w.lowest ≤ j
  · have hsub : (w - 1).bit j = (w.bit j && decide (j ≠ w.lowest)) := by
      change (w - 1).toNat.testBit j = _
      rw [UInt64.toNat_sub_of_le _ _ hone, UInt64.toNat_one]
      exact testBit_sub_one hbit hbelow hj
    rw [hsub, Bool.and_self_left]
  · rw [hbelow j (by omega), Bool.false_and, Bool.false_and]

/-! ## Counting -/

theorem count_le (w : Word) : w.count ≤ 64 :=
  Nat.le_trans List.countP_le_length (by simp)

theorem count_mono {v w : Word} (h : ∀ i, v.bit i = true → w.bit i = true) : v.count ≤ w.count :=
  List.countP_mono_left fun i _ => h i

/-- A list has more members of a larger class if one of them is new. -/
private theorem countP_lt_countP {p q : Nat → Bool} (h : ∀ i, p i = true → q i = true) {a : Nat}
    (hp : p a = false) (hq : q a = true) {l : List Nat} (ha : a ∈ l) : l.countP p < l.countP q := by
  induction l with
  | nil => cases ha
  | cons b l ih =>
    rw [List.countP_cons, List.countP_cons]
    rcases List.mem_cons.1 ha with rfl | hl
    · have := List.countP_mono_left (l := l) (p := p) (q := q) fun i _ => h i
      simp only [hp, hq]
      simp
      omega
    · have := ih hl
      have hb := h b
      cases hpb : p b <;> cases hqb : q b <;> simp_all
      omega

/-- Of two words, one of whose positions are among the other's, the smaller one has fewer. -/
theorem count_lt_count {v w : Word} (h : ∀ i, v.bit i = true → w.bit i = true) (hne : v ≠ w) :
    v.count < w.count := by
  have ⟨a, ha, hva, hwa⟩ : ∃ a, a < 64 ∧ v.bit a = false ∧ w.bit a = true := by
    apply Classical.byContradiction
    intro hall
    refine hne (ext fun i hi => ?_)
    have := h i
    grind
  exact countP_lt_countP h hva hwa (List.mem_range.2 ha)

/-- Taking one position out of a word leaves one fewer. -/
theorem count_clear {w : Word} {i : Nat} (h : w.bit i = true) :
    (w.clear i).count + 1 = w.count := by
  have hi : i < 64 := by
    apply Classical.byContradiction
    intro hi
    rw [bit_eq_false_of_le w (by omega)] at h
    cases h
  have hsplit : ∀ l : List Nat, l.Nodup →
      l.countP (w.clear i).bit + (if i ∈ l then 1 else 0) = l.countP w.bit := by
    intro l hl
    induction l with
    | nil => rfl
    | cons b l ih =>
      rw [List.nodup_cons] at hl
      have := ih hl.2
      rw [List.countP_cons, List.countP_cons, bit_clear w hi]
      by_cases hb : b = i
      · subst hb
        simp [h, hl.1] at this ⊢
        omega
      · have hb' : i ≠ b := fun h => hb h.symm
        simp only [List.mem_cons, hb', false_or, decide_not, hb, decide_false, Bool.not_false,
          Bool.and_true]
        omega
  have := hsplit (List.range 64) List.nodup_range
  simpa [count, List.mem_range.2 hi, hi] using this

end Word

end BranchingTime
