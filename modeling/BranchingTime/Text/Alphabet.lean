set_option autoImplicit false

/-! # Character classes of formula text

Three classes decide how a formula text falls apart. Blanks separate and mean nothing. A name is a
run of name characters: the ASCII letters and digits, the underscore, and the characters of two
ranges of Latin and Greek letters. Eight of these letters are reserved, as they denote the path
quantifiers and the path operators. -/

namespace BranchingTime

/-- The characters with the Unicode property `White_Space`, and the byte order mark. -/
def isBlank (c : Char) : Bool :=
  let n := c.toNat
  (0x09 ≤ n && n ≤ 0x0D) || n == 0x20 || n == 0x85 || n == 0xA0 || n == 0x1680 ||
    (0x2000 ≤ n && n ≤ 0x200A) || n == 0x2028 || n == 0x2029 || n == 0x202F || n == 0x205F ||
    n == 0x3000 || n == 0xFEFF

/-- The ASCII letters and digits, the underscore, the letters from `À` to `ÿ`, and the range from
    `Α` to `ω`. The signs `×` and `÷` stand between letters but are none. -/
def isNameChar (c : Char) : Bool :=
  let n := c.toNat
  c.isAlphanum || c == '_' ||
    (0xC0 ≤ n && n ≤ 0xFF && n != 0xD7 && n != 0xF7) || (0x391 ≤ n && n ≤ 0x3C9)

/-- The letters of the path quantifiers `A` and `E` and of the path operators
    `F`, `G`, `X`, `U`, `R` and `W`. -/
def isReserved (c : Char) : Bool :=
  c == 'F' || c == 'A' || c == 'U' || c == 'X' || c == 'G' || c == 'R' || c == 'E' || c == 'W'

/-- Reserved letters are name characters. -/
theorem isNameChar_of_isReserved {c : Char} (h : isReserved c = true) : isNameChar c = true := by
  simp only [isReserved, Bool.or_eq_true, beq_iff_eq] at h
  rcases h with ((((((rfl | rfl) | rfl) | rfl) | rfl) | rfl) | rfl) | rfl <;> rfl

/-- No blank is a name character, so a name ends where a blank stands. -/
theorem isNameChar_eq_false_of_isBlank {c : Char} (h : isBlank c = true) :
    isNameChar c = false := by
  have toNat_beq : ∀ d : Char, (c == d) = decide (c.toNat = d.toNat) := by
    intro d
    rw [Bool.eq_iff_iff]
    simp [← Char.toNat_inj]
  have val_eq : c.val.toNat = c.toNat := rfl
  have isAlpha_eq : c.isAlpha = (c.isUpper || c.isLower) := rfl
  have isUpper_eq : c.isUpper = decide (c.val ≥ 'A'.val ∧ c.val ≤ 'Z'.val) := rfl
  have isLower_eq : c.isLower = (decide (c.val ≥ 'a'.val) && decide (c.val ≤ 'z'.val)) := rfl
  simp only [isBlank, isNameChar, Char.isAlphanum, isAlpha_eq, isUpper_eq, isLower_eq,
    Char.isDigit, Bool.or_eq_true, Bool.and_eq_true, decide_eq_true_eq, beq_iff_eq, toNat_beq,
    Char.reduceToNat, Char.reduceVal, UInt32.reduceToNat, UInt32.le_iff_toNat_le, ge_iff_le,
    val_eq] at h ⊢
  simp only [Bool.or_eq_false_iff, Bool.and_eq_false_iff, decide_eq_false_iff_not,
    bne_eq_false_iff_eq]
  omega

end BranchingTime
