import Mathlib.Algebra.GroupWithZero.Nat
import Mathlib.Data.List.Infix
import Mathlib.Tactic.Common

set_option autoImplicit false

/-! # How often a text occurs in another

The occurrences of a text are the places where it begins, and `occurrences` counts them. A text
within one line occurs in a row of lines as often as in the lines one by one
(`occurrences_flatMap`), and a text that begins with a run of digits, say, begins a place only if
the place has the same run (`run_prefix_run_iff`). -/

namespace BranchingTime

variable {α : Type} {c d : Char} {p x y : List Char}

/-- What holds of no text, and of two texts put together, holds of any row of texts. -/
theorem flatMap_induction {P : List Char → Prop} (hnil : P [])
    (happend : ∀ {x y}, P x → P y → P (x ++ y)) {f : α → List Char} {l : List α}
    (h : ∀ a ∈ l, P (f a)) : P (l.flatMap f) := by
  induction l with
  | nil => exact hnil
  | cons a l ih =>
    rw [List.flatMap_cons]
    exact happend (h a List.mem_cons_self) (ih fun b hb => h b (List.mem_cons_of_mem a hb))

/-! ## Prefixes -/

/-- A text is not gone on with past a character that it does not have. -/
theorem prefix_append_cons_iff (hd : d ∉ p) : p <+: x ++ d :: y ↔ p <+: x := by
  induction p generalizing x with
  | nil => simp
  | cons a p ih =>
    obtain ⟨hda, hdp⟩ : d ≠ a ∧ d ∉ p := by simpa using hd
    cases x with
    | nil => simp [hda.symm]
    | cons b x => simp [List.cons_prefix_cons, ih hdp]

/-- Runs of one sort of characters are compared as wholes, if neither is gone on with. -/
theorem run_prefix_run_iff {P : Char → Prop} {run run' : List Char} (hrun : ∀ e ∈ run, P e)
    (hrun' : ∀ e ∈ run', P e) (hc : ¬P c) (hd : ¬P d) :
    run ++ c :: x <+: run' ++ d :: y ↔ run = run' ∧ c :: x <+: d :: y := by
  induction run generalizing run' with
  | nil =>
    cases run' with
    | nil => simp
    | cons b run' =>
      have hcb : c ≠ b := by
        rintro rfl
        exact hc (hrun' c List.mem_cons_self)
      simp [List.cons_prefix_cons, hcb]
  | cons a run ih =>
    have ha : P a := hrun a List.mem_cons_self
    cases run' with
    | nil =>
      have had : a ≠ d := by
        rintro rfl
        exact hd ha
      simp [List.cons_prefix_cons, had]
    | cons b run' =>
      have hrest := ih (fun e he => hrun e (List.mem_cons_of_mem a he))
        (fun e he => hrun' e (List.mem_cons_of_mem b he))
      simp [List.cons_prefix_cons, hrest, and_assoc]

/-! ## Counting -/

/-- The number of places of `x` where `p` begins. -/
def occurrences (p x : List Char) : Nat := x.tails.countP (p.isPrefixOf ·)

theorem occurrences_nil (hp : p ≠ []) : occurrences p [] = 0 := by
  simp [occurrences, hp]

theorem occurrences_cons (p : List Char) (c : Char) (x : List Char) :
    occurrences p (c :: x) = occurrences p x + if p <+: c :: x then 1 else 0 := by
  simp only [occurrences, List.tails_cons, List.countP_cons, List.isPrefixOf_iff_prefix]

/-- A text with a character that the other one lacks does not occur in it. -/
theorem occurrences_eq_zero (hp : d ∈ p) (hx : d ∉ x) : occurrences p x = 0 := by
  rw [occurrences, List.countP_eq_zero]
  intro y hy hprefix
  have hsub : p <+: y := List.isPrefixOf_iff_prefix.1 hprefix
  exact hx (((List.mem_tails y x).1 hy).subset (hsub.subset hp))

/-- A text does not begin where its first character is missing. -/
theorem occurrences_append_of_not_mem (hx : c ∉ x) (p y : List Char) :
    occurrences (c :: p) (x ++ y) = occurrences (c :: p) y := by
  induction x with
  | nil => rfl
  | cons b x ih =>
    obtain ⟨hcb, hcx⟩ : c ≠ b ∧ c ∉ x := by simpa using hx
    have hnot : ¬c :: p <+: b :: (x ++ y) := by simp [List.cons_prefix_cons, hcb]
    rw [List.cons_append, occurrences_cons, ih hcx, if_neg hnot, Nat.add_zero]

/-! ## Lines -/

/-- Whole lines: nothing, or a text that ends with a line break. -/
def IsLines (x : List Char) : Prop := x = [] ∨ ∃ y, x = y ++ ['\n']

theorem isLines_nil : IsLines [] := Or.inl rfl

theorem isLines_append_of_getLast? (x : List Char) (hy : y.getLast? = some '\n') :
    IsLines (x ++ y) := by
  refine Or.inr (List.getLast?_eq_some_iff.1 ?_)
  rw [List.getLast?_append, hy, Option.some_or]

theorem IsLines.append (hx : IsLines x) (hy : IsLines y) : IsLines (x ++ y) := by
  rcases hy with rfl | ⟨z, rfl⟩
  · simpa using hx
  · exact Or.inr ⟨x ++ z, (List.append_assoc x z _).symm⟩

theorem isLines_flatMap {f : α → List Char} {l : List α} (h : ∀ a ∈ l, IsLines (f a)) :
    IsLines (l.flatMap f) :=
  flatMap_induction isLines_nil IsLines.append h

theorem occurrences_append_newline (hp : p ≠ []) (hline : '\n' ∉ p) :
    occurrences p (x ++ '\n' :: y) = occurrences p x + occurrences p y := by
  induction x with
  | nil =>
    have hnot : ¬p <+: '\n' :: y := by
      intro h
      have hnil : p <+: [] := (prefix_append_cons_iff hline).1 h
      exact hp (List.prefix_nil.1 hnil)
    rw [List.nil_append, occurrences_cons, if_neg hnot, occurrences_nil hp]
    omega
  | cons c x ih =>
    have hiff : p <+: c :: (x ++ '\n' :: y) ↔ p <+: c :: x :=
      prefix_append_cons_iff (x := c :: x) hline
    rw [List.cons_append, occurrences_cons, occurrences_cons, ih]
    simp only [hiff]
    omega

/-- A text within one line occurs on both sides of a line's end, and not across it. -/
theorem occurrences_append (hp : p ≠ []) (hline : '\n' ∉ p) (hx : IsLines x) (y : List Char) :
    occurrences p (x ++ y) = occurrences p x + occurrences p y := by
  rcases hx with rfl | ⟨z, rfl⟩
  · rw [List.nil_append, occurrences_nil hp, Nat.zero_add]
  · have hend : occurrences p (z ++ ['\n']) = occurrences p z := by
      rw [occurrences_append_newline hp hline, occurrences_nil hp, Nat.add_zero]
    rw [hend, List.append_assoc, List.singleton_append, occurrences_append_newline hp hline]

theorem occurrences_flatMap (hp : p ≠ []) (hline : '\n' ∉ p) {f : α → List Char} {l : List α}
    (h : ∀ a ∈ l, IsLines (f a)) :
    occurrences p (l.flatMap f) = (l.map fun a => occurrences p (f a)).sum := by
  induction l with
  | nil => exact occurrences_nil hp
  | cons a l ih =>
    rw [List.flatMap_cons, occurrences_append hp hline (h a List.mem_cons_self),
      ih fun b hb => h b (List.mem_cons_of_mem a hb), List.map_cons, List.sum_cons]

end BranchingTime
