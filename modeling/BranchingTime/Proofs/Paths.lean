import BranchingTime.Formula.Basic
import Mathlib.Data.Nat.Find
import Mathlib.Logic.Function.Iterate
import Mathlib.Tactic.Choose
import Mathlib.Tactic.Push

set_option autoImplicit false

/-! # Paths, and what is said along them

A path along a relation is a sequence of points, of which the first `n` steps (`FinitePath`) or all
steps (`InfinitePath`) are steps of the relation. `holdsUnary` and `holdsBinary` give every pair of
a path quantifier and a path operator its meaning, for operands that are predicates on points.

`SomeAlways` and `SomeUntil` are the two meanings that a fixpoint iteration can find. The first is
the weakest predicate that goes on with a step (`someAlways_of_closed`), the second the strongest
one closed under steps backwards (`SomeUntil.closed`). Where every finite path goes on for ever,
release, weak until and the universal until are combinations of the two. -/

namespace BranchingTime

variable {α : Type} {R : α → α → Prop} {A B Z : α → Prop} {i j : α} {n : ℕ} {π : ℕ → α}

/-! ## Paths -/

/-- The first `n` steps of the sequence `π` are steps of `R`, from `i` on. -/
structure FinitePath (R : α → α → Prop) (i : α) (n : ℕ) (π : ℕ → α) : Prop where
  start : π 0 = i
  step : ∀ k < n, R (π k) (π (k + 1))

/-- All steps of the sequence `π` are steps of `R`, from `i` on. -/
structure InfinitePath (R : α → α → Prop) (i : α) (π : ℕ → α) : Prop where
  start : π 0 = i
  step : ∀ k, R (π k) (π (k + 1))

/-- The sequence with one more point in front. -/
def putFirst (i : α) (π : ℕ → α) : ℕ → α
  | 0 => i
  | k + 1 => π k

theorem FinitePath.putFirst (h : FinitePath R j n π) (hij : R i j) :
    FinitePath R i (n + 1) (putFirst i π) := by
  refine ⟨rfl, ?_⟩
  intro k hk
  cases k with
  | zero =>
    show R i (π 0)
    rw [h.start]
    exact hij
  | succ k => exact h.step k (by omega)

theorem InfinitePath.putFirst (h : InfinitePath R j π) (hij : R i j) :
    InfinitePath R i (putFirst i π) := by
  refine ⟨rfl, ?_⟩
  intro k
  cases k with
  | zero =>
    show R i (π 0)
    rw [h.start]
    exact hij
  | succ k => exact h.step k

theorem FinitePath.tail (h : FinitePath R i (n + 1) π) :
    FinitePath R (π 1) n (fun k => π (k + 1)) :=
  ⟨rfl, fun k hk => h.step (k + 1) (by omega)⟩

theorem InfinitePath.tail (h : InfinitePath R i π) :
    InfinitePath R (π 1) (fun k => π (k + 1)) :=
  ⟨rfl, fun k => h.step (k + 1)⟩

theorem InfinitePath.finite (h : InfinitePath R i π) (n : ℕ) : FinitePath R i n π :=
  ⟨h.start, fun k _ => h.step k⟩

/-- A predicate that steps keep holds along a whole finite path. -/
theorem FinitePath.all (h : FinitePath R i n π) (hZ : ∀ i j, Z i → R i j → Z j) (hi : Z i) :
    ∀ k ≤ n, Z (π k) := by
  intro k
  induction k with
  | zero =>
    intro _
    rw [h.start]
    exact hi
  | succ k ih =>
    intro hk
    exact hZ _ _ (ih (by omega)) (h.step k (by omega))

/-! ## What holds along one sequence -/

/-- The second predicate holds somewhere, and the first one at all places before. -/
def Until (A B : α → Prop) (π : ℕ → α) : Prop := ∃ k, B (π k) ∧ ∀ j < k, A (π j)

/-- The second predicate holds at every place that none with the first one precedes. -/
def Release (A B : α → Prop) (π : ℕ → α) : Prop := ∀ k, (∀ j < k, ¬ A (π j)) → B (π k)

/-- The first predicate holds until the second one does, or everywhere. -/
def WeakUntil (A B : α → Prop) (π : ℕ → α) : Prop := Until A B π ∨ ∀ k, A (π k)

/-- If the first predicate holds somewhere, the release is over at its first place. -/
theorem release_iff : Release A B π ↔ Until B (fun i => A i ∧ B i) π ∨ ∀ k, B (π k) := by
  constructor
  · intro h
    by_cases hA : ∃ k, A (π k)
    · classical
      -- the first place with `A` has `B` too, and so have all places before
      have hbefore : ∀ j < Nat.find hA, ¬ A (π j) := fun j hj => Nat.find_min hA hj
      refine Or.inl ⟨Nat.find hA, ⟨Nat.find_spec hA, h _ hbefore⟩, ?_⟩
      intro j hj
      exact h j fun l hl => hbefore l (Nat.lt_trans hl hj)
    · exact Or.inr fun k => h k fun j _ hj => hA ⟨j, hj⟩
  · rintro (⟨n, ⟨hA, hB⟩, hbefore⟩ | h) k hk
    · rcases Nat.lt_trichotomy k n with hlt | rfl | hgt
      · exact hbefore k hlt
      · exact hB
      · exact absurd hA (hk n hgt)
    · exact h k

theorem weakUntil_iff_release : WeakUntil A B π ↔ Release B (fun i => A i ∨ B i) π := by
  rw [release_iff]
  constructor
  · rintro (⟨n, hB, hbefore⟩ | h)
    · exact Or.inl ⟨n, ⟨hB, Or.inr hB⟩, fun j hj => Or.inl (hbefore j hj)⟩
    · exact Or.inr fun k => Or.inl (h k)
  · intro h
    by_cases hB : ∃ k, B (π k)
    · classical
      -- up to the first place with `B` only the other alternative is left
      have hbefore : ∀ j < Nat.find hB, ¬ B (π j) := fun j hj => Nat.find_min hB hj
      refine Or.inl ⟨Nat.find hB, Nat.find_spec hB, ?_⟩
      intro j hj
      have hor : A (π j) ∨ B (π j) := by
        rcases h with ⟨n, ⟨hn, _⟩, hn'⟩ | h
        · exact hn' j (Nat.lt_of_lt_of_le hj (Nat.find_min' hB hn))
        · exact h j
      exact hor.resolve_right (hbefore j hj)
    · have hall : ∀ k, A (π k) ∨ B (π k) := by
        rcases h with ⟨n, ⟨hn, _⟩, _⟩ | h
        · exact absurd ⟨n, hn⟩ hB
        · exact h
      exact Or.inr fun k => (hall k).resolve_right fun hk => hB ⟨k, hk⟩

theorem not_until_iff_release : ¬ Until A B π ↔ Release (fun i => ¬ A i) (fun i => ¬ B i) π := by
  simp only [Until, Release, not_exists, not_and, Classical.not_not]
  exact forall_congr' fun k => ⟨fun h hbefore hk => h hk hbefore, fun h hk hbefore => h hbefore hk⟩

/-! ## What holds along some path, or along every path -/

/-- `A` holds at a point one step away. -/
def SomeNext (R : α → α → Prop) (A : α → Prop) (i : α) : Prop := ∃ j, R i j ∧ A j

theorem SomeNext.mono (h : SomeNext R A i) (hAB : ∀ j, A j → B j) : SomeNext R B i := by
  obtain ⟨j, hij, hj⟩ := h
  exact ⟨j, hij, hAB j hj⟩

/-- `A` holds everywhere on an infinite path. -/
def SomeAlways (R : α → α → Prop) (A : α → Prop) (i : α) : Prop :=
  ∃ π, InfinitePath R i π ∧ ∀ k, A (π k)

/-- `B` holds at the end of a finite path, and `A` at all points before. -/
def SomeUntil (R : α → α → Prop) (A B : α → Prop) (i : α) : Prop :=
  ∃ n π, FinitePath R i n π ∧ (∀ k < n, A (π k)) ∧ B (π n)

/-- What a path operator with one operand says. -/
def holdsUnary (R : α → α → Prop) : Quantifier → UnaryPath → (α → Prop) → α → Prop
  | .some, .next, A, i => SomeNext R A i
  | .some, .eventually, A, i => ∃ n π, FinitePath R i n π ∧ A (π n)
  | .some, .always, A, i => SomeAlways R A i
  | .every, .next, A, i => ∀ j, R i j → A j
  | .every, .eventually, A, i => ∀ π, InfinitePath R i π → ∃ k, A (π k)
  | .every, .always, A, i => ∀ n π, FinitePath R i n π → A (π n)

/-- What a path operator with two operands says. -/
def holdsBinary (R : α → α → Prop) :
    Quantifier → BinaryPath → (α → Prop) → (α → Prop) → α → Prop
  | .some, .strongUntil, A, B, i => SomeUntil R A B i
  | .some, .release, A, B, i => ∃ π, InfinitePath R i π ∧ Release A B π
  | .some, .weakUntil, A, B, i => ∃ π, InfinitePath R i π ∧ WeakUntil A B π
  | .every, .strongUntil, A, B, i => ∀ π, InfinitePath R i π → Until A B π
  | .every, .release, A, B, i => ∀ n π, FinitePath R i n π → (∀ k < n, ¬ A (π k)) → B (π n)
  | .every, .weakUntil, A, B, i => ∀ n π, FinitePath R i n π → (∀ k ≤ n, ¬ B (π k)) → A (π n)

/-! ## The meanings that an iteration finds -/

/-- From a predicate that goes on with a step, a path can be followed for ever. -/
theorem someAlways_of_closed (h : ∀ i, Z i → A i ∧ ∃ j, R i j ∧ Z j) (hi : Z i) :
    SomeAlways R A i := by
  have hnext : ∀ s : {i // Z i}, ∃ t : {i // Z i}, R s t := by
    rintro ⟨s, hs⟩
    obtain ⟨-, t, hst, ht⟩ := h s hs
    exact ⟨⟨t, ht⟩, hst⟩
  choose next hnext using hnext
  -- the path is the iteration of the choice, within the subtype where there is always one
  refine ⟨fun k => (next^[k] ⟨i, hi⟩).1, ⟨rfl, ?_⟩, ?_⟩
  · intro k
    rw [Function.iterate_succ_apply']
    exact hnext _
  · intro k
    exact (h _ (next^[k] ⟨i, hi⟩).2).1

theorem someAlways_iff : SomeAlways R A i ↔ A i ∧ ∃ j, R i j ∧ SomeAlways R A j := by
  constructor
  · rintro ⟨π, hπ, hA⟩
    have hi : A i := hπ.start ▸ hA 0
    have hij : R i (π 1) := hπ.start ▸ hπ.step 0
    exact ⟨hi, π 1, hij, _, hπ.tail, fun k => hA (k + 1)⟩
  · rintro ⟨hi, j, hij, π, hπ, hA⟩
    refine ⟨putFirst i π, hπ.putFirst hij, ?_⟩
    intro k
    cases k with
    | zero => exact hi
    | succ k => exact hA k

/-- Whatever `B` implies and steps from `A` lead back to holds where `A` until `B` does. -/
theorem SomeUntil.closed (h : SomeUntil R A B i) (hB : ∀ i, B i → Z i)
    (hA : ∀ i j, A i → R i j → Z j → Z i) : Z i := by
  obtain ⟨n, π, hπ, hbefore, hend⟩ := h
  induction n generalizing i π with
  | zero => exact hπ.start ▸ hB _ hend
  | succ n ih =>
    have htail : Z (π 1) := ih _ hπ.tail (fun k hk => hbefore (k + 1) (by omega)) hend
    have hfirst : Z (π 0) := hA _ _ (hbefore 0 (by omega)) (hπ.step 0 (by omega)) htail
    exact hπ.start ▸ hfirst

theorem someUntil_iff :
    SomeUntil R A B i ↔ B i ∨ A i ∧ ∃ j, R i j ∧ SomeUntil R A B j := by
  constructor
  · rintro ⟨n, π, hπ, hbefore, hend⟩
    cases n with
    | zero => exact Or.inl (hπ.start ▸ hend)
    | succ n =>
      have hA : A i := hπ.start ▸ hbefore 0 (by omega)
      have hR : R i (π 1) := hπ.start ▸ hπ.step 0 (by omega)
      exact Or.inr ⟨hA, π 1, hR, n, _, hπ.tail, fun k hk => hbefore (k + 1) (by omega), hend⟩
  · rintro (hB | ⟨hA, j, hij, n, π, hπ, hbefore, hend⟩)
    · refine ⟨0, fun _ => i, ⟨rfl, ?_⟩, ?_, hB⟩
      · intro k hk
        omega
      · intro k hk
        omega
    · refine ⟨n + 1, putFirst i π, hπ.putFirst hij, ?_, hend⟩
      intro k hk
      cases k with
      | zero => exact hA
      | succ k => exact hbefore k (by omega)

/-! ## The other meanings

Each meaning below is one of the two above, or the negation of one with operands negated. No
assumption is made on the relation: where paths end, the universal meanings speak of the finite or
of the infinite paths, as `holdsUnary` and `holdsBinary` say. -/

theorem someEventually_iff :
    holdsUnary R .some .eventually A i ↔ SomeUntil R (fun _ => True) A i := by
  simp only [holdsUnary, SomeUntil, implies_true, true_and]

theorem everyNext_iff :
    holdsUnary R .every .next A i ↔ ¬ SomeNext R (fun j => ¬ A j) i := by
  simp only [holdsUnary, SomeNext, not_exists, not_and, Classical.not_not]

theorem everyEventually_iff :
    holdsUnary R .every .eventually A i ↔ ¬ SomeAlways R (fun j => ¬ A j) i := by
  simp only [holdsUnary, SomeAlways, not_exists, not_and, not_forall, Classical.not_not]

theorem everyAlways_iff :
    holdsUnary R .every .always A i ↔ ¬ SomeUntil R (fun _ => True) (fun j => ¬ A j) i := by
  simp only [holdsUnary, SomeUntil, implies_true, true_and, not_exists, not_and, Classical.not_not]

theorem everyRelease_iff :
    holdsBinary R .every .release A B i ↔
      ¬ SomeUntil R (fun j => ¬ A j) (fun j => ¬ B j) i := by
  simp only [holdsBinary, SomeUntil, not_exists, not_and, Classical.not_not]

theorem everyWeakUntil_iff :
    holdsBinary R .every .weakUntil A B i ↔
      ¬ SomeUntil R (fun j => ¬ B j) (fun j => ¬ A j ∧ ¬ B j) i := by
  simp only [holdsBinary, SomeUntil, not_exists, not_and, Classical.not_not]
  refine forall_congr' fun n => forall_congr' fun π => forall_congr' fun _ => ?_
  constructor
  · intro h hbefore hA
    by_contra hB
    refine hA (h fun k hk => ?_)
    rcases Nat.lt_or_eq_of_le hk with hlt | rfl
    · exact hbefore k hlt
    · exact hB
  · intro h hall
    by_contra hA
    exact hall n le_rfl (h (fun k hk => hall k (Nat.le_of_lt hk)) hA)

/-! ## Where every path goes on -/

/-- Every finite path from the point can be followed for ever. -/
def GoesOn (R : α → α → Prop) (i : α) : Prop :=
  ∀ n π, FinitePath R i n π → ∃ ρ, InfinitePath R (π n) ρ

/-- If each point of a set closed under steps has a step, then all paths in it go on. -/
theorem goesOn_of_serial (hZ : ∀ i j, Z i → R i j → Z j) (hstep : ∀ i, Z i → ∃ j, R i j)
    (hi : Z i) : GoesOn R i := by
  intro n π hπ
  have hn : Z (π n) := hπ.all hZ hi n le_rfl
  have hall : SomeAlways R Z (π n) := by
    refine someAlways_of_closed ?_ hn
    intro s hs
    refine ⟨hs, ?_⟩
    obtain ⟨t, hst⟩ := hstep s hs
    exact ⟨t, hst, hZ s t hs hst⟩
  exact ⟨hall.choose, hall.choose_spec.1⟩

/-- A finite path that goes on is the beginning of an infinite one. -/
theorem FinitePath.extend (h : FinitePath R i n π) {ρ : ℕ → α} (hρ : InfinitePath R (π n) ρ) :
    ∃ σ, InfinitePath R i σ ∧ ∀ k ≤ n, σ k = π k := by
  refine ⟨fun k => if k ≤ n then π k else ρ (k - n), ⟨?_, ?_⟩, fun k hk => if_pos hk⟩
  · rw [if_pos (Nat.zero_le n)]
    exact h.start
  · intro k
    -- the one step that leads from the finite path into the infinite one is the first of the latter
    rcases Nat.lt_trichotomy k n with hlt | rfl | hgt
    · rw [if_pos (by omega), if_pos (by omega)]
      exact h.step k hlt
    · have hfirst : R (ρ 0) (ρ 1) := hρ.step 0
      rw [if_pos le_rfl, if_neg (by omega), Nat.add_sub_cancel_left, ← hρ.start]
      exact hfirst
    · rw [if_neg (by omega), if_neg (by omega), show k + 1 - n = k - n + 1 by omega]
      exact hρ.step (k - n)

/-- Where paths go on, the end of a finite path is a place on an infinite one. -/
theorem someUntil_iff_until (hgo : GoesOn R i) :
    SomeUntil R A B i ↔ ∃ π, InfinitePath R i π ∧ Until A B π := by
  constructor
  · rintro ⟨n, π, hπ, hbefore, hend⟩
    obtain ⟨ρ, hρ⟩ := hgo n π hπ
    obtain ⟨σ, hσ, hsame⟩ := hπ.extend hρ
    refine ⟨σ, hσ, n, hsame n le_rfl ▸ hend, ?_⟩
    intro j hj
    rw [hsame j (by omega)]
    exact hbefore j hj
  · rintro ⟨π, hπ, n, hend, hbefore⟩
    exact ⟨n, π, hπ.finite n, hbefore, hend⟩

theorem someRelease_iff (hgo : GoesOn R i) :
    holdsBinary R .some .release A B i ↔
      SomeUntil R B (fun j => A j ∧ B j) i ∨ SomeAlways R B i := by
  rw [someUntil_iff_until hgo]
  simp only [holdsBinary, SomeAlways, release_iff, and_or_left, exists_or]

theorem someWeakUntil_iff (hgo : GoesOn R i) :
    holdsBinary R .some .weakUntil A B i ↔
      SomeUntil R (fun j => A j ∨ B j) B i ∨ SomeAlways R (fun j => A j ∨ B j) i := by
  have hmeet : ∀ j, B j ∧ (A j ∨ B j) ↔ B j := fun j => and_iff_left_of_imp Or.inr
  have hrelease := someRelease_iff (A := B) (B := fun j => A j ∨ B j) hgo
  simp only [hmeet] at hrelease
  rw [← hrelease]
  simp only [holdsBinary, weakUntil_iff_release]

theorem everyUntil_iff (hgo : GoesOn R i) :
    holdsBinary R .every .strongUntil A B i ↔
      ¬ SomeUntil R (fun j => ¬ B j) (fun j => ¬ A j ∧ ¬ B j) i ∧
        ¬ SomeAlways R (fun j => ¬ B j) i := by
  rw [← not_or, ← someRelease_iff (A := fun j => ¬ A j) hgo]
  simp only [holdsBinary, ← not_until_iff_release]
  push Not
  rfl

end BranchingTime
