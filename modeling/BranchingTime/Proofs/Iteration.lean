import BranchingTime.Kripke.Fixpoint

set_option autoImplicit false

/-! # What counting computations give

A computation that counts `Yields` a result in a number of steps if it gives the result and raises
the count by the number, whatever the count was before. What a composed computation yields follows
from what its parts yield. A repetition keeps every property that its step keeps, and it ends with a
set that the step leaves as it is. The steps counted are the rounds it has taken to get there, each
of which has changed the set and lowered its rank (`untilStable_yields`). -/

namespace BranchingTime

/-! ## Results and steps -/

namespace CheckM

variable {α β : Type} {x : CheckM α} {f : α → CheckM β} {a : α} {r : Except Error β} {k l : Nat}

/-- The computation gives `r` and counts `k` steps. -/
def Yields (x : CheckM α) (r : Except Error α) (k : Nat) : Prop := ∀ n, x.exec n = (r, n + k)

theorem yields_pure (a : α) : Yields (pure a) (.ok a) 0 := fun _ => rfl

theorem yields_tick : Yields tick (.ok ()) 1 := fun _ => rfl

theorem yields_permit (a : α) : Yields (permit (.ok a)) (.ok a) 0 := fun _ => rfl

theorem exec_bind_of_ok {n m : Nat} (h : x.exec n = (.ok a, m)) :
    exec (x >>= f) n = exec (f a) m := by
  have hx : x n = (.ok a, m) := h
  show ExceptT.bindCont f (x n).1 (x n).2 = _
  rw [hx]
  rfl

theorem Yields.bind (hx : Yields x (.ok a) k) (hf : Yields (f a) r l) :
    Yields (x >>= f) r (k + l) := by
  intro n
  rw [exec_bind_of_ok (hx n), hf, Nat.add_assoc]

/-- What is made of the value without further steps counts what the value counts. -/
theorem Yields.andThen (hx : Yields x (.ok a) k) (hf : Yields (f a) r 0) :
    Yields (x >>= f) r k :=
  hx.bind hf

end CheckM

/-! ## Repetition -/

/-- The set that `k` rounds of the step make of `y`. -/
def rounds (step : BitSet → Except Misuse BitSet) : Nat → BitSet → Except Misuse BitSet
  | 0, y => .ok y
  | k + 1, y => step y >>= rounds step k

/-- In `k` rounds, each of which changes the set and lowers its rank, the step leads from `y` to
    `z`, and it leaves `z` as it is. -/
structure SettlesIn (step : BitSet → Except Misuse BitSet) (rank : BitSet → Nat) (k : Nat)
    (y z : BitSet) : Prop where
  changes : ∀ i < k, rounds step (i + 1) y ≠ rounds step i y
  rounds : rounds step k y = .ok z
  fixed : step z = .ok z
  rank_add_le : rank z + k ≤ rank y

section

variable {step : BitSet → Except Misuse BitSet} {rank : BitSet → Nat} {k : Nat} {y z w : BitSet}

theorem rounds_succ (hz : step y = .ok z) : rounds step (k + 1) y = rounds step k z := by
  rw [rounds, hz]
  rfl

theorem SettlesIn.refl (hy : step y = .ok y) : SettlesIn step rank 0 y y :=
  ⟨fun _ hi => absurd hi (Nat.not_lt_zero _), rfl, hy, Nat.le_refl _⟩

theorem SettlesIn.head (hz : step y = .ok z) (hlt : rank z < rank y)
    (h : SettlesIn step rank k z w) : SettlesIn step rank (k + 1) y w := by
  refine ⟨?_, (rounds_succ hz).trans h.rounds, h.fixed, ?_⟩
  · intro i hi
    rw [rounds_succ hz]
    cases i with
    | zero =>
      intro hsame
      obtain rfl : z = y := Except.ok.inj hsame
      exact Nat.lt_irrefl _ hlt
    | succ i =>
      rw [rounds_succ hz]
      exact h.changes i (Nat.lt_of_succ_lt_succ hi)
  · have := h.rank_add_le
    omega

end

/-- If a step succeeds on every set with a property and keeps the property, so does the repetition
    of the step, and the step settles on the set that comes out in the rounds that are counted. -/
theorem untilStable_yields {step : BitSet → Except Misuse BitSet} {rank : BitSet → Nat}
    {descends : ∀ y z, step y = .ok z → z ≠ y → rank z < rank y} {Inv : BitSet → Prop}
    (hstep : ∀ y, Inv y → ∃ z, step y = .ok z ∧ Inv z) {y : BitSet} (hy : Inv y) :
    ∃ z k, (untilStable step rank descends y).Yields (.ok z) k ∧ Inv z ∧
      SettlesIn step rank k y z := by
  -- every change lowers the rank, so the induction is on a bound of it
  induction hrank : rank y using Nat.strongRecOn generalizing y with
  | ind r ih =>
    obtain ⟨z, hz, hInv⟩ := hstep y hy
    by_cases hsame : z = y
    · subst hsame
      exact ⟨z, 0, untilStable_of_eq hz ▸ CheckM.yields_pure z, hInv, .refl hz⟩
    · have hlt : rank z < rank y := descends y z hz hsame
      obtain ⟨w, k, hw, hInvw, hsettles⟩ := ih (rank z) (hrank ▸ hlt) hInv rfl
      refine ⟨w, k + 1, ?_, hInvw, hsettles.head hz hlt⟩
      rw [untilStable_of_ne hz hsame, Nat.add_comm]
      exact CheckM.yields_tick.bind hw

end BranchingTime
