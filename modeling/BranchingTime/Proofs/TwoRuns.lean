import BranchingTime.Proofs.Outcomes
import Mathlib.Logic.Relator

set_option autoImplicit false

/-! # Computations that run alike

Two counting computations are `Alike` if they count equally many steps and come to the same end:
both give a result, and a relation connects the results, or both fail with one error. Computations
composed of parts that run alike run alike, whatever the parts give as long as it is related.

So do two repetitions, if related sets are taken to related ones. They stop together, as the
relation never connects a set with two others: one step leaves its set as it is exactly if the other
does (`untilStable_alike`). -/

namespace BranchingTime

variable {α β γ δ : Type} {R : α → β → Prop} {S : γ → δ → Prop}

/-- Both computations give a result, and `R` connects the results. -/
def BothGive {ε : Type} (R : α → β → Prop) (x : Except ε α) (y : Except ε β) : Prop :=
  ∃ a b, x = .ok a ∧ y = .ok b ∧ R a b

theorem BothGive.bind {ε : Type} {x : Except ε α} {y : Except ε β} {f : α → Except ε γ}
    {g : β → Except ε δ} (h : BothGive R x y) (hfg : ∀ a b, R a b → BothGive S (f a) (g b)) :
    BothGive S (x >>= f) (y >>= g) := by
  obtain ⟨a, b, rfl, rfl, hab⟩ := h
  exact hfg a b hab

namespace CheckM

variable {x : CheckM α} {y : CheckM β} {f : α → CheckM γ} {g : β → CheckM δ} {a : α} {b : β}
  {e : Error} {k : Nat}

/-- Two computations have ended in results that `R` connects, or in one error. -/
inductive SameEnd (R : α → β → Prop) : Except Error α → Except Error β → Prop
  | ok {a : α} {b : β} (h : R a b) : SameEnd R (.ok a) (.ok b)
  | error (e : Error) : SameEnd R (.error e) (.error e)

/-- The computations come to the same end in the same number of steps. -/
def Alike (R : α → β → Prop) (x : CheckM α) (y : CheckM β) : Prop :=
  ∃ r r' k, x.Yields r k ∧ y.Yields r' k ∧ SameEnd R r r'

theorem alike_pure (h : R a b) : Alike R (pure a) (pure b) :=
  ⟨_, _, 0, yields_pure a, yields_pure b, .ok h⟩

theorem alike_throw (R : α → β → Prop) (e : Error) : Alike R (throw e) (throw e) :=
  ⟨_, _, 0, fun _ => rfl, fun _ => rfl, .error e⟩

theorem alike_permit {v : Except Misuse α} {w : Except Misuse β} (h : BothGive R v w) :
    Alike R (permit v) (permit w) := by
  obtain ⟨a, b, rfl, rfl, hab⟩ := h
  exact alike_pure hab

theorem Alike.mono {R' : α → β → Prop} (h : Alike R x y) (hRR' : ∀ a b, R a b → R' a b) :
    Alike R' x y := by
  obtain ⟨r, r', k, hx, hy, hend⟩ := h
  refine ⟨r, r', k, hx, hy, ?_⟩
  cases hend with
  | ok hab => exact .ok (hRR' _ _ hab)
  | error e => exact .error e

/-- Computations that end in equal results are equal. -/
theorem Alike.eq {x y : CheckM α} (h : Alike Eq x y) : x = y := by
  obtain ⟨r, r', k, hx, hy, hend⟩ := h
  obtain rfl : r = r' := by
    cases hend with
    | ok hab => rw [hab]
    | error e => rfl
  funext n
  exact (hx n).trans (hy n).symm

theorem Alike.bind (h : Alike R x y) (hfg : ∀ a b, R a b → Alike S (f a) (g b)) :
    Alike S (x >>= f) (y >>= g) := by
  obtain ⟨_, _, k, hx, hy, hend⟩ := h
  cases hend with
  | ok hab =>
    obtain ⟨r, r', l, hf, hg, hend'⟩ := hfg _ _ hab
    exact ⟨r, r', k + l, hx.bind hf, hy.bind hg, hend'⟩
  | error e => exact ⟨_, _, k, hx.bind_of_error, hy.bind_of_error, .error e⟩

end CheckM

/-! ## Repetition -/

open CheckM (Alike alike_pure)

theorem untilStable_alike {step step' : BitSet → Except Misuse BitSet} {rank rank' : BitSet → Nat}
    {descends : ∀ y z, step y = .ok z → z ≠ y → rank z < rank y}
    {descends' : ∀ y z, step' y = .ok z → z ≠ y → rank' z < rank' y}
    {R : BitSet → BitSet → Prop} {y y' : BitSet} (hR : Relator.BiUnique R)
    (hstep : ∀ y y', R y y' → BothGive R (step y) (step' y')) (hy : R y y') :
    Alike R (untilStable step rank descends y) (untilStable step' rank' descends' y') := by
  induction hrank : rank y using Nat.strongRecOn generalizing y y' with
  | ind r ih =>
    obtain ⟨z, z', hz, hz', hzz'⟩ := hstep y y' hy
    by_cases hsame : z = y
    · subst hsame
      obtain rfl : z' = y' := hR.2 hzz' hy
      rw [untilStable_of_eq hz, untilStable_of_eq hz']
      exact alike_pure hy
    · have hsame' : z' ≠ y' := by
        rintro rfl
        exact hsame (hR.1 hzz' hy)
      have hrest := ih (rank z) (hrank ▸ descends y z hz hsame) hzz' rfl
      rw [untilStable_of_ne hz hsame, untilStable_of_ne hz' hsame']
      have htick : Alike (fun _ _ => True) CheckM.tick CheckM.tick :=
        ⟨_, _, 1, CheckM.yields_tick, CheckM.yields_tick, .ok trivial⟩
      exact htick.bind fun _ _ _ => hrest

end BranchingTime
