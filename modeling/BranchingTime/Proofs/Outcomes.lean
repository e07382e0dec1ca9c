import BranchingTime.Proofs.Attempts
import BranchingTime.Proofs.Iteration
import Mathlib.Logic.Relation

set_option autoImplicit false

/-! # What counting computations can end in

A computation `Gives` a result if it ends in it for some count before, and it fails within a class
of errors if it ends in no other one, whatever the count. What holds of a composed computation
follows from its parts. The set that a repetition gives has been reached by the step from the first
one, and if a repetition fails, the step has failed on a set so reached. -/

namespace BranchingTime

namespace CheckM

variable {α β : Type} {x : CheckM α} {f : α → CheckM β} {a a' : α} {b : β} {e : Error}
  {y : Except Misuse α} {P Q : Error → Prop} {n : Nat}

/-- The computation ends in `a` for some count before it. -/
def Gives (x : CheckM α) (a : α) : Prop := ∃ n, (x.exec n).1 = .ok a

/-- The computation fails within the class, whatever the count before it. -/
def ErrsWithin (P : Error → Prop) (x : CheckM α) : Prop := ∀ n, FailsWithin P (x.exec n).1

/-! ## One computation -/

theorem eq_of_gives_pure (h : Gives (pure a) a') : a' = a := by
  obtain ⟨n, h⟩ := h
  exact (Except.ok.inj h).symm

theorem eq_of_gives_permit (h : Gives (permit y) a) : y = .ok a := by
  obtain ⟨n, h⟩ := h
  cases y with
  | ok a' => exact congrArg _ (Except.ok.inj h)
  | error e => cases h

theorem not_gives_throw : ¬ Gives (throw e) a := by
  rintro ⟨n, h⟩
  cases h

theorem errsWithin_pure (P : Error → Prop) (a : α) : ErrsWithin P (pure a) := by
  intro n e h
  cases h

theorem errsWithin_throw (h : P e) : ErrsWithin P (throw e : CheckM α) := by
  intro n e' h'
  cases h'
  exact h

theorem errsWithin_permit (h : ∀ e, y = .error e → P (.misuse e)) :
    ErrsWithin P (permit y) := by
  cases y with
  | ok a => exact errsWithin_pure P a
  | error e => exact errsWithin_throw (h e rfl)

theorem ErrsWithin.mono (hx : ErrsWithin P x) (h : ∀ e, P e → Q e) : ErrsWithin Q x := by
  intro n e he
  exact h e (hx n e he)

/-! ## One after the other -/

theorem exec_bind_of_error {m : Nat} (h : x.exec n = (.error e, m)) :
    exec (x >>= f) n = (.error e, m) := by
  have hx : x n = (.error e, m) := h
  show ExceptT.bindCont f (x n).1 (x n).2 = _
  rw [hx]
  rfl

theorem Yields.bind_of_error {k : Nat} (hx : x.Yields (.error e) k) :
    (x >>= f).Yields (.error e) k :=
  fun _ => exec_bind_of_error (hx _)

theorem exists_of_gives_bind (h : Gives (x >>= f) b) : ∃ a, x.Gives a ∧ (f a).Gives b := by
  obtain ⟨n, h⟩ := h
  rcases hx : x.exec n with ⟨a | a, m⟩
  · simp [exec_bind_of_error hx] at h
  · rw [exec_bind_of_ok hx] at h
    exact ⟨a, ⟨n, by rw [hx]⟩, m, h⟩

theorem ErrsWithin.bind (hx : ErrsWithin P x) (hf : ∀ a, x.Gives a → ErrsWithin P (f a)) :
    ErrsWithin P (x >>= f) := by
  intro n e h
  rcases hn : x.exec n with ⟨e' | a, m⟩
  · rw [exec_bind_of_error hn] at h
    cases h
    exact hx n e (by rw [hn])
  · rw [exec_bind_of_ok hn] at h
    exact hf a ⟨n, by rw [hn]⟩ m e h

end CheckM

/-! ## Repetition -/

open CheckM (Gives ErrsWithin)

/-- The step leads from `y` to `z` when it is repeated. -/
def Leads (step : BitSet → Except Misuse BitSet) : BitSet → BitSet → Prop :=
  Relation.ReflTransGen fun y z => step y = .ok z

section

variable {step : BitSet → Except Misuse BitSet} {rank : BitSet → Nat}
  {descends : ∀ y z, step y = .ok z → z ≠ y → rank z < rank y} {y z : BitSet}
  {P : Error → Prop}

theorem leads_of_gives (h : (untilStable step rank descends y).Gives z) : Leads step y z := by
  induction hrank : rank y using Nat.strongRecOn generalizing y with
  | ind r ih =>
    cases hstep : step y with
    | error e =>
      rw [untilStable_of_error hstep] at h
      obtain ⟨n, h⟩ := h
      cases h
    | ok w =>
      by_cases hsame : w = y
      · subst hsame
        rw [untilStable_of_eq hstep] at h
        exact CheckM.eq_of_gives_pure h ▸ .refl
      · rw [untilStable_of_ne hstep hsame] at h
        obtain ⟨-, -, h⟩ := CheckM.exists_of_gives_bind h
        exact .head hstep (ih _ (hrank ▸ descends y w hstep hsame) h rfl)

theorem errsWithin_untilStable
    (h : ∀ z e, Leads step y z → step z = .error e → P (.misuse e)) :
    ErrsWithin P (untilStable step rank descends y) := by
  induction hrank : rank y using Nat.strongRecOn generalizing y with
  | ind r ih =>
    cases hstep : step y with
    | error e =>
      rw [untilStable_of_error hstep]
      exact CheckM.errsWithin_throw (h y e .refl hstep)
    | ok w =>
      by_cases hsame : w = y
      · subst hsame
        rw [untilStable_of_eq hstep]
        exact CheckM.errsWithin_pure P w
      · have hrest := ih _ (hrank ▸ descends y w hstep hsame)
          (fun z e hz => h z e (.head hstep hz)) rfl
        rw [untilStable_of_ne hstep hsame]
        exact ErrsWithin.bind (fun n e h => by cases h) fun _ _ => hrest

end

end BranchingTime
