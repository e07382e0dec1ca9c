import BranchingTime.Proofs.Counting
import BranchingTime.Proofs.Subformulas

set_option autoImplicit false

/-! # Where a formula is refused

A formula is evaluated on a walk through it, on which each subformula is entered before its operands
and left after them (`Formula.visits`). An operator outside the minimal set is refused when it is
entered, so of several it is the first in prefix order that the error names. By then the loops have
run of those subformulas that have been left, and of no others: an operator that encloses the one
refused has been entered but waits for its operand (`Checker.sat_refuses_first`). What each of the
loops has counted are the rounds that have changed its set (`Checker.settlesIn_loopCost_eg`,
`Checker.settlesIn_loopCost_eu`).

That a computation keeps to a walk (`Checker.KeepsTo`) says both: where it stops, and what it has
counted. Computations one after the other keep to the walks one after the other, which leaves one
step for each operator. -/

namespace BranchingTime

open CheckM (yields_pure yields_permit)

/-! ## Walking through a formula -/

/-- What happens to a subformula on the walk through a formula. -/
inductive Visit where
  /-- It is entered, and its operands come next. -/
  | enter (f : Formula)
  /-- It is left, and its operands have been before. -/
  | leave (f : Formula)
deriving DecidableEq, Repr

namespace Visit

/-- The subformula that is entered. -/
def entered? : Visit → Option Formula
  | enter f => some f
  | leave _ => none

/-- The subformula that is left. -/
def left? : Visit → Option Formula
  | enter _ => none
  | leave f => some f

end Visit

namespace Formula

variable {f g : Formula}

/-- The walk through a formula, which goes through the operands from left to right. -/
def visits : Formula → List Visit
  | atom name => [.enter (atom name), .leave (atom name)]
  | truth b => [.enter (truth b), .leave (truth b)]
  | not a => .enter (not a) :: (a.visits ++ [.leave (not a)])
  | connect c a b => .enter (connect c a b) :: (a.visits ++ (b.visits ++ [.leave (connect c a b)]))
  | unary q o a => .enter (unary q o a) :: (a.visits ++ [.leave (unary q o a)])
  | binary q o a b => .enter (binary q o a b) :: (a.visits ++ (b.visits ++ [.leave (binary q o a b)]))

/-- Subformulas are entered in prefix order. -/
theorem filterMap_entered_visits (f : Formula) :
    f.visits.filterMap Visit.entered? = f.subformulas := by
  induction f <;> simp_all [visits, subformulas, Visit.entered?]

theorem mem_subformulas_iff : g ∈ f.subformulas ↔ .enter g ∈ f.visits := by
  rw [← filterMap_entered_visits, List.mem_filterMap]
  constructor
  · rintro ⟨h | h, hvisit, hg⟩
    · cases hg
      exact hvisit
    · cases hg
  · intro hvisit
    exact ⟨_, hvisit, rfl⟩

theorem isNormal_iff_forall_enter :
    f.isNormal = true ↔ ∀ g, .enter g ∈ f.visits → g.isMinimal = true := by
  simp only [isNormal_iff_forall_isMinimal, mem_subformulas_iff]

/-- Where the first operator outside the minimal set is entered, it is the first in prefix order. -/
theorem find?_subformulas {before after : List Visit}
    (hvisits : f.visits = before ++ .enter g :: after)
    (hbefore : ∀ h, .enter h ∈ before → h.isMinimal = true) (hg : g.isMinimal = false) :
    f.subformulas.find? (fun h => !h.isMinimal) = some g := by
  have hsplit : f.subformulas =
      before.filterMap Visit.entered? ++ g :: after.filterMap Visit.entered? := by
    rw [← filterMap_entered_visits, hvisits, List.filterMap_append, List.filterMap_cons]
    rfl
  refine List.find?_eq_some_iff_append.2 ⟨by simp [hg], _, _, hsplit, fun h hh => ?_⟩
  obtain ⟨visit, hvisit, hentered⟩ := List.mem_filterMap.1 hh
  cases visit with
  | enter h' =>
    cases hentered
    simp [hbefore h hvisit]
  | leave h' => cases hentered

end Formula

namespace Checker

variable {ι : Type} [DecidableEq ι] [Hashable ι] {c : Checker ι} {α β : Type} {x : CheckM α}
  {k : α → CheckM β} {a : α} {vs ws : List Visit} {f : Formula}

/-! ## Keeping to a walk -/

/-- The steps that the loop of an operator counts. There are loops for `EG` and `EU`, and they start
    from the sets of the operands. -/
def loopCost (c : Checker ι) : Formula → Nat
  | .eg a =>
    match (c.sat a).result with
    | .ok x => (c.shrink x).cost
    | .error _ => 0
  | .eu a b =>
    match (c.sat a).result, (c.sat b).result with
    | .ok w, .ok y => (c.grow w y).cost
    | _, _ => 0
  | _ => 0

/-- What the loop of `EG` counts is the number of rounds in which it shrinks the set of the
    operand. -/
theorem settlesIn_loopCost_eg {a : Formula} {x : BitSet} (hx : (c.sat a).result = .ok x) :
    ∃ u, SettlesIn c.shrinkStep BitSet.size (c.loopCost (.eg a)) x u ∧
      (c.shrink x).Yields (.ok u) (c.loopCost (.eg a)) := by
  obtain ⟨u, k, hsettles, -, hu⟩ := shrink_settles (bound_of_gives ⟨0, hx⟩)
  have hcost : c.loopCost (.eg a) = k := by rw [loopCost, hx, ← hu.cost_eq]
  rw [hcost]
  exact ⟨u, hsettles, hu⟩

/-- What the loop of `EU` counts is the number of rounds in which it grows the set of the second
    operand. -/
theorem settlesIn_loopCost_eu {a b : Formula} {w y : BitSet} (hw : (c.sat a).result = .ok w)
    (hy : (c.sat b).result = .ok y) :
    ∃ u, SettlesIn (c.growStep w) BitSet.room (c.loopCost (.eu a b)) y u ∧
      (c.grow w y).Yields (.ok u) (c.loopCost (.eu a b)) := by
  obtain ⟨u, k, hsettles, -, hu⟩ := grow_settles (bound_of_gives ⟨0, hw⟩) (bound_of_gives ⟨0, hy⟩)
  have hcost : c.loopCost (.eu a b) = k := by rw [loopCost, hw, hy, ← hu.cost_eq]
  rw [hcost]
  exact ⟨u, hsettles, hu⟩

/-- The steps counted on a part of a walk, by the loops of the subformulas that are left. -/
def walkCost (c : Checker ι) (vs : List Visit) : Nat :=
  ((vs.filterMap Visit.left?).map c.loopCost).sum

theorem walkCost_append (c : Checker ι) (vs ws : List Visit) :
    c.walkCost (vs ++ ws) = c.walkCost vs + c.walkCost ws := by
  simp [walkCost]

theorem walkCost_enter (c : Checker ι) (f : Formula) (vs : List Visit) :
    c.walkCost (.enter f :: vs) = c.walkCost vs := by
  simp [walkCost, List.filterMap_cons, Visit.left?]

theorem walkCost_leave (c : Checker ι) (f : Formula) : c.walkCost [.leave f] = c.loopCost f := by
  simp [walkCost, Visit.left?]

/-- The computation gets to the end of the walk and gives a result, or it stops with an error where
    the first operator outside the minimal set is entered. It counts what is counted on the walk up
    to there. -/
inductive KeepsTo (c : Checker ι) (x : CheckM α) : List Visit → Prop
  | passes {vs : List Visit} {a : α} (hvs : ∀ g, .enter g ∈ vs → g.isMinimal = true)
      (hx : x.Yields (.ok a) (c.walkCost vs)) : KeepsTo c x vs
  | stops {before after : List Visit} {g : Formula}
      (hbefore : ∀ h, .enter h ∈ before → h.isMinimal = true) (hg : g.isMinimal = false)
      (hx : x.Yields (.error (.internal (.notMinimal g.label))) (c.walkCost before)) :
      KeepsTo c x (before ++ .enter g :: after)

theorem KeepsTo.enter (hf : f.isMinimal = true) (hx : c.KeepsTo x vs) :
    c.KeepsTo x (.enter f :: vs) := by
  cases hx with
  | passes hvs hx =>
    rw [← c.walkCost_enter f] at hx
    exact .passes (by simpa [hf] using hvs) hx
  | @stops before after g hbefore hg hx =>
    rw [← c.walkCost_enter f] at hx
    rw [← List.cons_append]
    exact .stops (by simpa [hf] using hbefore) hg hx

theorem keepsTo_leave {k : Nat} (hx : x.Yields (.ok a) k) (hk : c.loopCost f = k) :
    c.KeepsTo x [.leave f] := by
  rw [← hk, ← walkCost_leave] at hx
  exact .passes (by simp) hx

theorem keepsTo_refused (c : Checker ι) (hf : f.isMinimal = false) :
    c.KeepsTo (throw (.internal (.notMinimal f.label)) : CheckM α) f.visits := by
  obtain ⟨after, hvisits⟩ : ∃ after, f.visits = [] ++ .enter f :: after := by
    cases f <;> exact ⟨_, rfl⟩
  rw [hvisits]
  exact .stops (by simp) hf fun _ => rfl

theorem KeepsTo.bind (hx : c.KeepsTo x vs)
    (hk : ∀ a, x.result = .ok a → c.KeepsTo (k a) ws) : c.KeepsTo (x >>= k) (vs ++ ws) := by
  cases hx with
  | @passes _ a hvs hx =>
    cases hk a hx.result_eq with
    | @passes _ b hws hy =>
      refine .passes (a := b) (fun g hg => (List.mem_append.1 hg).elim (hvs g) (hws g)) ?_
      rw [walkCost_append]
      exact hx.bind hy
    | @stops before after g hbefore hg hy =>
      rw [← List.append_assoc]
      refine .stops (fun h hh => (List.mem_append.1 hh).elim (hvs h) (hbefore h)) hg ?_
      rw [walkCost_append]
      exact hx.bind hy
  | @stops before after g hbefore hg hx =>
    rw [List.append_assoc, List.cons_append]
    exact .stops hbefore hg hx.bind_of_error

/-! ## Evaluating -/

theorem exists_combine {op : BitSet.BitOp} {s t : BitSet} (h : s.bound = t.bound) :
    ∃ u, BitSet.combine op s t = .ok u :=
  ⟨_, dif_pos h⟩

/-- An operation on the sets of two operands succeeds, as both have the states as their bound. -/
theorem keepsTo_connect (o : Connective) {a b : Formula} (ha : c.KeepsTo (c.sat a) a.visits)
    (hb : c.KeepsTo (c.sat b) b.visits) :
    c.KeepsTo (c.sat (.connect o a b)) (.connect o a b : Formula).visits := by
  have hbounds : ∀ {x y}, (c.sat a).result = .ok x → (c.sat b).result = .ok y →
      x.bound = y.bound :=
    fun hx hy => (bound_of_gives ⟨0, hx⟩).trans (bound_of_gives ⟨0, hy⟩).symm
  cases o with
  | implies =>
    refine .enter rfl (ha.bind fun x hx => hb.bind fun y hy => ?_)
    obtain ⟨both, hboth⟩ : ∃ u, x.inter y = .ok u := exists_combine (hbounds hx hy)
    obtain ⟨u, hu⟩ : ∃ u, both.union x.compl = .ok u :=
      exists_combine ((BitSet.bound_of_combine hboth).trans (BitSet.bound_compl x).symm)
    rw [hboth]
    exact keepsTo_leave ((yields_permit both).bind (hu ▸ yields_permit u)) rfl
  | and =>
    refine .enter rfl (ha.bind fun x hx => hb.bind fun y hy => ?_)
    obtain ⟨u, hu⟩ : ∃ u, x.inter y = .ok u := exists_combine (hbounds hx hy)
    rw [hu]
    exact keepsTo_leave (yields_permit u) rfl
  | or =>
    refine .enter rfl (ha.bind fun x hx => hb.bind fun y hy => ?_)
    obtain ⟨u, hu⟩ : ∃ u, x.union y = .ok u := exists_combine (hbounds hx hy)
    rw [hu]
    exact keepsTo_leave (yields_permit u) rfl

/-- **The evaluation of a formula keeps to the walk through it.** -/
theorem sat_keepsTo (c : Checker ι) (f : Formula) : c.KeepsTo (c.sat f) f.visits := by
  induction f with
  | atom name =>
    obtain ⟨s, hs, -⟩ := c.labelled_represents name
    rw [sat, hs]
    exact .enter rfl (keepsTo_leave (yields_permit s) rfl)
  | truth b => cases b <;> exact .enter rfl (keepsTo_leave (yields_pure _) rfl)
  | not a iha => exact .enter rfl (iha.bind fun x _ => keepsTo_leave (yields_pure _) rfl)
  | connect o a b iha ihb => exact keepsTo_connect o iha ihb
  | unary q o a iha =>
    rcases q, o with ⟨_ | _, _ | _ | _⟩
    case some.next =>
      refine .enter rfl (iha.bind fun x _ => ?_)
      obtain ⟨p, hp, -⟩ := c.pre_represents x
      rw [hp]
      exact keepsTo_leave (yields_permit p) rfl
    case some.always =>
      refine .enter rfl (iha.bind fun x hx => ?_)
      obtain ⟨u, -, hu⟩ := settlesIn_loopCost_eg hx
      exact keepsTo_leave hu rfl
    -- the others are refused as they are entered, whatever their operands
    all_goals exact c.keepsTo_refused rfl
  | binary q o a b iha ihb =>
    rcases q, o with ⟨_ | _, _ | _ | _⟩
    case some.strongUntil =>
      refine .enter rfl (iha.bind fun w hw => ihb.bind fun y hy => ?_)
      obtain ⟨u, -, hu⟩ := settlesIn_loopCost_eu hw hy
      exact keepsTo_leave hu rfl
    all_goals exact c.keepsTo_refused rfl

/-- A formula that is evaluated counts what its loops count. -/
theorem yields_of_isNormal (c : Checker ι) (hf : f.isNormal = true) :
    ∃ s, (c.sat f).Yields (.ok s) (c.walkCost f.visits) := by
  have hkeeps := c.sat_keepsTo f
  -- `stops` says what the walk looks like, so the walk has to be a variable for the cases
  generalize hvs : f.visits = vs at hkeeps
  cases hkeeps with
  | @passes _ s _ hx => exact ⟨s, hx⟩
  | @stops before after g _ hg _ =>
    have henter : .enter g ∈ f.visits := by simp [hvs]
    rw [Formula.isNormal_iff_forall_enter.1 hf g henter] at hg
    cases hg

/-- A formula that is refused counts what its loops count before the first operator outside the
    minimal set is entered. -/
theorem yields_of_not_isNormal (c : Checker ι) (hf : f.isNormal = false) :
    ∃ before g after, f.visits = before ++ .enter g :: after ∧
      (∀ h, .enter h ∈ before → h.isMinimal = true) ∧ g.isMinimal = false ∧
      (c.sat f).Yields (.error (.internal (.notMinimal g.label))) (c.walkCost before) := by
  have hkeeps := c.sat_keepsTo f
  generalize hvs : f.visits = vs at hkeeps
  cases hkeeps with
  | @passes _ s hminimal _ =>
    rw [Formula.isNormal_iff_forall_enter.2 (hvs ▸ hminimal)] at hf
    cases hf
  | @stops before after g hbefore hg hx => exact ⟨before, g, after, rfl, hbefore, hg, hx⟩

/-- **A formula is evaluated exactly if it is normalized, and otherwise the first operator outside
    the minimal set in prefix order is refused.** The steps counted by then are those of the loops
    of the subformulas that are left before that operator is entered. -/
theorem sat_refuses_first (c : Checker ι) (f : Formula) :
    (∀ n, (∃ s, ((c.sat f).exec n).1 = .ok s) ↔ f.isNormal = true) ∧
    (f.isNormal = false → ∃ before g after e,
      f.visits = before ++ .enter g :: after ∧
      (∀ h, .enter h ∈ before → h.isMinimal = true) ∧ g.isMinimal = false ∧
      f.subformulas.find? (fun h => !h.isMinimal) = some g ∧
      e.isInternal = true ∧ e.message = "Expected an operator but found '" ++ g.label ++ "'." ∧
      ∀ n, (c.sat f).exec n = (.error e, n + c.walkCost before)) := by
  refine ⟨fun n => ⟨fun ⟨s, hs⟩ => ?_, fun hf => ?_⟩, fun hf => ?_⟩
  · by_contra hf
    obtain ⟨_, g, _, _, _, _, hyields⟩ :=
      c.yields_of_not_isNormal (Bool.eq_false_of_not_eq_true hf)
    rw [hyields n] at hs
    cases hs
  · obtain ⟨s, hyields⟩ := c.yields_of_isNormal hf
    exact ⟨s, by rw [hyields n]⟩
  · obtain ⟨before, g, after, hvisits, hbefore, hg, hyields⟩ := c.yields_of_not_isNormal hf
    exact ⟨before, g, after, _, hvisits, hbefore, hg, Formula.find?_subformulas hvisits hbefore hg,
      rfl, rfl, hyields⟩

theorem sat_refuses_first_halfway :
    halfway.isNormal = false ∧
    ∃ before g after e, halfway.visits = before ++ .enter g :: after ∧
      (∀ h, .enter h ∈ before → h.isMinimal = true) ∧ g.isMinimal = false ∧
      halfway.subformulas.find? (fun h => !h.isMinimal) = some g ∧
      e.isInternal = true ∧ e.message = "Expected an operator but found '" ++ g.label ++ "'." ∧
      ∀ n, ((ofModel sharing).sat halfway).exec n =
        (.error e, n + (ofModel sharing).walkCost before) :=
  ⟨rfl, (sat_refuses_first (ofModel sharing) halfway).2 rfl⟩

end Checker

end BranchingTime
