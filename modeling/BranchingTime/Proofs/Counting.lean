import BranchingTime.Proofs.FiniteSets
import BranchingTime.Proofs.Safety

set_option autoImplicit false

/-! # How many steps are counted

A repetition counts the rounds that change its set, each of them once, and it ends with the set that
they lead to (`Checker.shrink_settles`, `Checker.grow_settles`). Each of them makes the set smaller,
if it is shrunk, or larger, if it is grown; so `EG` takes no more rounds than its operand has states,
and `EU` no more than there are states without its second operand. A formula counts what its operands
count and, at each `EG` and `EU`, at most as many steps as the model has states
(`Checker.sat_countsAtMost`), and it does so even if it fails on the way.

What a checker has counted before makes no difference to any of this. So a row of calls on one
checker answers each call as if it were the first, and counts in all what the calls count one by one
(`Checker.session_eq`). -/

namespace BranchingTime

theorem BitSet.size_le_bound (s : BitSet) : s.size ≤ s.bound := by
  have hsubset : s.denote.members ⊆ Finset.range s.bound := Finset.filter_subset _ _
  rw [size_eq_card]
  simpa using Finset.card_le_card hsubset

/-! ## What a computation counts -/

namespace CheckM

variable {α β : Type} {x : CheckM α} {f : α → CheckM β} {a : α} {r : Except Error α} {k l : Nat}

/-- The number of steps that a computation counts. -/
def cost (x : CheckM α) : Nat := (x.exec 0).2

/-- The computation counts no more than `k` steps. Neither these nor the result depend on the count
    before. -/
structure CountsAtMost (x : CheckM α) (k : Nat) : Prop where
  yields : x.Yields x.result x.cost
  cost_le : x.cost ≤ k

theorem Yields.result_eq (h : x.Yields r k) : x.result = r :=
  congrArg Prod.fst (h 0)

theorem Yields.cost_eq (h : x.Yields r k) : x.cost = k :=
  (congrArg Prod.snd (h 0)).trans (Nat.zero_add k)

theorem Yields.countsAtMost (h : x.Yields r k) (hle : k ≤ l) : x.CountsAtMost l :=
  ⟨by rwa [h.result_eq, h.cost_eq], by rwa [h.cost_eq]⟩

theorem countsAtMost_pure (a : α) : (pure a : CheckM α).CountsAtMost 0 :=
  (yields_pure a).countsAtMost le_rfl

theorem countsAtMost_throw (e : Error) : (throw e : CheckM α).CountsAtMost 0 :=
  Yields.countsAtMost (fun _ => rfl) le_rfl

theorem countsAtMost_permit (y : Except Misuse α) : (permit y).CountsAtMost 0 := by
  cases y with
  | ok a => exact countsAtMost_pure a
  | error e => exact countsAtMost_throw (.misuse e)

theorem CountsAtMost.mono (h : x.CountsAtMost k) (hle : k ≤ l) : x.CountsAtMost l :=
  ⟨h.yields, h.cost_le.trans hle⟩

theorem CountsAtMost.yields_of_result (hx : x.CountsAtMost k) (h : x.result = r) :
    x.Yields r x.cost :=
  h ▸ hx.yields

theorem CountsAtMost.bind (hx : x.CountsAtMost k)
    (hf : ∀ a, x.Gives a → (f a).CountsAtMost l) : (x >>= f).CountsAtMost (k + l) := by
  cases hresult : x.result with
  | error e =>
    have hyields := hx.yields_of_result hresult
    exact hyields.bind_of_error.countsAtMost (Nat.le_add_right_of_le hx.cost_le)
  | ok a =>
    have hyields := hx.yields_of_result hresult
    have hrest := hf a ⟨0, hresult⟩
    exact (hyields.bind hrest.yields).countsAtMost (Nat.add_le_add hx.cost_le hrest.cost_le)

/-- What counts nothing may follow. -/
theorem CountsAtMost.andThen (hx : x.CountsAtMost k) (hf : ∀ a, (f a).CountsAtMost 0) :
    (x >>= f).CountsAtMost k :=
  hx.bind fun a _ => hf a

theorem CountsAtMost.le_count (h : x.CountsAtMost k) (n : Nat) : n ≤ (x.exec n).2 := by
  rw [h.yields n]
  exact Nat.le_add_right n _

theorem CountsAtMost.count_le (h : x.CountsAtMost k) (n : Nat) : (x.exec n).2 ≤ n + k := by
  rw [h.yields n]
  exact Nat.add_le_add_left h.cost_le n

end CheckM

open CheckM (CountsAtMost countsAtMost_pure countsAtMost_throw
  countsAtMost_permit)

/-! ## Formulas -/

/-- The number of operators `EG` and `EU` in a formula. -/
def Formula.fixpoints : Formula → Nat
  | atom _ => 0
  | truth _ => 0
  | not a => a.fixpoints
  | connect _ a b => a.fixpoints + b.fixpoints
  | eg a => a.fixpoints + 1
  | eu a b => a.fixpoints + b.fixpoints + 1
  | unary _ _ a => a.fixpoints
  | binary _ _ a b => a.fixpoints + b.fixpoints

namespace Checker

variable {ι : Type} [DecidableEq ι] [Hashable ι] {c : Checker ι} {w x y : BitSet} {a b : Formula}

/-- Shrinking counts the rounds that change the set, and there are no more of them than members. -/
theorem shrink_settles (hy : y.bound = c.model.size) :
    ∃ u k, SettlesIn c.shrinkStep BitSet.size k y u ∧ k ≤ y.size ∧
      (c.shrink y).Yields (.ok u) k := by
  obtain ⟨u, k, hyields, -, hsettles⟩ := shrink_yields (hy ▸ y.represents_contains)
  exact ⟨u, k, hsettles, (Nat.le_add_left k u.size).trans hsettles.rank_add_le, hyields⟩

/-- Growing counts the rounds that change the set, and there are no more of them than states outside
    the set. -/
theorem grow_settles (hw : w.bound = c.model.size) (hy : y.bound = c.model.size) :
    ∃ u k, SettlesIn (c.growStep w) BitSet.room k y u ∧ k ≤ c.model.size - y.size ∧
      (c.grow w y).Yields (.ok u) k := by
  obtain ⟨u, k, hyields, hu, hsettles⟩ :=
    grow_yields (hw ▸ w.represents_contains) (hy ▸ y.represents_contains)
  refine ⟨u, k, hsettles, ?_, hyields⟩
  -- both sets have as many words, so less room means more members
  have hwords : u.words.size = y.words.size := by rw [u.size_words, y.size_words, hu.bound, hy]
  have hroom := hsettles.rank_add_le
  have hbound := u.size_le_bound
  rw [hu.bound] at hbound
  have hysize := y.size_le
  simp only [BitSet.room, hwords] at hroom
  omega

/-- **A formula counts at each of its `EG` and `EU` at most as many steps as there are states.** -/
theorem sat_countsAtMost (c : Checker ι) (f : Formula) :
    (c.sat f).CountsAtMost (c.model.size * f.fixpoints) := by
  induction f with
  | atom name => exact countsAtMost_permit _
  | truth b => cases b <;> exact countsAtMost_pure _
  | not a iha => exact iha.andThen fun x => countsAtMost_pure _
  | connect o a b iha ihb =>
    rw [Formula.fixpoints, Nat.mul_add]
    cases o with
    | implies =>
      exact iha.bind fun x _ => ihb.andThen fun y =>
        (countsAtMost_permit _).andThen fun _ => countsAtMost_permit _
    | _ => exact iha.bind fun x _ => ihb.andThen fun y => countsAtMost_permit _
  | unary q o a iha =>
    rcases q, o with ⟨_ | _, _ | _ | _⟩
    case some.next => exact iha.andThen fun x => countsAtMost_permit _
    case some.always =>
      refine iha.bind fun x hx => ?_
      have hbound := bound_of_gives hx
      obtain ⟨u, k, -, hk, hyields⟩ := shrink_settles hbound
      exact hyields.countsAtMost (hk.trans (hbound ▸ x.size_le_bound))
    all_goals exact (countsAtMost_throw _).mono (Nat.zero_le _)
  | binary q o a b iha ihb =>
    rcases q, o with ⟨_ | _, _ | _ | _⟩
    case some.strongUntil =>
      rw [Formula.fixpoints, Nat.mul_add, Nat.mul_add, Nat.add_assoc]
      refine iha.bind fun x hx => ihb.bind fun y hy => ?_
      obtain ⟨u, k, -, hk, hyields⟩ := grow_settles (bound_of_gives hx) (bound_of_gives hy)
      exact hyields.countsAtMost ((hk.trans (Nat.sub_le _ _)).trans (Nat.mul_one _).ge)
    all_goals exact (countsAtMost_throw _).mono (Nat.zero_le _)

/-! ## Calls -/

/-- What a checker can be asked. -/
inductive Query where
  | sat (f : Formula)
  | holds (f : Formula)
  | satisfying (f : Formula)
  | violations (f : Formula)
deriving DecidableEq, Repr

/-- What a checker answers. -/
inductive Answer (ι : Type) where
  | states (set : BitSet)
  | verdict (holds : Bool)
  | ids (ids : List ι)

/-- The answer to a query. -/
def ask (c : Checker ι) (policy : Policy) : Query → CheckM (Answer ι)
  | .sat f => return .states (← c.sat f)
  | .holds f => return .verdict (← c.holds policy f)
  | .satisfying f => return .ids (← c.satisfying f)
  | .violations f => return .ids (← c.violations f)

/-- The answers to queries put to one checker after another, and the count after them. A query that
    fails does not keep the others from being answered. -/
def session (c : Checker ι) (policy : Policy) :
    List Query → Nat → List (Except Error (Answer ι)) × Nat
  | [], n => ([], n)
  | q :: qs, n =>
    let first := (c.ask policy q).exec n
    let others := c.session policy qs first.2
    (first.1 :: others.1, others.2)

/-- The formula that a query is about. -/
def Query.formula : Query → Formula
  | sat f => f
  | holds f => f
  | satisfying f => f
  | violations f => f

/-- A query counts what its formula counts. -/
theorem ask_countsAtMost (c : Checker ι) (policy : Policy) (q : Query) :
    (c.ask policy q).CountsAtMost (c.model.size * q.formula.fixpoints) := by
  have hsat := c.sat_countsAtMost q.formula
  cases q with
  | sat f => exact hsat.andThen fun _ => countsAtMost_pure _
  | holds f =>
    exact (hsat.andThen fun _ => countsAtMost_pure _).andThen fun _ => countsAtMost_pure _
  | satisfying f =>
    exact (hsat.andThen fun _ => countsAtMost_permit _).andThen fun _ => countsAtMost_pure _
  | violations f =>
    exact (hsat.andThen fun _ => countsAtMost_permit _).andThen fun _ => countsAtMost_pure _

/-- **Queries put to one checker are answered, and counted, as if each were the first.** -/
theorem session_eq (c : Checker ι) (policy : Policy) (queries : List Query) (n : Nat) :
    c.session policy queries n =
      (queries.map fun q => (c.ask policy q).result,
        n + (queries.map fun q => (c.ask policy q).cost).sum) := by
  induction queries generalizing n with
  | nil => rfl
  | cons q qs ih =>
    rw [session, (c.ask_countsAtMost policy q).yields n, ih]
    simp [Nat.add_assoc]

/-! ## All together -/

/-- **A repetition counts the rounds that change its set, and a checker adds up what is counted.** The
    rounds of `EG` are no more than the states of its operand, those of `EU` no more than the states
    without its second operand, and a whole formula counts no more than all states at each of its
    `EG` and `EU`. No query lowers the count, whether it fails or not, and none is answered otherwise
    than by a fresh checker. -/
theorem count_bounded_and_additive (c : Checker ι) (policy : Policy) :
    (∀ a x, (c.sat a).result = .ok x → ∃ u k,
      SettlesIn c.shrinkStep BitSet.size k x u ∧ k ≤ x.size ∧
      (c.shrink x).Yields (.ok u) k ∧
      (c.sat (.eg a)).Yields (.ok u) ((c.sat a).cost + k)) ∧
    (∀ a b w y, (c.sat a).result = .ok w → (c.sat b).result = .ok y → ∃ u k,
      SettlesIn (c.growStep w) BitSet.room k y u ∧ k ≤ c.model.size - y.size ∧
      (c.grow w y).Yields (.ok u) k ∧
      (c.sat (.eu a b)).Yields (.ok u) ((c.sat a).cost + ((c.sat b).cost + k))) ∧
    (∀ f n, ((c.sat f).exec n).2 ≤ n + c.model.size * f.fixpoints) ∧
    (∀ q n, n ≤ ((c.ask policy q).exec n).2) ∧
    ∀ queries n, c.session policy queries n =
      (queries.map fun q => (c.ask policy q).result,
        n + (queries.map fun q => (c.ask policy q).cost).sum) := by
  refine ⟨fun a x hx => ?_, fun a b w y hw hy => ?_, fun f => (c.sat_countsAtMost f).count_le,
    fun q => (c.ask_countsAtMost policy q).le_count, c.session_eq policy⟩
  · obtain ⟨u, k, hsettles, hk, hu⟩ := shrink_settles (bound_of_gives ⟨0, hx⟩)
    have hyields := (c.sat_countsAtMost a).yields_of_result hx
    exact ⟨u, k, hsettles, hk, hu, hyields.bind hu⟩
  · obtain ⟨u, k, hsettles, hk, hu⟩ :=
      grow_settles (bound_of_gives ⟨0, hw⟩) (bound_of_gives ⟨0, hy⟩)
    have hyields := (c.sat_countsAtMost a).yields_of_result hw
    have hyields' := (c.sat_countsAtMost b).yields_of_result hy
    exact ⟨u, k, hsettles, hk, hu, hyields.bind (hyields'.bind hu)⟩

/-- A formula that fails after its left operand has been evaluated. -/
def halfway : Formula := .and (.eg (.atom "p")) (.ag (.atom "p"))

theorem successors_sharing : sharing.successors = #[[1, 2], [], [0]] := by
  rw [Model.successors_eq_map]
  decide +kernel

theorem ofModel_sharing :
    ofModel sharing = ⟨sharing, #[[1, 2], [], [0]], successors_sharing.symm⟩ := by
  unfold ofModel
  congr 1
  exact successors_sharing

/-- From the states of `p`, which are 0 and 1, first state 1 is taken out, as it has no successor, and
    then state 0, whose successors are states 1 and 2. Into the same set state 2 is put, as state 0
    is a successor of it, and then no state is missing. -/
theorem count_bounded_and_additive_sharing :
    ∃ w x u v, ((ofModel sharing).sat (.truth true)).result = .ok w ∧
      ((ofModel sharing).sat (.atom "p")).result = .ok x ∧
      SettlesIn (ofModel sharing).shrinkStep BitSet.size 2 x u ∧ 2 ≤ x.size ∧
      ((ofModel sharing).sat (.eg (.atom "p"))).Yields (.ok u) 2 ∧
      SettlesIn ((ofModel sharing).growStep w) BitSet.room 1 x v ∧ 1 ≤ 3 - x.size ∧
      ((ofModel sharing).sat (.eu (.truth true) (.atom "p"))).Yields (.ok v) 1 ∧
      (((ofModel sharing).sat halfway).exec 4).2 ≤ 4 + 3 ∧
      4 ≤ (((ofModel sharing).ask .all (.violations halfway)).exec 4).2 ∧
      ((ofModel sharing).session .all [.holds halfway, .violations halfway] 4).2 =
        4 + (2 + 2) := by
  obtain ⟨hEG, hEU, hbound, hmono, hsession⟩ := count_bounded_and_additive (ofModel sharing) .all
  obtain ⟨w, _, hw, -⟩ := (ofModel sharing).finds_truth true
  obtain ⟨x, _, hx, -⟩ := (ofModel sharing).finds_atom "p"
  obtain ⟨u, m, hu, hm, -, hcount⟩ := hEG _ x hx.result_eq
  obtain ⟨v, n, hv, hn, -, hcount'⟩ := hEU _ _ w x hw.result_eq hx.result_eq
  have hp : ((ofModel sharing).sat (.atom "p")).cost = 0 := by
    rw [ofModel_sharing]
    decide +kernel
  have hshrink : ((ofModel sharing).sat (.eg (.atom "p"))).cost = 2 := by
    rw [ofModel_sharing]
    decide +kernel
  have hgrow : ((ofModel sharing).sat (.eu (.truth true) (.atom "p"))).cost = 1 := by
    rw [ofModel_sharing]
    decide +kernel
  have hall : ((ofModel sharing).sat (.truth true)).cost = 0 := rfl
  -- what the formulas count beyond their operands are the rounds
  obtain rfl : m = 2 := by
    have := hcount.cost_eq
    omega
  obtain rfl : n = 1 := by
    have := hcount'.cost_eq
    omega
  rw [hp] at hcount hcount'
  refine ⟨w, x, u, v, hw.result_eq, hx.result_eq, hu, hm, hcount, hv, hn, hcount',
    hbound halfway 4, hmono _ 4, ?_⟩
  rw [hsession, ofModel_sharing]
  decide +kernel

end Checker

end BranchingTime
