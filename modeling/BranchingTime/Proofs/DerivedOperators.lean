import BranchingTime.Proofs.Normalization
import BranchingTime.Proofs.Satisfaction

set_option autoImplicit false

/-! # The sets computed for derived operators

A formula outside the minimal set of operators is normalized before its set is computed. For
formulas without `ER`, `EW` and `AU` the set consists of the states at which the formula holds, in
every model (`Checker.sat_normalize`).

The rules of the three other operators join the right parts with the wrong connective: those of `ER`
and `EW` take away the states from which a path stays for ever in the operands, and that of `AU`
adds them. Where every state has a successor, a set is thus right at a state if and only if no such
path begins there (`Checker.sat_normalize_er_ew_au`). -/

namespace BranchingTime

open Formula (er ew au)

namespace Checker

variable {ι : Type} [DecidableEq ι] [Hashable ι] {c : Checker ι} {A B P Q : Nat → Prop}
  {a b f : Formula} {i : Nat}

/-! ## Membership in the set of a normalized formula -/

theorem Finds.unique (hP : c.Finds f P) (hQ : c.Finds f Q) (hi : i < c.model.size) : P i ↔ Q i := by
  obtain ⟨s, k, hs, hsrep⟩ := hP
  obtain ⟨t, l, ht, htrep⟩ := hQ
  have hst : s = t := Except.ok.inj (congrArg Prod.fst ((hs 0).symm.trans (ht 0)))
  subst hst
  exact (hsrep.mem i hi).symm.trans (htrep.mem i hi)

/-- The state with the index `i` is in the set computed for the normalized formula. -/
def HoldsAt (c : Checker ι) (f : Formula) (i : Nat) : Prop :=
  ∃ s, (c.sat f.normalize).result = .ok s ∧ s.contains i = true

theorem finds_normalize (c : Checker ι) (f : Formula) :
    c.Finds f.normalize (f.normalize.Holds c.model) :=
  c.finds_of_isNormal (Formula.isNormal_normalize f)

theorem finds_holdsAt (c : Checker ι) (f : Formula) : c.Finds f.normalize (c.HoldsAt f) := by
  obtain ⟨s, k, hs, hrep⟩ := c.finds_normalize f
  have hresult : (c.sat f.normalize).result = .ok s := congrArg Prod.fst (hs 0)
  refine ⟨s, k, hs, hrep.bound, ?_⟩
  intro i _
  constructor
  · intro hi
    exact ⟨s, hresult, hi⟩
  · rintro ⟨t, ht, hi⟩
    rw [hresult] at ht
    cases ht
    exact hi

theorem Finds.holdsAt_iff (h : c.Finds f.normalize P) (hi : i < c.model.size) :
    c.HoldsAt f i ↔ P i :=
  (c.finds_holdsAt f).unique h hi

/-- Negating a normalized formula takes the complement of its set, also where it takes a negation
    away. -/
theorem Finds.negate (ha : a.isNormal = true) (h : c.Finds a P) :
    c.Finds a.negate (fun i => ¬ P i) := by
  refine (c.finds_of_isNormal (Formula.isNormal_negate ha)).congr ?_
  intro i hi
  rw [Formula.holds_negate, (c.finds_of_isNormal ha).unique h hi]

/-! ## Formulas whose rules are exact -/

/-- **The set computed for a normalized formula without `ER`, `EW` and `AU` consists of the states
    at which the formula itself holds**, in models of every kind. -/
theorem sat_normalize (c : Checker ι) (hf : f.isExact = true) :
    ∃ s, (∀ n, ((c.sat f.normalize).exec n).1 = .ok s) ∧ s.bound = c.model.size ∧
      ∀ i < c.model.size, s.contains i = true ↔ f.Holds c.model i := by
  obtain ⟨s, k, hs, hrep⟩ := c.finds_normalize f
  rw [Formula.holds_normalize hf] at hrep
  exact ⟨s, fun n => by rw [hs n], hrep.bound, hrep.mem⟩

theorem sat_normalize_sharing :
    (Formula.not (.not (.af (.aw (.ex (.atom "p")) (.not (.atom "q")))))).isExact = true ∧
    ∃ s, (∀ n, (((ofModel sharing).sat
        (Formula.not (.not (.af (.aw (.ex (.atom "p")) (.not (.atom "q")))))).normalize).exec n).1 =
          .ok s) ∧
      s.bound = 3 ∧
      ∀ i < 3, s.contains i = true ↔
        (Formula.not (.not (.af (.aw (.ex (.atom "p")) (.not (.atom "q")))))).Holds sharing i :=
  ⟨rfl, sat_normalize (ofModel sharing) rfl⟩

/-! ## The three other rules

`p`, `u` and `g` below are what an operator says, its until and its always. -/

section Connectives

variable {p u g : Prop}

theorem and_not_iff_of_or (h : p ↔ u ∨ g) : u ∧ ¬ g ↔ p ∧ ¬ g := by
  rw [h]
  tauto

theorem or_iff_of_and_not (h : p ↔ ¬ u ∧ ¬ g) : ¬ u ∨ g ↔ p ∨ g := by
  rw [h]
  tauto

/-- Taking away a part of what holds is right only if there is nothing to take away. -/
theorem and_not_iff_self_iff (h : g → p) : (p ∧ ¬ g ↔ p) ↔ ¬ g := by
  tauto

/-- Adding what excludes the rest is right only if there is nothing to add. -/
theorem or_iff_self_iff (h : p → ¬ g) : (p ∨ g ↔ p) ↔ ¬ g := by
  tauto

end Connectives

theorem finds_normalize_er (ha : c.Finds a.normalize A) (hb : c.Finds b.normalize B) :
    c.Finds (er a b).normalize (fun i =>
      SomeUntil c.model.Step B (fun j => A j ∧ B j) i ∧ ¬ SomeAlways c.model.Step B i) := by
  have hnb : b.normalize.isNormal = true := Formula.isNormal_normalize b
  have halways := hb.eg.negate (by simp [Formula.isNormal, Formula.isMinimal, hnb])
  exact (hb.eu (ha.connect .and hb)).connect .and halways

theorem finds_normalize_ew (ha : c.Finds a.normalize A) (hb : c.Finds b.normalize B) :
    c.Finds (ew a b).normalize (fun i =>
      SomeUntil c.model.Step (fun j => A j ∨ B j) B i ∧
        ¬ SomeAlways c.model.Step (fun j => A j ∨ B j) i) := by
  have hna : a.normalize.isNormal = true := Formula.isNormal_normalize a
  have hnb : b.normalize.isNormal = true := Formula.isNormal_normalize b
  have heither := ha.connect .or hb
  have halways := heither.eg.negate (by simp [Formula.isNormal, Formula.isMinimal, hna, hnb])
  exact (heither.eu hb).connect .and halways

theorem finds_normalize_au (ha : c.Finds a.normalize A) (hb : c.Finds b.normalize B) :
    c.Finds (au a b).normalize (fun i =>
      ¬ SomeUntil c.model.Step (fun j => ¬ B j) (fun j => ¬ A j ∧ ¬ B j) i ∨
        SomeAlways c.model.Step (fun j => ¬ B j) i) := by
  have hna := Formula.isNormal_negate (Formula.isNormal_normalize a)
  have hnb := Formula.isNormal_negate (Formula.isNormal_normalize b)
  have ha' := ha.negate (Formula.isNormal_normalize a)
  have hb' := hb.negate (Formula.isNormal_normalize b)
  have huntil := (hb'.eu (ha'.connect .and hb')).negate
    (by simp [Formula.isNormal, Formula.isMinimal, hna, hnb])
  exact huntil.connect .or hb'.eg

/-- **Where every state has a successor, the sets computed for `E(a R b)`, `E(a W b)` and `A(a U b)`
    are those of the operators, less or more the states from which a path stays for ever in `b`, in
    `a` or `b`, and outside `b`.** So each set is right at exactly the states without such a path.
    -/
theorem sat_normalize_er_ew_au (hserial : c.model.Serial) (a b : Formula) :
    (c.Finds (er a b).normalize fun i =>
      (∃ π, InfinitePath c.model.Step i π ∧ Release (c.HoldsAt a) (c.HoldsAt b) π) ∧
        ¬ ∃ π, InfinitePath c.model.Step i π ∧ ∀ k, c.HoldsAt b (π k)) ∧
    (c.Finds (ew a b).normalize fun i =>
      (∃ π, InfinitePath c.model.Step i π ∧ WeakUntil (c.HoldsAt a) (c.HoldsAt b) π) ∧
        ¬ ∃ π, InfinitePath c.model.Step i π ∧ ∀ k, c.HoldsAt a (π k) ∨ c.HoldsAt b (π k)) ∧
    (c.Finds (au a b).normalize fun i =>
      (∀ π, InfinitePath c.model.Step i π → Until (c.HoldsAt a) (c.HoldsAt b) π) ∨
        ∃ π, InfinitePath c.model.Step i π ∧ ∀ k, ¬ c.HoldsAt b (π k)) ∧
    ∀ i < c.model.size,
      ((c.HoldsAt (er a b) i ↔
          ∃ π, InfinitePath c.model.Step i π ∧ Release (c.HoldsAt a) (c.HoldsAt b) π) ↔
        ¬ ∃ π, InfinitePath c.model.Step i π ∧ ∀ k, c.HoldsAt b (π k)) ∧
      ((c.HoldsAt (ew a b) i ↔
          ∃ π, InfinitePath c.model.Step i π ∧ WeakUntil (c.HoldsAt a) (c.HoldsAt b) π) ↔
        ¬ ∃ π, InfinitePath c.model.Step i π ∧ ∀ k, c.HoldsAt a (π k) ∨ c.HoldsAt b (π k)) ∧
      ((c.HoldsAt (au a b) i ↔
          ∀ π, InfinitePath c.model.Step i π → Until (c.HoldsAt a) (c.HoldsAt b) π) ↔
        ¬ ∃ π, InfinitePath c.model.Step i π ∧ ∀ k, ¬ c.HoldsAt b (π k)) := by
  have hA := c.finds_holdsAt a
  have hB := c.finds_holdsAt b
  -- what each rule finds is told by its until and its always, and so is the meaning
  have her := (finds_normalize_er hA hB).congr fun i hi =>
    and_not_iff_of_or (someRelease_iff (A := c.HoldsAt a) (hserial.goesOn hi))
  have hew := (finds_normalize_ew hA hB).congr fun i hi =>
    and_not_iff_of_or (someWeakUntil_iff (hserial.goesOn hi))
  have hau := (finds_normalize_au hA hB).congr fun i hi =>
    or_iff_of_and_not (everyUntil_iff (hserial.goesOn hi))
  refine ⟨her, hew, hau, ?_⟩
  intro i hi
  refine ⟨?_, ?_, ?_⟩
  · rw [her.holdsAt_iff hi]
    exact and_not_iff_self_iff fun halways =>
      (someRelease_iff (hserial.goesOn hi)).2 (Or.inr halways)
  · rw [hew.holdsAt_iff hi]
    exact and_not_iff_self_iff fun halways =>
      (someWeakUntil_iff (hserial.goesOn hi)).2 (Or.inr halways)
  · rw [hau.holdsAt_iff hi]
    exact or_iff_self_iff fun huntil => ((everyUntil_iff (hserial.goesOn hi)).1 huntil).2

/-- One state, with a transition to itself. -/
def selfLoop : Model Nat := .ofList [(State.ofId 0).addTransition 0]

theorem selfLoop_step : selfLoop.Step 0 0 :=
  ⟨_, _, rfl, rfl, List.mem_cons_self⟩

theorem selfLoop_serial : selfLoop.Serial := by
  intro i hi
  obtain rfl : i = 0 := Nat.lt_one_iff.1 hi
  exact ⟨0, selfLoop_step⟩

theorem selfLoop_path : InfinitePath selfLoop.Step 0 (fun _ => 0) :=
  ⟨rfl, fun _ => selfLoop_step⟩

theorem holdsAt_truth_selfLoop (b : Bool) : (ofModel selfLoop).HoldsAt (.truth b) 0 ↔ b = true :=
  Finds.holdsAt_iff (f := .truth b) (finds_truth _ b) Nat.one_pos

/-- On the loop the sets of `E(\T R \T)` and `E(\T W \T)` are wrong, and that of `A(\T U \T)` is
    right. -/
theorem sat_normalize_er_ew_au_selfLoop :
    selfLoop.Serial ∧
    (¬ ((ofModel selfLoop).HoldsAt (er (.truth true) (.truth true)) 0 ↔
      ∃ π, InfinitePath selfLoop.Step 0 π ∧ Release ((ofModel selfLoop).HoldsAt (.truth true))
        ((ofModel selfLoop).HoldsAt (.truth true)) π)) ∧
    (¬ ((ofModel selfLoop).HoldsAt (ew (.truth true) (.truth true)) 0 ↔
      ∃ π, InfinitePath selfLoop.Step 0 π ∧ WeakUntil ((ofModel selfLoop).HoldsAt (.truth true))
        ((ofModel selfLoop).HoldsAt (.truth true)) π)) ∧
    ((ofModel selfLoop).HoldsAt (au (.truth true) (.truth true)) 0 ↔
      ∀ π, InfinitePath selfLoop.Step 0 π → Until ((ofModel selfLoop).HoldsAt (.truth true))
        ((ofModel selfLoop).HoldsAt (.truth true)) π) := by
  have htrue : (ofModel selfLoop).HoldsAt (.truth true) 0 := (holdsAt_truth_selfLoop true).2 rfl
  obtain ⟨-, -, -, hright⟩ := sat_normalize_er_ew_au (c := ofModel selfLoop) selfLoop_serial
    (.truth true) (.truth true)
  obtain ⟨her, hew, hau⟩ := hright 0 Nat.one_pos
  refine ⟨selfLoop_serial, ?_, ?_, hau.2 ?_⟩
  · intro h
    exact her.1 h ⟨_, selfLoop_path, fun _ => htrue⟩
  · intro h
    exact hew.1 h ⟨_, selfLoop_path, fun _ => Or.inl htrue⟩
  · rintro ⟨π, hπ, hfalse⟩
    have hfirst : (ofModel selfLoop).HoldsAt (.truth true) (π 0) := by rwa [hπ.start]
    exact hfalse 0 hfirst

/-- On the loop no set of the three operators is that of the meaning: `E(\T R \T)` and `E(\T W \T)`
    ought to hold, and `A(\T U \F)` ought not to. -/
theorem not_sat_normalize_er_ew_au :
    selfLoop.Serial ∧
    ¬ ((ofModel selfLoop).HoldsAt (er (.truth true) (.truth true)) 0 ↔
      ∃ π, InfinitePath selfLoop.Step 0 π ∧ Release ((ofModel selfLoop).HoldsAt (.truth true))
        ((ofModel selfLoop).HoldsAt (.truth true)) π) ∧
    ¬ ((ofModel selfLoop).HoldsAt (ew (.truth true) (.truth true)) 0 ↔
      ∃ π, InfinitePath selfLoop.Step 0 π ∧ WeakUntil ((ofModel selfLoop).HoldsAt (.truth true))
        ((ofModel selfLoop).HoldsAt (.truth true)) π) ∧
    ¬ ((ofModel selfLoop).HoldsAt (au (.truth true) (.truth false)) 0 ↔
      ∀ π, InfinitePath selfLoop.Step 0 π → Until ((ofModel selfLoop).HoldsAt (.truth true))
        ((ofModel selfLoop).HoldsAt (.truth false)) π) := by
  have htrue : (ofModel selfLoop).HoldsAt (.truth true) 0 := (holdsAt_truth_selfLoop true).2 rfl
  have hfalse : ¬ (ofModel selfLoop).HoldsAt (.truth false) 0 := fun h =>
    Bool.false_ne_true ((holdsAt_truth_selfLoop false).1 h)
  have htop := (ofModel selfLoop).finds_holdsAt (.truth true)
  have hbot := (ofModel selfLoop).finds_holdsAt (.truth false)
  refine ⟨selfLoop_serial, ?_, ?_, ?_⟩
  · intro h
    have hset := h.2 ⟨_, selfLoop_path, fun _ _ => htrue⟩
    exact (((finds_normalize_er htop htop).holdsAt_iff Nat.one_pos).1 hset).2
      ⟨_, selfLoop_path, fun _ => htrue⟩
  · intro h
    have hset := h.2 ⟨_, selfLoop_path, Or.inr fun _ => htrue⟩
    exact (((finds_normalize_ew htop htop).holdsAt_iff Nat.one_pos).1 hset).2
      ⟨_, selfLoop_path, fun _ => Or.inl htrue⟩
  · intro h
    have hset := ((finds_normalize_au htop hbot).holdsAt_iff Nat.one_pos).2
      (Or.inr ⟨_, selfLoop_path, fun _ => hfalse⟩)
    obtain ⟨k, hk, -⟩ := h.1 hset _ selfLoop_path
    exact hfalse hk

end Checker

end BranchingTime
