import BranchingTime.Proofs.Verdicts

set_option autoImplicit false

/-! # Bisimilar states

States that a bisimulation relates have the same properties, and a step from one is matched by a
step from the other to states that are related again. Then a path from one is matched as well, for
as long as it goes on, so no formula tells them apart (`Model.IsBisimulation.holds_iff`), though the
sets for them may be found in different numbers of steps.

A bisimulation relates the states of models that differ in their ids, in their dangling transitions,
or in how often they have a state (`Model.Resembles`), so none of this changes a verdict. -/

namespace BranchingTime

variable {ι κ : Type} {m : Model ι} {n : Model κ} {R : Nat → Nat → Prop} {A B P Q : Nat → Prop}
  {i i' j j' : Nat} {e : ι → κ} {f : Formula}

namespace Model

/-- Related states have the same properties, and steps from them are matched by steps to related
    states. -/
structure IsBisimulation (m : Model ι) (n : Model κ) (R : Nat → Nat → Prop) : Prop where
  alike : ∀ {i j}, R i j → ∃ s t, m.states[i]? = some s ∧ n.states[j]? = some t ∧
    ∀ name, s.has name = t.has name
  forth : ∀ {i j i'}, R i j → m.Step i i' → ∃ j', n.Step j j' ∧ R i' j'
  back : ∀ {i j j'}, R i j → n.Step j j' → ∃ i', m.Step i i' ∧ R i' j'

namespace IsBisimulation

theorem symm (h : m.IsBisimulation n R) : n.IsBisimulation m fun j i => R i j := by
  refine ⟨?_, fun hij => h.back hij, fun hij => h.forth hij⟩
  intro j i hij
  obtain ⟨s, t, hs, ht, hhas⟩ := h.alike hij
  exact ⟨t, s, ht, hs, fun name => (hhas name).symm⟩

/-! ## From one model to the other -/

theorem someNext (h : m.IsBisimulation n R) (hA : ∀ {i j}, R i j → A i → B j) (hij : R i j)
    (hi : SomeNext m.Step A i) : SomeNext n.Step B j := by
  obtain ⟨i', hstep, hA'⟩ := hi
  obtain ⟨j', hstep', hij'⟩ := h.forth hij hstep
  exact ⟨j', hstep', hA hij' hA'⟩

/-- The states related to one from which `A` holds for ever go on with a step among themselves. -/
theorem someAlways (h : m.IsBisimulation n R) (hA : ∀ {i j}, R i j → A i → B j) (hij : R i j)
    (hi : SomeAlways m.Step A i) : SomeAlways n.Step B j := by
  refine someAlways_of_closed (Z := fun j => ∃ i, R i j ∧ SomeAlways m.Step A i) ?_ ⟨i, hij, hi⟩
  rintro j ⟨i, hij, hi⟩
  obtain ⟨hAi, i', hstep, hi'⟩ := someAlways_iff.1 hi
  obtain ⟨j', hstep', hij'⟩ := h.forth hij hstep
  exact ⟨hA hij hAi, j', hstep', i', hij', hi'⟩

/-- The states all of whose partners reach `Q` through `P` contain those of `B`, and steps from `A`
    lead back to them. -/
theorem someUntil (h : m.IsBisimulation n R) (hA : ∀ {i j}, R i j → A i → P j)
    (hB : ∀ {i j}, R i j → B i → Q j) (hij : R i j) (hi : SomeUntil m.Step A B i) :
    SomeUntil n.Step P Q j := by
  refine hi.closed (Z := fun i => ∀ j, R i j → SomeUntil n.Step P Q j) ?_ ?_ j hij
  · intro i hBi j hij
    exact someUntil_iff.2 (Or.inl (hB hij hBi))
  · intro i i' hAi hstep hi' j hij
    obtain ⟨j', hstep', hij'⟩ := h.forth hij hstep
    exact someUntil_iff.2 (Or.inr ⟨hA hij hAi, j', hstep', hi' j' hij'⟩)

/-- **No normalized formula tells related states apart.** -/
theorem holds_iff (h : m.IsBisimulation n R) (hf : f.isNormal = true) :
    ∀ {i j}, R i j → (f.Holds m i ↔ f.Holds n j) := by
  induction f with
  | atom name =>
    intro i j hij
    obtain ⟨s, t, hs, ht, hhas⟩ := h.alike hij
    simp [Formula.Holds, hs, ht, hhas]
  | truth b => exact fun _ => Iff.rfl
  | not a iha => exact fun hij => not_congr (iha hf hij)
  | connect o a b iha ihb =>
    obtain ⟨ha, hb⟩ := Bool.and_eq_true_iff.1 hf
    intro i j hij
    rw [Formula.Holds, Formula.Holds, iha ha hij, ihb hb hij]
  | unary q o a iha =>
    obtain ⟨hmin, ha⟩ := Bool.and_eq_true_iff.1 hf
    have forth : ∀ {i j}, R i j → a.Holds m i → a.Holds n j := fun hij => (iha ha hij).1
    have back : ∀ {j i}, R i j → a.Holds n j → a.Holds m i := fun hij => (iha ha hij).2
    intro i j hij
    rcases q, o with ⟨_ | _, _ | _ | _⟩
    case some.next => exact ⟨h.someNext forth hij, h.symm.someNext back hij⟩
    case some.always => exact ⟨h.someAlways forth hij, h.symm.someAlways back hij⟩
    all_goals cases hmin
  | binary q o a b iha ihb =>
    obtain ⟨hmin, hb⟩ := Bool.and_eq_true_iff.1 hf
    obtain ⟨hmin, ha⟩ := Bool.and_eq_true_iff.1 hmin
    intro i j hij
    rcases q, o with ⟨_ | _, _ | _ | _⟩
    case some.strongUntil =>
      exact ⟨h.someUntil (fun hij => (iha ha hij).1) (fun hij => (ihb hb hij).1) hij,
        h.symm.someUntil (fun hij => (iha ha hij).2) (fun hij => (ihb hb hij).2) hij⟩
    all_goals cases hmin

end IsBisimulation

/-! ## Models that say the same -/

/-- Every initial state of a model is related to one of the other model. -/
structure RelatesInitials (m : Model ι) (n : Model κ) (R : Nat → Nat → Prop) : Prop where
  forth : ∀ i ∈ m.initials, ∃ j ∈ n.initials, R i j
  back : ∀ j ∈ n.initials, ∃ i ∈ m.initials, R i j

theorem RelatesInitials.accepts_iff (h : m.RelatesInitials n R)
    (hP : ∀ {i j}, R i j → (P i ↔ Q j)) (policy : Policy) :
    policy.Accepts m.initials P ↔ policy.Accepts n.initials Q := by
  cases policy with
  | any =>
    constructor
    · rintro ⟨i, hi, hPi⟩
      obtain ⟨j, hj, hij⟩ := h.forth i hi
      exact ⟨j, hj, (hP hij).1 hPi⟩
    · rintro ⟨j, hj, hQj⟩
      obtain ⟨i, hi, hij⟩ := h.back j hj
      exact ⟨i, hi, (hP hij).2 hQj⟩
  | all =>
    constructor
    · intro hall j hj
      obtain ⟨i, hi, hij⟩ := h.back j hj
      exact (hP hij).1 (hall i hi)
    · intro hall i hi
      obtain ⟨j, hj, hij⟩ := h.forth i hi
      exact (hP hij).2 (hall j hj)

theorem mem_states_ofList {s : State ι} {states : List (State ι)} :
    s ∈ (ofList states).states ↔ s ∈ states :=
  List.mem_toArray

/-- The state `t` is the state `s` of the model, with the ids renamed by `e`. Only the transitions
    that lead to states of the model have to agree. -/
structure IsCopy (m : Model ι) (e : ι → κ) (s : State ι) (t : State κ) : Prop where
  id : t.id = e s.id
  isInitial : s.isInitial = t.isInitial
  has : ∀ name, s.has name = t.has name
  transitions : ∀ u ∈ m.states, u.id ∈ s.transitions ↔ e u.id ∈ t.transitions

/-- One model has copies of the states of the other, each at least once, and nothing else. Their ids
    are renamed by `e`, and transitions to ids that no state has may differ. -/
structure Resembles (m : Model ι) (n : Model κ) (e : ι → κ) : Prop where
  forth : ∀ s ∈ m.states, ∃ t ∈ n.states, m.IsCopy e s t
  back : ∀ t ∈ n.states, ∃ s ∈ m.states, m.IsCopy e s t

/-- A state of `n` is a copy of one of `m`. -/
def CopyAt (m : Model ι) (n : Model κ) (e : ι → κ) (i j : Nat) : Prop :=
  ∃ s t, m.states[i]? = some s ∧ n.states[j]? = some t ∧ m.IsCopy e s t

theorem Resembles.exists_right (h : m.Resembles n e) {s : State ι} (hs : m.states[i]? = some s) :
    ∃ (j : Nat) (t : State κ), n.states[j]? = some t ∧ m.IsCopy e s t := by
  obtain ⟨t, ht, hcopy⟩ := h.forth s (Array.mem_of_getElem? hs)
  obtain ⟨j, hj⟩ := Array.mem_iff_getElem?.1 ht
  exact ⟨j, t, hj, hcopy⟩

theorem Resembles.exists_left (h : m.Resembles n e) {t : State κ} (ht : n.states[j]? = some t) :
    ∃ (i : Nat) (s : State ι), m.states[i]? = some s ∧ m.IsCopy e s t := by
  obtain ⟨s, hs, hcopy⟩ := h.back t (Array.mem_of_getElem? ht)
  obtain ⟨i, hi⟩ := Array.mem_iff_getElem?.1 hs
  exact ⟨i, s, hi, hcopy⟩

theorem Resembles.isBisimulation (h : m.Resembles n e) : m.IsBisimulation n (m.CopyAt n e) := by
  refine ⟨?_, ?_, ?_⟩
  · rintro i j ⟨s, t, hs, ht, hcopy⟩
    exact ⟨s, t, hs, ht, hcopy.has⟩
  · rintro i j i' ⟨s, t, hs, ht, hcopy⟩ ⟨s', u, hs', hu, hstep⟩
    obtain rfl : s = s' := Option.some.inj (hs.symm.trans hs')
    obtain ⟨j', v, hv, hcopy'⟩ := h.exists_right hu
    have hlive : v.id ∈ t.transitions :=
      hcopy'.id ▸ (hcopy.transitions u (Array.mem_of_getElem? hu)).1 hstep
    exact ⟨j', ⟨t, v, ht, hv, hlive⟩, u, v, hu, hv, hcopy'⟩
  · rintro i j j' ⟨s, t, hs, ht, hcopy⟩ ⟨t', v, ht', hv, hstep⟩
    obtain rfl : t = t' := Option.some.inj (ht.symm.trans ht')
    obtain ⟨i', u, hu, hcopy'⟩ := h.exists_left hv
    have hlive : u.id ∈ s.transitions :=
      (hcopy.transitions u (Array.mem_of_getElem? hu)).2 (hcopy'.id ▸ hstep)
    exact ⟨i', ⟨s, u, hs, hu, hlive⟩, u, v, hu, hv, hcopy'⟩

theorem Resembles.relatesInitials (h : m.Resembles n e) :
    m.RelatesInitials n (m.CopyAt n e) := by
  constructor
  · intro i hi
    obtain ⟨s, hs, hinitial⟩ := mem_initials.1 hi
    obtain ⟨j, t, ht, hcopy⟩ := h.exists_right hs
    exact ⟨j, mem_initials.2 ⟨t, ht, hcopy.isInitial ▸ hinitial⟩, s, t, hs, ht, hcopy⟩
  · intro j hj
    obtain ⟨t, ht, hinitial⟩ := mem_initials.1 hj
    obtain ⟨i, s, hs, hcopy⟩ := h.exists_left ht
    exact ⟨i, mem_initials.2 ⟨s, hs, hcopy.isInitial ▸ hinitial⟩, s, t, hs, ht, hcopy⟩

end Model

/-! ## Checking -/

namespace Checker

variable [DecidableEq ι] [Hashable ι] [DecidableEq κ] [Hashable κ]

theorem check_eq_of_isBisimulation (h : m.IsBisimulation n R) (hinitials : m.RelatesInitials n R)
    (hf : f.isNormal = true) (policy : Policy) : check m policy f = check n policy f := by
  obtain ⟨b, hb, hbiff⟩ := exists_check_eq m policy hf
  obtain ⟨b', hb', hbiff'⟩ := exists_check_eq n policy hf
  have hsame : b = b' := by
    rw [Bool.eq_iff_iff, hbiff, hbiff', hinitials.accepts_iff (h.holds_iff hf)]
  rw [hb, hb', hsame]

/-- **Related states are in the sets computed for a normalized formula together or not at all**, and
    if each initial state is related to one, both models have the same verdict. So renamed ids,
    dangling transitions and states that a model has more than once never change a verdict. -/
theorem sat_of_isBisimulation (m : Model ι) (n : Model κ) (hf : f.isNormal = true) :
    (∀ R, m.IsBisimulation n R →
      (∃ s t, (∀ k, (((ofModel m).sat f).exec k).1 = .ok s) ∧
        (∀ k, (((ofModel n).sat f).exec k).1 = .ok t) ∧
        ∀ i j, R i j → (s.contains i = true ↔ t.contains j = true)) ∧
      (m.RelatesInitials n R → ∀ policy, check m policy f = check n policy f)) ∧
    ∀ e, m.Resembles n e → ∀ policy, check m policy f = check n policy f := by
  refine ⟨fun R h => ⟨?_, ?_⟩, ?_⟩
  · obtain ⟨s, k, hs, hsrep⟩ := (ofModel m).finds_of_isNormal hf
    obtain ⟨t, l, ht, htrep⟩ := (ofModel n).finds_of_isNormal hf
    refine ⟨s, t, fun k => by rw [hs k], fun k => by rw [ht k], ?_⟩
    intro i j hij
    obtain ⟨_, _, hi, hj, -⟩ := h.alike hij
    rw [hsrep.mem i (Array.getElem?_eq_some_iff.1 hi).1,
      htrep.mem j (Array.getElem?_eq_some_iff.1 hj).1]
    exact h.holds_iff hf hij
  · exact fun hinitials policy => check_eq_of_isBisimulation h hinitials hf policy
  · exact fun e h policy => check_eq_of_isBisimulation h.isBisimulation h.relatesInitials hf policy

/-- A state that leads to a second one, and to nowhere. -/
def stateOne : State Nat := (((State.ofId 0).setInitial true).addProperty "p").addTransitions [7, 1]

/-- The second state, which leads back. -/
def stateTwo : State Nat := ((State.ofId 1).addProperty "q").addTransition 0

/-- Names for the ids of the two states. -/
def nameOf (i : Nat) : String := if i = 0 then "one" else "two"

/-- The first state by name, without the transition to nowhere. -/
def namedOne : State String :=
  (((State.ofId "one").setInitial true).addProperty "p").addTransition "two"

/-- The second state by name. -/
def namedTwo : State String := ((State.ofId "two").addProperty "q").addTransition "one"

theorem isCopy_one : (Model.ofList [stateOne, stateTwo]).IsCopy nameOf stateOne namedOne := by
  refine ⟨rfl, rfl, fun _ => rfl, ?_⟩
  simp only [Model.mem_states_ofList, List.forall_mem_cons]
  decide

theorem isCopy_two : (Model.ofList [stateOne, stateTwo]).IsCopy nameOf stateTwo namedTwo := by
  refine ⟨rfl, rfl, fun _ => rfl, ?_⟩
  simp only [Model.mem_states_ofList, List.forall_mem_cons]
  decide

/-- The second state by name is there twice, before the first one and behind it. -/
theorem resembles_named :
    (Model.ofList [stateOne, stateTwo]).Resembles (.ofList [namedTwo, namedOne, namedTwo])
      nameOf := by
  constructor <;> simp only [Model.mem_states_ofList, List.forall_mem_cons]
  · exact ⟨⟨namedOne, by simp, isCopy_one⟩, ⟨namedTwo, by simp, isCopy_two⟩, by simp⟩
  · have hone : ∃ s ∈ [stateOne, stateTwo],
        (Model.ofList [stateOne, stateTwo]).IsCopy nameOf s namedOne :=
      ⟨stateOne, by simp, isCopy_one⟩
    have htwo : ∃ s ∈ [stateOne, stateTwo],
        (Model.ofList [stateOne, stateTwo]).IsCopy nameOf s namedTwo :=
      ⟨stateTwo, by simp, isCopy_two⟩
    exact ⟨htwo, hone, htwo, by simp⟩

theorem sat_of_isBisimulation_named :
    let m : Model Nat := .ofList [stateOne, stateTwo]
    let n : Model String := .ofList [namedTwo, namedOne, namedTwo]
    let f : Formula := .eg (.eu (.atom "p") (.atom "q"))
    f.isNormal = true ∧ m.Resembles n nameOf ∧ m.IsBisimulation n (m.CopyAt n nameOf) ∧
    m.RelatesInitials n (m.CopyAt n nameOf) ∧ m.CopyAt n nameOf 1 2 ∧
    (∃ s t, (∀ k, (((ofModel m).sat f).exec k).1 = .ok s) ∧
      (∀ k, (((ofModel n).sat f).exec k).1 = .ok t) ∧
      (s.contains 1 = true ↔ t.contains 2 = true)) ∧
    check m .any f = check n .any f ∧ check m .all f = check n .all f := by
  intro m n f
  have hrelated : m.CopyAt n nameOf 1 2 := ⟨stateTwo, namedTwo, rfl, rfl, isCopy_two⟩
  have hbisimulation := resembles_named.isBisimulation
  have hinitials := resembles_named.relatesInitials
  obtain ⟨hrelation, hcopies⟩ := sat_of_isBisimulation m n (f := f) rfl
  obtain ⟨⟨s, t, hs, ht, hsame⟩, hverdict⟩ := hrelation _ hbisimulation
  exact ⟨rfl, resembles_named, hbisimulation, hinitials, hrelated,
    ⟨s, t, hs, ht, hsame 1 2 hrelated⟩, hverdict hinitials .any, hcopies _ resembles_named .all⟩

end Checker

end BranchingTime
