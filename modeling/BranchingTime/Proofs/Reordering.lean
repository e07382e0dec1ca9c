import BranchingTime.Proofs.Mirroring
import Mathlib.Data.List.Perm.Basic
import Mathlib.Logic.Equiv.Fin.Basic

set_option autoImplicit false

/-! # The order of the states

The order in which a model has its states decides their indices, and with them the order of the
successors, the bits of every set, and the order in which ids are listed. Nothing else depends on
it: a model with its states in another order mirrors the model, whatever ids the states share and
whatever transitions lead nowhere. -/

namespace BranchingTime

open CheckM (Alike)

variable {ι : Type}

namespace Model

variable {m m' : Model ι}

/-- The model that has in place of `i` the state which `m` has in place of `σ i`. -/
def permute (m : Model ι) (σ : Equiv.Perm (Fin m.size)) : Model ι :=
  ⟨Array.ofFn fun i => m.states[σ i]⟩

theorem mirrors_permute (m : Model ι) (σ : Equiv.Perm (Fin m.size)) :
    m.Mirrors (m.permute σ) σ Set.univ := by
  refine ⟨rfl, Array.size_ofFn, fun i => ?_⟩
  refine ⟨m.states[σ i], m.states[σ i], ?_, ?_, rfl, rfl, rfl, fun _ _ => rfl⟩
  · simp
  · simp [permute]

/-- Every order of the states comes about in this way, also if some states are equal. -/
theorem exists_eq_permute (h : m'.states.Perm m.states) : ∃ σ, m' = m.permute σ := by
  classical
  have hlist : m'.states.toList.Perm m.states.toList := h.toList
  have hsize : m.size = m'.size := hlist.length_eq.symm
  let place : Fin m'.size ≃ Fin m.size :=
    { toFun := hlist.idxBij
      invFun := hlist.symm.idxBij
      left_inv := hlist.idxBij_rightInverse_idxBij_symm
      right_inv := hlist.idxBij_leftInverse_idxBij_symm }
  refine ⟨(finCongr hsize).trans place, ?_⟩
  have hstates : m'.states = (m.permute ((finCongr hsize).trans place)).states := by
    refine Array.ext (hsize.symm.trans Array.size_ofFn.symm) fun i hi _ => ?_
    have hget := hlist.getElem_idxBij_eq_getElem ⟨i, hi⟩
    simp only [permute, Array.getElem_ofFn]
    exact hget.symm
  exact congrArg Model.mk hstates

end Model

namespace Checker

variable [DecidableEq ι] [Hashable ι]

/-- **The order of the states does not matter.** Every model with the same states in another order
    is `m.permute σ` for some `σ`. Whatever the `σ`, the set computed for any formula is the same
    set of states by their new indices, the verdict is the same under either policy, and the same
    ids are listed, in some order. What fails in one order fails in the other with the same error,
    and the loops count equally many changes. -/
theorem alike_permute (m : Model ι) (policy : Policy) (f : Formula) :
    (∀ m' : Model ι, m'.states.Perm m.states → ∃ σ, m' = m.permute σ) ∧
    ∀ σ : Equiv.Perm (Fin m.size),
      Alike (BitSet.Mirrors σ) ((ofModel m).sat f) ((ofModel (m.permute σ)).sat f) ∧
      Alike Eq ((ofModel m).holds policy f) ((ofModel (m.permute σ)).holds policy f) ∧
      Alike List.Perm ((ofModel m).satisfying f) ((ofModel (m.permute σ)).satisfying f) ∧
      Alike List.Perm ((ofModel m).violations f) ((ofModel (m.permute σ)).violations f) := by
  refine ⟨fun _ => Model.exists_eq_permute, fun σ => ?_⟩
  have h : (ofModel m).model.Mirrors (ofModel (m.permute σ)).model σ Set.univ := m.mirrors_permute σ
  have hf : ∀ name ∈ f.names, name ∈ Set.univ := fun _ _ => trivial
  exact ⟨sat_alike h hf, holds_alike h hf policy, satisfying_alike h hf, violations_alike h hf⟩

/-- A state that leads to both states with its id, and to nowhere. -/
def twinOne : State Nat := ((State.ofId 0).addProperty "p").addTransitions [0, 5]

/-- The other state with the id, from which nothing comes. -/
def twinTwo : State Nat := (State.ofId 0).setInitial true

/-- The second operand of the formula is refused when the first one has been evaluated. -/
theorem alike_permute_twins :
    let m : Model Nat := .ofList [twinOne, twinTwo]
    let m' : Model Nat := .ofList [twinTwo, twinOne]
    let f : Formula := .and (.eu (.atom "p") (.not (.atom "p"))) (.af (.atom "p"))
    m'.states.Perm m.states ∧
    (∃ σ, m' = m.permute σ ∧ Alike (BitSet.Mirrors σ) ((ofModel m).sat f) ((ofModel m').sat f)) ∧
    Alike Eq ((ofModel m).holds .any f) ((ofModel m').holds .any f) ∧
    Alike List.Perm ((ofModel m).satisfying f) ((ofModel m').satisfying f) ∧
    Alike List.Perm ((ofModel m).violations f) ((ofModel m').violations f) := by
  intro m m' f
  have hperm : m'.states.Perm m.states := Array.perm_iff_toList_perm.2 (.swap _ _ _)
  obtain ⟨hreordered, halike⟩ := alike_permute m .any f
  obtain ⟨σ, hσ⟩ := hreordered m' hperm
  obtain ⟨hsat, hholds, hsatisfying, hviolations⟩ := halike σ
  rw [← hσ] at hsat hholds hsatisfying hviolations
  exact ⟨hperm, ⟨σ, hσ, hsat⟩, hholds, hsatisfying, hviolations⟩

end Checker

end BranchingTime
