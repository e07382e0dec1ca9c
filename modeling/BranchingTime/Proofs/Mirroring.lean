import BranchingTime.Proofs.Bisimulation
import BranchingTime.Proofs.Members
import BranchingTime.Proofs.TwoRuns
import Mathlib.Data.Fin.Basic
import Mathlib.Data.List.Nodup
import Mathlib.Data.Set.List

set_option autoImplicit false

/-! # Models that mirror each other

One model mirrors another if it has the other's states in other places, up to properties whose names
do not matter (`Model.Mirrors`). All that a checker asks a model for is mirrored then: steps,
labels, initial states and ids. So checking a formula runs alike on both models as long as the
formula names none of those properties. The sets computed mirror each other (`BitSet.Mirrors`), the
loops change them equally often, and both runs fail at the same operator if one does.

Formulas that are not normalized are included, so the proof goes by what `sat` does and not by where
formulas hold. -/

namespace BranchingTime

open CheckM (Alike alike_pure alike_permit alike_throw)

variable {n : Nat} {σ : Equiv.Perm (Fin n)}

/-! ## Sets -/

namespace BitSet

variable {P Q : Nat → Prop} {s s' t t' u : BitSet}

/-- The index `i` is in the second set exactly if `σ i` is in the first. -/
structure Mirrors (σ : Equiv.Perm (Fin n)) (s t : BitSet) : Prop where
  left : s.bound = n
  right : t.bound = n
  contains : ∀ i : Fin n, t.contains i = s.contains (σ i)

theorem Represents.mirrors (hs : s.Represents n P) (ht : t.Represents n Q)
    (h : ∀ i : Fin n, Q i ↔ P (σ i)) : Mirrors σ s t := by
  refine ⟨hs.bound, ht.bound, fun i => ?_⟩
  rw [Bool.eq_iff_iff, ht.mem i i.isLt, hs.mem _ (σ i).isLt]
  exact h i

namespace Mirrors

theorem represents_left (h : Mirrors σ s t) : s.Represents n (fun i => s.contains i = true) :=
  ⟨h.left, fun _ _ => Iff.rfl⟩

theorem represents_right (h : Mirrors σ s t) : t.Represents n (fun i => t.contains i = true) :=
  ⟨h.right, fun _ _ => Iff.rfl⟩

theorem symm (h : Mirrors σ s t) : Mirrors σ.symm t s := by
  refine ⟨h.right, h.left, fun i => ?_⟩
  rw [h.contains, Equiv.apply_symm_apply]

/-- A set mirrors no two sets. -/
theorem eq_right (h : Mirrors σ s t) (h' : Mirrors σ s u) : t = u := by
  refine h.represents_right.unique ⟨h'.right, fun i hi => ?_⟩
  rw [h'.contains ⟨i, hi⟩, h.contains ⟨i, hi⟩]

/-- Nothing moves, so a set mirrors none but itself. -/
theorem eq_of_refl (h : Mirrors (.refl (Fin n)) s t) : s = t := by
  have hs : Mirrors (.refl (Fin n)) s s := ⟨h.left, h.left, fun _ => rfl⟩
  exact hs.eq_right h

theorem biUnique (σ : Equiv.Perm (Fin n)) : Relator.BiUnique (Mirrors σ) :=
  ⟨fun _ _ _ h h' => h.symm.eq_right h'.symm, fun _ _ _ h h' => h.eq_right h'⟩

theorem compl (h : Mirrors σ s t) : Mirrors σ s.compl t.compl :=
  h.represents_left.compl.mirrors h.represents_right.compl fun i => by rw [h.contains]

theorem union (h : Mirrors σ s t) (h' : Mirrors σ s' t') :
    BothGive (Mirrors σ) (s.union s') (t.union t') := by
  obtain ⟨u, hu, hurep⟩ := h.represents_left.union h'.represents_left
  obtain ⟨v, hv, hvrep⟩ := h.represents_right.union h'.represents_right
  exact ⟨u, v, hu, hv, hurep.mirrors hvrep fun i => by rw [h.contains, h'.contains]⟩

theorem inter (h : Mirrors σ s t) (h' : Mirrors σ s' t') :
    BothGive (Mirrors σ) (s.inter s') (t.inter t') := by
  obtain ⟨u, hu, hurep⟩ := h.represents_left.inter h'.represents_left
  obtain ⟨v, hv, hvrep⟩ := h.represents_right.inter h'.represents_right
  exact ⟨u, v, hu, hv, hurep.mirrors hvrep fun i => by rw [h.contains, h'.contains]⟩

end Mirrors

end BitSet

/-! ## Models -/

variable {ι : Type}

/-- The states differ at most in properties with other names. -/
structure State.AgreesOn (names : Set String) (s t : State ι) : Prop where
  id : t.id = s.id
  isInitial : t.isInitial = s.isInitial
  transitions : t.transitions = s.transitions
  has : ∀ name ∈ names, t.has name = s.has name

namespace Model

variable {m m' : Model ι} {names : Set String} {A B : Nat → Prop} {i j : Fin n}

/-- The second model has in place of `i` the state that the first has in place of `σ i`, up to
    properties with other names. -/
structure Mirrors (m m' : Model ι) (σ : Equiv.Perm (Fin n)) (names : Set String) : Prop where
  left : m.size = n
  right : m'.size = n
  state : ∀ i : Fin n, ∃ s t, m.states[(σ i).val]? = some s ∧ m'.states[i.val]? = some t ∧
    s.AgreesOn names t

namespace Mirrors

theorem has_iff (h : m.Mirrors m' σ names) {name : String} (hname : name ∈ names) :
    (∃ t, m'.states[i.val]? = some t ∧ t.has name = true) ↔
      ∃ s, m.states[(σ i).val]? = some s ∧ s.has name = true := by
  obtain ⟨s, t, hs, ht, hagree⟩ := h.state i
  simp [hs, ht, hagree.has name hname]

theorem mem_initials_iff (h : m.Mirrors m' σ names) :
    i.val ∈ m'.initials ↔ (σ i).val ∈ m.initials := by
  obtain ⟨s, t, hs, ht, hagree⟩ := h.state i
  simp [mem_initials, hs, ht, hagree.isInitial]

theorem id_eq (h : m.Mirrors m' σ names) (i : Fin n) :
    m'.states[i.val]?.map State.id = m.states[(σ i).val]?.map State.id := by
  obtain ⟨s, t, hs, ht, hagree⟩ := h.state i
  simp [hs, ht, hagree.id]

theorem step_iff (h : m.Mirrors m' σ names) : m'.Step i j ↔ m.Step (σ i) (σ j) := by
  obtain ⟨s, t, hs, ht, hagree⟩ := h.state i
  obtain ⟨u, v, hu, hv, hagree'⟩ := h.state j
  simp [Step, hs, ht, hu, hv, hagree.transitions, hagree'.id]

/-- No step leads out of the model. -/
theorem someNext_iff (hsize : m.size = n) (i : Nat) :
    SomeNext m.Step A i ↔ ∃ j : Fin n, m.Step i j ∧ A j := by
  constructor
  · rintro ⟨j, hij, hj⟩
    exact ⟨⟨j, hsize ▸ hij.lt_right⟩, hij, hj⟩
  · rintro ⟨j, hij, hj⟩
    exact ⟨j, hij, hj⟩

theorem someNext_mirrored (h : m.Mirrors m' σ names) (hAB : ∀ i : Fin n, B i ↔ A (σ i)) :
    SomeNext m'.Step B i ↔ SomeNext m.Step A (σ i) := by
  rw [someNext_iff h.right, someNext_iff h.left]
  exact σ.exists_congr fun j => and_congr h.step_iff (hAB j)

theorem relatesInitials (h : m.Mirrors m' σ names) :
    m.RelatesInitials m' fun i j => ∃ k : Fin n, i = σ k ∧ j = k := by
  constructor
  · intro i hi
    obtain ⟨k, hk⟩ := σ.surjective ⟨i, h.left ▸ lt_size_of_mem_indicesWhere hi⟩
    obtain rfl : i = σ k := congrArg Fin.val hk.symm
    exact ⟨k, h.mem_initials_iff.2 hi, k, rfl, rfl⟩
  · intro j hj
    let k : Fin n := ⟨j, h.right ▸ lt_size_of_mem_indicesWhere hj⟩
    exact ⟨σ k, h.mem_initials_iff.1 hj, k, rfl, rfl⟩

end Mirrors

end Model

/-! ## Checking -/

namespace Checker

variable [DecidableEq ι] [Hashable ι] {c c' : Checker ι} {names : Set String}
  {s t v w : BitSet} {a b f : Formula}

open BitSet (Mirrors)

theorem pre_mirrored (h : c.model.Mirrors c'.model σ names) (hst : Mirrors σ s t) :
    BothGive (Mirrors σ) (c.pre s) (c'.pre t) := by
  obtain ⟨u, hu, hurep⟩ := c.pre_represents s
  obtain ⟨v, hv, hvrep⟩ := c'.pre_represents t
  refine ⟨u, v, hu, hv, (h.left ▸ hurep).mirrors (h.right ▸ hvrep) fun i => ?_⟩
  exact h.someNext_mirrored fun j => by rw [hst.contains]

theorem shrinkStep_mirrored (h : c.model.Mirrors c'.model σ names) (hst : Mirrors σ s t) :
    BothGive (Mirrors σ) (c.shrinkStep s) (c'.shrinkStep t) :=
  (pre_mirrored h hst).bind fun _ _ hp => hst.inter hp

theorem growStep_mirrored (h : c.model.Mirrors c'.model σ names) (hvw : Mirrors σ v w)
    (hst : Mirrors σ s t) : BothGive (Mirrors σ) (c.growStep v s) (c'.growStep w t) :=
  (pre_mirrored h hst).bind fun _ _ hp => (hvw.inter hp).bind fun _ _ hadded => hst.union hadded

theorem labelled_mirrored (h : c.model.Mirrors c'.model σ names) {name : String}
    (hname : name ∈ names) :
    BothGive (Mirrors σ) (BitSet.ofIndices c.model.size (c.model.indicesWith name))
      (BitSet.ofIndices c'.model.size (c'.model.indicesWith name)) := by
  obtain ⟨u, hu, hurep⟩ := c.labelled_represents name
  obtain ⟨v, hv, hvrep⟩ := c'.labelled_represents name
  exact ⟨u, v, hu, hv, (h.left ▸ hurep).mirrors (h.right ▸ hvrep) fun i => h.has_iff hname⟩

theorem truth_alike (h : c.model.Mirrors c'.model σ names) (b : Bool) :
    Alike (Mirrors σ) (c.sat (.truth b)) (c'.sat (.truth b)) := by
  cases b with
  | true =>
    have hc : c.states.Represents n fun _ => True := h.left ▸ BitSet.represents_full _
    have hc' : c'.states.Represents n fun _ => True := h.right ▸ BitSet.represents_full _
    exact alike_pure (hc.mirrors hc' fun _ => Iff.rfl)
  | false =>
    have hc : (BitSet.empty c.model.size).Represents n fun _ => False :=
      h.left ▸ BitSet.represents_empty _
    have hc' : (BitSet.empty c'.model.size).Represents n fun _ => False :=
      h.right ▸ BitSet.represents_empty _
    exact alike_pure (hc.mirrors hc' fun _ => Iff.rfl)

theorem connect_alike (o : Connective) (ha : Alike (Mirrors σ) (c.sat a) (c'.sat a))
    (hb : Alike (Mirrors σ) (c.sat b) (c'.sat b)) :
    Alike (Mirrors σ) (c.sat (.connect o a b)) (c'.sat (.connect o a b)) := by
  cases o with
  | and => exact ha.bind fun _ _ hst => hb.bind fun _ _ hst' => alike_permit (hst.inter hst')
  | or => exact ha.bind fun _ _ hst => hb.bind fun _ _ hst' => alike_permit (hst.union hst')
  | implies =>
    refine ha.bind fun s t hst => hb.bind fun s' t' hst' => ?_
    exact (alike_permit (hst.inter hst')).bind fun _ _ hboth =>
      alike_permit (hboth.union hst.compl)

theorem shrink_alike (h : c.model.Mirrors c'.model σ names) (hst : Mirrors σ s t) :
    Alike (Mirrors σ) (c.shrink s) (c'.shrink t) :=
  untilStable_alike (Mirrors.biUnique σ) (fun _ _ => shrinkStep_mirrored h) hst

theorem grow_alike (h : c.model.Mirrors c'.model σ names) (hvw : Mirrors σ v w)
    (hst : Mirrors σ s t) : Alike (Mirrors σ) (c.grow v s) (c'.grow w t) :=
  untilStable_alike (Mirrors.biUnique σ) (fun _ _ => growStep_mirrored h hvw) hst

/-- **A formula is evaluated alike on models that mirror each other for its names.** -/
theorem sat_alike (h : c.model.Mirrors c'.model σ names) (hf : ∀ name ∈ f.names, name ∈ names) :
    Alike (Mirrors σ) (c.sat f) (c'.sat f) := by
  induction f with
  | atom name => exact alike_permit (labelled_mirrored h (hf name List.mem_cons_self))
  | truth b => exact truth_alike h b
  | not a iha => exact (iha hf).bind fun s t hst => alike_pure hst.compl
  | connect o a b iha ihb =>
    obtain ⟨ha, hb⟩ := List.forall_mem_append.1 hf
    exact connect_alike o (iha ha) (ihb hb)
  | unary q o a iha =>
    rcases q, o with ⟨_ | _, _ | _ | _⟩
    case some.next => exact (iha hf).bind fun s t hst => alike_permit (pre_mirrored h hst)
    case some.always => exact (iha hf).bind fun s t hst => shrink_alike h hst
    -- the others are refused before their operands are looked at
    all_goals exact alike_throw _ _
  | binary q o a b iha ihb =>
    obtain ⟨ha, hb⟩ := List.forall_mem_append.1 hf
    rcases q, o with ⟨_ | _, _ | _ | _⟩
    case some.strongUntil =>
      exact (iha ha).bind fun v w hvw => (ihb hb).bind fun s t hst => grow_alike h hvw hst
    all_goals exact alike_throw _ _

/-! ## Verdicts and ids -/

theorem accepts_mirrored (h : c.model.Mirrors c'.model σ names) (hst : Mirrors σ s t)
    (policy : Policy) : c.accepts policy s = c'.accepts policy t := by
  have hs : s.Represents c.model.size fun i => s.contains i = true :=
    h.left ▸ hst.represents_left
  have ht : t.Represents c'.model.size fun i => t.contains i = true :=
    h.right ▸ hst.represents_right
  rw [Bool.eq_iff_iff, accepts_iff hs, accepts_iff ht]
  refine h.relatesInitials.accepts_iff ?_ policy
  rintro _ _ ⟨k, rfl, rfl⟩
  rw [hst.contains]

theorem holds_alike (h : c.model.Mirrors c'.model σ names)
    (hf : ∀ name ∈ f.names, name ∈ names) (policy : Policy) :
    Alike Eq (c.holds policy f) (c'.holds policy f) :=
  (sat_alike h hf).bind fun _ _ hst => alike_pure (accepts_mirrored h hst policy)

theorem idsAt_of_lt {indices : List Nat} (hlt : ∀ i ∈ indices, i < c.model.size) :
    c.idsAt indices = .ok (indices.filterMap fun i => c.model.states[i]?.map State.id) := by
  induction indices with
  | nil => rfl
  | cons i indices ih =>
    obtain ⟨hi, hrest⟩ := List.forall_mem_cons.1 hlt
    have hstate : c.model.states[i]? = some c.model.states[i] := Array.getElem?_eq_getElem hi
    rw [idsAt, List.mapM_cons, List.filterMap_cons, hstate]
    refine bind_eq_ok.2 ⟨c.model.states[i].id, ?_, bind_eq_ok.2 ⟨_, ih hrest, rfl⟩⟩
    rw [Model.state?, hstate]

/-- The ids found at places that the models mirror are the same, up to their order. -/
theorem idsAt_mirrored (h : c.model.Mirrors c'.model σ names) {k l : List Nat} (hk : k.Nodup)
    (hl : l.Nodup) (hklt : ∀ i ∈ k, i < n) (hllt : ∀ i ∈ l, i < n)
    (hmem : ∀ i : Fin n, i.val ∈ l ↔ (σ i).val ∈ k) :
    BothGive List.Perm (c.idsAt k) (c'.idsAt l) := by
  refine ⟨_, _, idsAt_of_lt (h.left ▸ hklt), idsAt_of_lt (h.right ▸ hllt), ?_⟩
  lift k to List (Fin n) using hklt
  lift l to List (Fin n) using hllt
  simp only [List.mem_map_of_injective Fin.val_injective] at hmem
  have hperm : k.Perm (l.map σ) := by
    refine (List.perm_ext_iff_of_nodup (.of_map _ hk) ((List.Nodup.of_map _ hl).map σ.injective)).2
      fun i => ?_
    obtain ⟨j, rfl⟩ := σ.surjective i
    rw [List.mem_map_of_injective σ.injective, hmem]
  have hids := hperm.filterMap fun i => c.model.states[i.val]?.map State.id
  simp only [List.filterMap_map, Function.comp_def, ← h.id_eq] at hids ⊢
  exact hids

theorem satisfying_alike (h : c.model.Mirrors c'.model σ names)
    (hf : ∀ name ∈ f.names, name ∈ names) :
    Alike List.Perm (c.satisfying f) (c'.satisfying f) := by
  refine (sat_alike h hf).bind fun s t hst => ?_
  have hlt : ∀ {u : BitSet}, u.bound = n → ∀ i ∈ u.toList, i < n :=
    fun hu i hi => hu ▸ BitSet.lt_bound_of_contains (BitSet.mem_toList.1 hi)
  refine alike_permit (idsAt_mirrored h s.nodup_toList t.nodup_toList (hlt hst.left)
    (hlt hst.right) fun i => ?_)
  rw [BitSet.mem_toList, BitSet.mem_toList, hst.contains]

theorem violations_alike (h : c.model.Mirrors c'.model σ names)
    (hf : ∀ name ∈ f.names, name ∈ names) :
    Alike List.Perm (c.violations f) (c'.violations f) := by
  refine (sat_alike h hf).bind fun s t hst => ?_
  refine alike_permit (idsAt_mirrored h (Model.nodup_indicesWhere.filter _)
    (Model.nodup_indicesWhere.filter _)
    (fun i hi => h.left ▸ Model.lt_size_of_mem_indicesWhere (List.mem_filter.1 hi).1)
    (fun i hi => h.right ▸ Model.lt_size_of_mem_indicesWhere (List.mem_filter.1 hi).1) fun i => ?_)
  rw [List.mem_filter, List.mem_filter, h.mem_initials_iff, hst.contains]

end Checker

end BranchingTime
