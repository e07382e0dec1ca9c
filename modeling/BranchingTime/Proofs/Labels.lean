import BranchingTime.Proofs.Mirroring
import BranchingTime.Proofs.Safety

set_option autoImplicit false

/-! # Properties that a formula does not name

Two models whose states differ at most in properties that a formula does not name are the same to
it: each mirrors the other, with every state in its own place. So the sets computed for the formula
are not just related but equal, the loops run equally often, and the indices found stand for the
same ids. The names are those of `Formula.atoms`; as normalization keeps them, it does not matter
whether they are collected before or after it, nor that a text is read as a normalized formula
(`Checker.sat_reads_only_names`). -/

namespace BranchingTime

variable {ι : Type}

/-! ## Models -/

namespace Model

variable {m m' : Model ι} {names : Set String}

/-- In every place the two models have states that differ at most in properties with other names. -/
structure AgreesOn (m m' : Model ι) (names : Set String) : Prop where
  size : m'.size = m.size
  state : ∀ {i : Nat} {s t : State ι}, m.states[i]? = some s → m'.states[i]? = some t →
    s.AgreesOn names t

namespace AgreesOn

/-- An index stands for two such states, or for none. -/
theorem get_or_none (h : m.AgreesOn m' names) (i : Nat) :
    (∃ s t, m.states[i]? = some s ∧ m'.states[i]? = some t ∧ s.AgreesOn names t) ∨
      m.states[i]? = none ∧ m'.states[i]? = none := by
  have hsize : m'.states.size = m.states.size := h.size
  by_cases hi : i < m.states.size
  · have hs : m.states[i]? = some m.states[i] := Array.getElem?_eq_getElem hi
    have ht : m'.states[i]? = some m'.states[i] := Array.getElem?_eq_getElem (hsize ▸ hi)
    exact .inl ⟨_, _, hs, ht, h.state hs ht⟩
  · have hle : m.states.size ≤ i := Nat.le_of_not_lt hi
    exact .inr ⟨Array.getElem?_eq_none hle, Array.getElem?_eq_none (hsize ▸ hle)⟩

theorem mirrors (h : m.AgreesOn m' names) : m.Mirrors m' (.refl (Fin m.size)) names := by
  refine ⟨rfl, h.size, fun i => ?_⟩
  rcases h.get_or_none i with hstates | ⟨hnone, -⟩
  · exact hstates
  · exact absurd i.isLt (Nat.not_lt_of_le (Array.getElem?_eq_none_iff.1 hnone))

theorem initials_eq (h : m.AgreesOn m' names) : m.initials = m'.initials := by
  rw [initials, initials, indicesWhere, indicesWhere, h.size]
  refine List.filter_congr fun i _ => ?_
  rcases h.get_or_none i with ⟨s, t, hs, ht, hagree⟩ | ⟨hs, ht⟩
  · rw [hs, ht]
    exact hagree.isInitial.symm
  · rw [hs, ht]

end AgreesOn

/-- The model with one more property in every state. -/
def mark (m : Model ι) (p : String) : Model ι := ⟨m.states.map (·.addProperty p)⟩

/-- A property that is not among the names can be put anywhere. -/
theorem agreesOn_mark (m : Model ι) {p : String} (hp : p ∉ names) :
    m.AgreesOn (m.mark p) names := by
  refine ⟨Array.size_map, fun {i s t} hs ht => ?_⟩
  obtain rfl : s.addProperty p = t := by simpa [mark, hs] using ht
  refine ⟨rfl, rfl, rfl, fun name hname => ?_⟩
  have hne : p ≠ name := fun h => hp (h ▸ hname)
  simp [State.has, State.addProperty, hne]

end Model

/-! ## Checking -/

namespace Checker

variable [DecidableEq ι] [Hashable ι] {c c' : Checker ι} {names : Set String} {f : Formula}

/-- What the checkers answer about the formula, and what they count for it, is the same. -/
structure SameAnswers (c c' : Checker ι) (f : Formula) : Prop where
  sat : c.sat f = c'.sat f
  holds : ∀ policy, c.holds policy f = c'.holds policy f
  satisfying : c.satisfying f = c'.satisfying f
  violations : c.violations f = c'.violations f

theorem sat_eq_of_agreesOn (h : c.model.AgreesOn c'.model names)
    (hf : ∀ name ∈ f.names, name ∈ names) : c.sat f = c'.sat f :=
  -- equal sets are what is left of the mirroring when no state moves
  ((sat_alike h.mirrors hf).mono fun _ _ hst => hst.eq_of_refl).eq

theorem accepts_eq_of_agreesOn (h : c.model.AgreesOn c'.model names) (policy : Policy)
    (set : BitSet) : c.accepts policy set = c'.accepts policy set := by
  cases policy <;> simp [accepts, h.initials_eq]

/-- An index stands for one id, and there are none for it beyond the states. -/
theorem idsAt_eq_of_agreesOn (h : c.model.AgreesOn c'.model names) (indices : List Nat) :
    c.idsAt indices = c'.idsAt indices := by
  refine congrArg (fun id => indices.mapM id) (funext fun i => ?_)
  rcases h.get_or_none i with ⟨s, t, hs, ht, hagree⟩ | ⟨hs, ht⟩
  · simp only [Model.state?, hs, ht, hagree.id]
  · simp only [Model.state?, hs, ht, h.size]

/-- **What is answered about a formula depends on the names in it alone.** -/
theorem sameAnswers_of_agreesOn (h : c.model.AgreesOn c'.model names)
    (hf : ∀ name ∈ f.names, name ∈ names) : SameAnswers c c' f := by
  have hsat := sat_eq_of_agreesOn h hf
  constructor
  · exact hsat
  · intro policy
    simp only [holds, hsat, accepts_eq_of_agreesOn h]
  · simp only [satisfying, ids, hsat, idsAt_eq_of_agreesOn h]
  · simp only [violations, hsat, h.initials_eq, idsAt_eq_of_agreesOn h]

theorem sameAnswers_of_agreesOn_atoms (h : c.model.AgreesOn c'.model {name | name ∈ f.atoms}) :
    SameAnswers c c' f :=
  sameAnswers_of_agreesOn h fun _ hname => Formula.mem_atoms.2 hname

/-- **Only the properties that a formula names are read.** Models that agree on these, in all states
    and besides them in everything, give the same answers in the same number of steps, whether or
    not the formula is normalized first, and whether or not it is read from a text. -/
theorem sat_reads_only_names (m m' : Model ι) :
    (∀ f : Formula, m.AgreesOn m' {name | name ∈ f.atoms} →
      SameAnswers (ofModel m) (ofModel m') f ∧
      SameAnswers (ofModel m) (ofModel m') f.normalize) ∧
    (∀ text f, Formula.parse text = .ok f → m.AgreesOn m' {name | name ∈ f.atoms} →
      SameAnswers (ofModel m) (ofModel m') f ∧
      ∀ policy, checkText m policy text = checkText m' policy text) ∧
    ∀ g : Formula, g.normalize.atoms.toList = g.atoms.toList := by
  refine ⟨fun f h => ⟨?_, ?_⟩, fun text f hparse h => ?_, Formula.toList_atoms_normalize⟩
  · exact sameAnswers_of_agreesOn_atoms h
  · refine sameAnswers_of_agreesOn h fun name hname => ?_
    exact Formula.mem_atoms.2 (Formula.mem_names_normalize.1 hname)
  · have hsame : SameAnswers (ofModel m) (ofModel m') f := sameAnswers_of_agreesOn_atoms h
    refine ⟨hsame, fun policy => ?_⟩
    have hcheck : check m policy f = check m' policy f :=
      congrArg CheckM.result (hsame.holds policy)
    rw [checkText, checkText, hparse]
    exact hcheck

theorem sat_reads_only_names_marked :
    let m' := sharing.mark "r"
    sharing.AgreesOn m' {name | name ∈ pUntilQ.atoms} ∧
    Formula.parse pUntilQ.render = .ok pUntilQ ∧
    SameAnswers (ofModel sharing) (ofModel m') pUntilQ ∧
    SameAnswers (ofModel sharing) (ofModel m') pUntilQ.normalize ∧
    checkText sharing .all pUntilQ.render = checkText m' .all pUntilQ.render := by
  intro m'
  have hr : "r" ∉ {name | name ∈ pUntilQ.atoms} := fun h =>
    absurd (Formula.mem_atoms.1 h) (by decide)
  have hagrees : sharing.AgreesOn m' {name | name ∈ pUntilQ.atoms} := sharing.agreesOn_mark hr
  have hparse : Formula.parse pUntilQ.render = .ok pUntilQ :=
    Formula.parse_render_eq_self rfl rfl rfl
  obtain ⟨hanswers, htexts, -⟩ := sat_reads_only_names sharing m'
  exact ⟨hagrees, hparse, (hanswers _ hagrees).1, (hanswers _ hagrees).2,
    (htexts _ _ hparse hagrees).2 .all⟩

end Checker

end BranchingTime
