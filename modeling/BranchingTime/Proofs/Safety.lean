import BranchingTime.Proofs.Canonical
import BranchingTime.Proofs.Fusion
import BranchingTime.Proofs.Members
import BranchingTime.Proofs.Outcomes
import BranchingTime.Proofs.Verdicts

set_option autoImplicit false

/-! # Checking does not misuse what it is built on

Sets refuse indices beyond their bound and operands with different bounds, and a model has no state
at an index beyond its size. A checker never asks for that. Whatever the formula, the sets it works
on have the size of the model as their bound, and the indices it inserts and looks up are below it
(`Checker.Calls.respects`).

What the checker asks for is described by the calls that it makes (`Checker.Calls`), and a formula
is only refused for an operator or because one of these calls fails
(`Checker.sat_errsWithin_blamed`). As no call fails, operators outside the minimal set are all that
is left, and a formula that has been read has none. -/

namespace BranchingTime

open CheckM (Gives ErrsWithin)

/-! ## Calls that can fail -/

/-- A call of an operation that does not take all arguments. -/
inductive Call where
  /-- Insert an index into a set. -/
  | insert (s : BitSet) (i : Nat)
  /-- Combine two sets. -/
  | combine (s t : BitSet)
  /-- Look a state up by its index. -/
  | lookUp (i : Nat)

namespace Call

variable {n : Nat} {call : Call} {s t : BitSet} {e : Misuse} {indices : List Nat}

/-- What the call fails with in a model with `n` states, if it fails. -/
def failure? (n : Nat) : Call → Option Misuse
  | insert s i => if i < s.bound then none else some (.outOfBound i s.bound)
  | combine s t => if s.bound = t.bound then none else some .differentBounds
  | lookUp i => if i < n then none else some (.noState n i)

/-- The sets have the bound `n`, and the index is below it. -/
def Respects (n : Nat) : Call → Prop
  | insert s i => s.bound = n ∧ i < n
  | combine s t => s.bound = n ∧ t.bound = n
  | lookUp i => i < n

theorem Respects.failure?_eq_none (h : call.Respects n) : call.failure? n = none := by
  cases call <;> simp_all [Respects, failure?]

theorem failure?_of_insert {i : Nat} (h : s.insert i = .error e) :
    (insert s i).failure? n = some e := by
  unfold BitSet.insert at h
  split at h <;> cases h
  simp_all [failure?]

theorem failure?_of_combine {op : BitSet.BitOp} (h : BitSet.combine op s t = .error e) :
    (combine s t).failure? n = some e := by
  unfold BitSet.combine at h
  split at h <;> cases h
  simp_all [failure?]

/-- The calls made when the indices listed are put into the empty set, one after the other. -/
inductive Filling (n : Nat) (indices : List Nat) : Call → Prop
  | insert {before after : List Nat} {i : Nat} {s : BitSet} (hi : indices = before ++ i :: after)
      (hs : BitSet.ofIndices n before = .ok s) : Filling n indices (.insert s i)

theorem exists_filling_of_ofIndices {m : Nat} (h : BitSet.ofIndices n indices = .error e) :
    ∃ call, Filling n indices call ∧ call.failure? m = some e := by
  induction indices using List.reverseRecOn with
  | nil => cases h
  | append_singleton indices i ih =>
    rw [BitSet.ofIndices_concat] at h
    rcases bind_eq_error.1 h with h | ⟨s, hs, h⟩
    · obtain ⟨_, ⟨hj, hs⟩, hfails⟩ := ih h
      exact ⟨_, ⟨by rw [hj, List.append_assoc, List.cons_append], hs⟩, hfails⟩
    · exact ⟨_, ⟨rfl, hs⟩, failure?_of_insert (map_eq_error.1 h)⟩

theorem Filling.respects (h : Filling n indices call) (hlt : ∀ i ∈ indices, i < n) :
    call.Respects n := by
  obtain ⟨hi, hs⟩ := h
  exact ⟨BitSet.bound_of_ofIndices hs, hlt _ (by simp [hi])⟩

end Call

namespace Checker

variable {ι : Type} [DecidableEq ι] [Hashable ι]

/-! ## Calls of the checker -/

/-- The states with a successor in the set, in the order in which they are inserted. -/
def predecessors (c : Checker ι) (y : BitSet) : List Nat :=
  (List.range c.model.size).filter fun i => (c.successors.getD i []).any y.contains

/-- The calls made when the set of the states with a successor in `y` is computed. -/
abbrev PreCalls (c : Checker ι) (y : BitSet) : Call → Prop :=
  Call.Filling c.model.size (c.predecessors y)

/-- The calls made by `shrinkStep`. -/
inductive ShrinkCalls (c : Checker ι) (y : BitSet) : Call → Prop
  | pre {call : Call} (h : c.PreCalls y call) : ShrinkCalls c y call
  | inter {p : BitSet} (hp : c.pre y = .ok p) : ShrinkCalls c y (.combine y p)

/-- The calls made by `growStep`. -/
inductive GrowCalls (c : Checker ι) (w y : BitSet) : Call → Prop
  | pre {call : Call} (h : c.PreCalls y call) : GrowCalls c w y call
  | inter {p : BitSet} (hp : c.pre y = .ok p) : GrowCalls c w y (.combine w p)
  | union {p v : BitSet} (hp : c.pre y = .ok p) (hv : w.inter p = .ok v) :
      GrowCalls c w y (.combine y v)

/-- The calls made when the set of the states at which a formula holds is computed. Those of all
    operands are among them, even if one operand fails and the others are not looked at. -/
inductive Calls (c : Checker ι) : Formula → Call → Prop
  | operand {f g : Formula} {call : Call} (hg : g ∈ f.operands) (h : Calls c g call) :
      Calls c f call
  | atom {name : String} {call : Call}
      (h : Call.Filling c.model.size (c.model.indicesWith name) call) : Calls c (.atom name) call
  | compl {a : Formula} {x : BitSet} (hx : (c.sat a).Gives x) :
      Calls c (.not a) (.combine (.full x.bound) x)
  | connect {o : Connective} {a b : Formula} {x y : BitSet} (hx : (c.sat a).Gives x)
      (hy : (c.sat b).Gives y) : Calls c (.connect o a b) (.combine x y)
  | impliesCompl {a b : Formula} {x : BitSet} (hx : (c.sat a).Gives x) :
      Calls c (.implies a b) (.combine (.full x.bound) x)
  | impliesUnion {a b : Formula} {x y v : BitSet} (hx : (c.sat a).Gives x)
      (hy : (c.sat b).Gives y) (hv : x.inter y = .ok v) :
      Calls c (.implies a b) (.combine v x.compl)
  | ex {a : Formula} {x : BitSet} {call : Call} (hx : (c.sat a).Gives x)
      (h : c.PreCalls x call) : Calls c (.ex a) call
  | eg {a : Formula} {x y : BitSet} {call : Call} (hx : (c.sat a).Gives x)
      (hy : Leads c.shrinkStep x y) (h : c.ShrinkCalls y call) : Calls c (.eg a) call
  | eu {a b : Formula} {w x y : BitSet} {call : Call} (hw : (c.sat a).Gives w)
      (hx : (c.sat b).Gives x) (hy : Leads (c.growStep w) x y) (h : c.GrowCalls w y call) :
      Calls c (.eu a b) call

/-- The calls made when the ids of states are looked up. -/
inductive LookUps (c : Checker ι) (f : Formula) : Call → Prop
  | satisfying {s : BitSet} {i : Nat} (hs : (c.sat f).Gives s) (hi : i ∈ s.toList) :
      LookUps c f (.lookUp i)
  | violations {s : BitSet} {i : Nat} (hs : (c.sat f).Gives s) (hi : i ∈ c.model.initials)
      (hnot : s.contains i = false) : LookUps c f (.lookUp i)

variable {c : Checker ι} {call : Call} {calls calls' : Call → Prop} {p s v w x y z : BitSet}
  {a b f g : Formula} {e : Misuse} {i n : Nat}

/-! ## Failures come from calls -/

/-- An operator outside the minimal set is at fault, or one of the calls fails. -/
inductive Blamed (n : Nat) (calls : Call → Prop) : Error → Prop
  | operator (label : String) : Blamed n calls (.internal (.notMinimal label))
  | call {call : Call} {e : Misuse} (hcall : calls call) (h : call.failure? n = some e) :
      Blamed n calls (.misuse e)

theorem Blamed.mono (hcalls : ∀ call, calls call → calls' call) (e : Error)
    (h : Blamed n calls e) : Blamed n calls' e := by
  cases h with
  | operator label => exact .operator label
  | call hcall h => exact .call (hcalls _ hcall) h

theorem exists_preCalls (h : c.pre y = .error e) :
    ∃ call, c.PreCalls y call ∧ call.failure? c.model.size = some e :=
  Call.exists_filling_of_ofIndices h

theorem exists_shrinkCalls (h : c.shrinkStep y = .error e) :
    ∃ call, c.ShrinkCalls y call ∧ call.failure? c.model.size = some e := by
  rcases bind_eq_error.1 h with h | ⟨p, hp, h⟩
  · obtain ⟨call, hcall, hfails⟩ := exists_preCalls h
    exact ⟨call, .pre hcall, hfails⟩
  · exact ⟨_, .inter hp, Call.failure?_of_combine h⟩

theorem exists_growCalls (h : c.growStep w y = .error e) :
    ∃ call, c.GrowCalls w y call ∧ call.failure? c.model.size = some e := by
  rcases bind_eq_error.1 h with h | ⟨p, hp, h⟩
  · obtain ⟨call, hcall, hfails⟩ := exists_preCalls h
    exact ⟨call, .pre hcall, hfails⟩
  rcases bind_eq_error.1 h with h | ⟨v, hv, h⟩
  · exact ⟨_, .inter hp, Call.failure?_of_combine h⟩
  · exact ⟨_, .union hp hv, Call.failure?_of_combine h⟩

/-- The calls of an operand are calls of the whole formula. -/
theorem errsWithin_operand (f : Formula) (hg : g ∈ f.operands)
    (h : (c.sat g).ErrsWithin (Blamed c.model.size (c.Calls g))) :
    (c.sat g).ErrsWithin (Blamed c.model.size (c.Calls f)) :=
  h.mono (Blamed.mono fun _ => .operand hg)

/-- Computing the set fails only because of an operator or with the failure of a call. -/
theorem sat_errsWithin_blamed (c : Checker ι) (f : Formula) :
    (c.sat f).ErrsWithin (Blamed c.model.size (c.Calls f)) := by
  induction f with
  | atom name =>
    refine CheckM.errsWithin_permit fun e he => ?_
    obtain ⟨call, hcall, hfails⟩ := Call.exists_filling_of_ofIndices he
    exact .call (.atom hcall) hfails
  | truth b => cases b <;> exact CheckM.errsWithin_pure _ _
  | not a iha =>
    replace iha := errsWithin_operand (.not a) (by simp [Formula.operands]) iha
    exact iha.bind fun x _ => CheckM.errsWithin_pure _ _
  | connect o a b iha ihb =>
    replace iha := errsWithin_operand (.connect o a b) (by simp [Formula.operands]) iha
    replace ihb := errsWithin_operand (.connect o a b) (by simp [Formula.operands]) ihb
    cases o with
    | implies =>
      refine iha.bind fun x hx => ihb.bind fun y hy => ?_
      refine (CheckM.errsWithin_permit fun e he => ?_).bind fun v hv =>
        CheckM.errsWithin_permit fun e he => ?_
      · exact .call (.connect hx hy) (Call.failure?_of_combine he)
      · exact .call (.impliesUnion hx hy (CheckM.eq_of_gives_permit hv))
          (Call.failure?_of_combine he)
    | _ =>
      refine iha.bind fun x hx => ihb.bind fun y hy => CheckM.errsWithin_permit fun e he => ?_
      exact .call (.connect hx hy) (Call.failure?_of_combine he)
  | unary q o a iha =>
    replace iha := errsWithin_operand (.unary q o a) (by simp [Formula.operands]) iha
    rcases q, o with ⟨_ | _, _ | _ | _⟩
    case some.next =>
      refine iha.bind fun x hx => CheckM.errsWithin_permit fun e he => ?_
      obtain ⟨call, hcall, hfails⟩ := exists_preCalls he
      exact .call (.ex hx hcall) hfails
    case some.always =>
      refine iha.bind fun x hx => errsWithin_untilStable fun y e hy he => ?_
      obtain ⟨call, hcall, hfails⟩ := exists_shrinkCalls he
      exact .call (.eg hx hy hcall) hfails
    all_goals exact CheckM.errsWithin_throw (.operator _)
  | binary q o a b iha ihb =>
    replace iha := errsWithin_operand (.binary q o a b) (by simp [Formula.operands]) iha
    replace ihb := errsWithin_operand (.binary q o a b) (by simp [Formula.operands]) ihb
    rcases q, o with ⟨_ | _, _ | _ | _⟩
    case some.strongUntil =>
      refine iha.bind fun w hw => ihb.bind fun x hx => errsWithin_untilStable fun y e hy he => ?_
      obtain ⟨call, hcall, hfails⟩ := exists_growCalls he
      exact .call (.eu hw hx hy hcall) hfails
    all_goals exact CheckM.errsWithin_throw (.operator _)

/-! ## Bounds -/

theorem bound_of_pre (h : c.pre y = .ok p) : p.bound = c.model.size :=
  BitSet.bound_of_ofIndices h

theorem bound_of_shrinkStep (h : c.shrinkStep y = .ok z) : z.bound = y.bound := by
  obtain ⟨p, -, h⟩ := bind_eq_ok.1 h
  exact BitSet.bound_of_combine h

theorem bound_of_growStep (h : c.growStep w y = .ok z) : z.bound = y.bound := by
  obtain ⟨p, -, h⟩ := bind_eq_ok.1 h
  obtain ⟨v, -, h⟩ := bind_eq_ok.1 h
  exact BitSet.bound_of_combine h

/-- A step that keeps the bound of every set keeps it when it is repeated. -/
theorem bound_of_leads {step : BitSet → Except Misuse BitSet}
    (hstep : ∀ {y z}, step y = .ok z → z.bound = y.bound) (h : Leads step y z) :
    z.bound = y.bound := by
  induction h with
  | refl => rfl
  | tail _ hz ih => exact (hstep hz).trans ih

/-- The sets that are computed for formulas have the size of the model as their bound. -/
theorem bound_of_gives (h : (c.sat f).Gives s) : s.bound = c.model.size := by
  induction f generalizing s with
  | atom name => exact BitSet.bound_of_ofIndices (CheckM.eq_of_gives_permit h)
  | truth b => cases b <;> exact CheckM.eq_of_gives_pure h ▸ rfl
  | not a iha =>
    obtain ⟨x, hx, h⟩ := CheckM.exists_of_gives_bind h
    obtain rfl := CheckM.eq_of_gives_pure h
    exact (BitSet.bound_compl x).trans (iha hx)
  | connect o a b iha ihb =>
    cases o with
    | implies =>
      obtain ⟨x, hx, h⟩ := CheckM.exists_of_gives_bind h
      obtain ⟨y, -, h⟩ := CheckM.exists_of_gives_bind h
      obtain ⟨v, hv, h⟩ := CheckM.exists_of_gives_bind h
      calc s.bound = v.bound := BitSet.bound_of_combine (CheckM.eq_of_gives_permit h)
        _ = x.bound := BitSet.bound_of_combine (CheckM.eq_of_gives_permit hv)
        _ = c.model.size := iha hx
    | _ =>
      obtain ⟨x, hx, h⟩ := CheckM.exists_of_gives_bind h
      obtain ⟨y, -, h⟩ := CheckM.exists_of_gives_bind h
      exact (BitSet.bound_of_combine (CheckM.eq_of_gives_permit h)).trans (iha hx)
  | unary q o a iha =>
    rcases q, o with ⟨_ | _, _ | _ | _⟩
    case some.next =>
      obtain ⟨x, -, h⟩ := CheckM.exists_of_gives_bind h
      exact bound_of_pre (CheckM.eq_of_gives_permit h)
    case some.always =>
      obtain ⟨x, hx, h⟩ := CheckM.exists_of_gives_bind h
      exact (bound_of_leads bound_of_shrinkStep (leads_of_gives h)).trans (iha hx)
    all_goals exact absurd h CheckM.not_gives_throw
  | binary q o a b iha ihb =>
    rcases q, o with ⟨_ | _, _ | _ | _⟩
    case some.strongUntil =>
      obtain ⟨w, -, h⟩ := CheckM.exists_of_gives_bind h
      obtain ⟨x, hx, h⟩ := CheckM.exists_of_gives_bind h
      exact (bound_of_leads bound_of_growStep (leads_of_gives h)).trans (ihb hx)
    all_goals exact absurd h CheckM.not_gives_throw

/-! ## All calls respect the size of the model -/

theorem PreCalls.respects (h : c.PreCalls y call) : call.Respects c.model.size :=
  Call.Filling.respects h fun _ hi => List.mem_range.1 (List.mem_filter.1 hi).1

theorem ShrinkCalls.respects (hy : y.bound = c.model.size) (h : c.ShrinkCalls y call) :
    call.Respects c.model.size := by
  cases h with
  | pre h => exact PreCalls.respects h
  | inter hp => exact ⟨hy, bound_of_pre hp⟩

theorem GrowCalls.respects (hw : w.bound = c.model.size) (hy : y.bound = c.model.size)
    (h : c.GrowCalls w y call) : call.Respects c.model.size := by
  cases h with
  | pre h => exact PreCalls.respects h
  | inter hp => exact ⟨hw, bound_of_pre hp⟩
  | union hp hv => exact ⟨hy, (BitSet.bound_of_combine hv).trans hw⟩

/-- **Every call that computing the set makes respects the size of the model.** -/
theorem Calls.respects (h : c.Calls f call) : call.Respects c.model.size := by
  induction h with
  | operand _ _ ih => exact ih
  | atom h => exact h.respects fun _ => Model.lt_size_of_mem_indicesWhere
  | compl hx => exact ⟨(BitSet.bound_full _).trans (bound_of_gives hx), bound_of_gives hx⟩
  | connect hx hy => exact ⟨bound_of_gives hx, bound_of_gives hy⟩
  | impliesCompl hx =>
    exact ⟨(BitSet.bound_full _).trans (bound_of_gives hx), bound_of_gives hx⟩
  | impliesUnion hx hy hv =>
    exact ⟨(BitSet.bound_of_combine hv).trans (bound_of_gives hx),
      (BitSet.bound_compl _).trans (bound_of_gives hx)⟩
  | ex hx h => exact PreCalls.respects h
  | eg hx hy h =>
    exact h.respects ((bound_of_leads bound_of_shrinkStep hy).trans (bound_of_gives hx))
  | eu hw hx hy h =>
    exact h.respects (bound_of_gives hw)
      ((bound_of_leads bound_of_growStep hy).trans (bound_of_gives hx))

theorem LookUps.respects (h : c.LookUps f call) : call.Respects c.model.size := by
  cases h with
  | satisfying hs hi =>
    exact bound_of_gives hs ▸ BitSet.lt_bound_of_contains (BitSet.mem_toList.1 hi)
  | violations hs hi hnot => exact Model.lt_size_of_mem_indicesWhere hi

/-! ## What is left of failures -/

/-- An operator stands where only those of the minimal set are understood. -/
def IsOperatorError (e : Error) : Prop := ∃ label, e = .internal (.notMinimal label)

theorem isOperatorError_of_blamed {e : Error} (hcalls : ∀ call, calls call → call.Respects n)
    (h : Blamed n calls e) : IsOperatorError e := by
  cases h with
  | operator label => exact ⟨label, rfl⟩
  | call hcall hfails => simp [(hcalls _ hcall).failure?_eq_none] at hfails

theorem exists_lookUp_of_idsAt {indices : List Nat} (h : c.idsAt indices = .error e) :
    ∃ i ∈ indices, (Call.lookUp i).failure? c.model.size = some e := by
  induction indices with
  | nil => cases h
  | cons i indices ih =>
    rw [idsAt, List.mapM_cons] at h
    rcases bind_eq_error.1 h with h | ⟨a, -, h⟩
    · refine ⟨i, List.mem_cons_self, ?_⟩
      split at h
      · cases h
      · next hnone =>
        cases h
        have hsize : c.model.size ≤ i := by simpa [Model.state?, Model.size] using hnone
        simp [Call.failure?, Nat.not_lt.2 hsize]
    · rcases bind_eq_error.1 h with h | ⟨as, -, h⟩
      · obtain ⟨j, hj, hfails⟩ := ih h
        exact ⟨j, List.mem_cons_of_mem i hj, hfails⟩
      · cases h

theorem errsWithin_permit_idsAt (f : Formula) {indices : List Nat}
    (h : ∀ i ∈ indices, c.LookUps f (.lookUp i)) :
    (CheckM.permit (c.idsAt indices)).ErrsWithin IsOperatorError := by
  refine CheckM.errsWithin_permit fun e he => ?_
  obtain ⟨i, hi, hfails⟩ := exists_lookUp_of_idsAt he
  simp [(h i hi).respects.failure?_eq_none] at hfails

/-- **Whatever the formula, its set is computed unless an operator is outside the minimal set.** -/
theorem sat_errsWithin (c : Checker ι) (f : Formula) :
    (c.sat f).ErrsWithin IsOperatorError :=
  (c.sat_errsWithin_blamed f).mono fun _ => isOperatorError_of_blamed fun _ => Calls.respects

theorem holds_errsWithin (c : Checker ι) (policy : Policy) (f : Formula) :
    (c.holds policy f).ErrsWithin IsOperatorError :=
  (c.sat_errsWithin f).bind fun _ _ => CheckM.errsWithin_pure _ _

theorem satisfying_errsWithin (c : Checker ι) (f : Formula) :
    (c.satisfying f).ErrsWithin IsOperatorError :=
  (c.sat_errsWithin f).bind fun _ hs => errsWithin_permit_idsAt f fun _ => .satisfying hs

theorem violations_errsWithin (c : Checker ι) (f : Formula) :
    (c.violations f).ErrsWithin IsOperatorError := by
  refine (c.sat_errsWithin f).bind fun s hs => errsWithin_permit_idsAt f fun i hi => ?_
  obtain ⟨hi, hnot⟩ := List.mem_filter.1 hi
  exact .violations hs hi (by simpa using hnot)

/-! ## Formulas that are read -/

theorem check_of_isNormal (m : Model ι) (policy : Policy) (hf : f.isNormal = true) :
    ∃ b, check m policy f = .ok b := by
  obtain ⟨b, hb, -⟩ := exists_check_eq m policy hf
  exact ⟨b, hb⟩

end Checker

namespace Formula

variable {text : String} {f : Formula} {e : Error}

theorem isNormal_of_parse (h : parse text = .ok f) : f.isNormal = true := by
  obtain ⟨_, _, g, -, -, -, rfl⟩ := parse_eq_ok h
  exact g.isNormal_normalize

theorem isMalformed_of_parse (h : parse text = .error e) : e.isMalformed = true := by
  rcases bind_eq_error.1 h with h | ⟨ts, -, h⟩
  · unfold tokenize at h
    cases htokens : (Cursor.ofText text).tokens with
    | error cause =>
      rw [htokens] at h
      cases h
      rfl
    | ok ts =>
      rw [htokens] at h
      cases h
  · exact Construct.isMalformed_of_ofTokens h

end Formula

/-! ## All together -/

section

variable {ι : Type} [DecidableEq ι] [Hashable ι]

/-- **A text is checked unless it is malformed, and no formula makes a checker misuse anything.** -/
theorem check_safe (m : Model ι) (policy : Policy) :
    (∀ text,
      (∀ f, Formula.parse text = .ok f → ∃ b, checkText m policy text = .ok b) ∧
      ∀ e, Formula.parse text = .error e →
        checkText m policy text = .error e ∧ e.isMalformed = true) ∧
    ∀ f,
      (∀ call, (Checker.ofModel m).Calls f call ∨ (Checker.ofModel m).LookUps f call →
        call.Respects m.size) ∧
      (∀ s, ((Checker.ofModel m).sat f).Gives s → s.bound = m.size) ∧
      ((Checker.ofModel m).sat f).ErrsWithin Checker.IsOperatorError ∧
      ((Checker.ofModel m).holds policy f).ErrsWithin Checker.IsOperatorError ∧
      ((Checker.ofModel m).satisfying f).ErrsWithin Checker.IsOperatorError ∧
      ((Checker.ofModel m).violations f).ErrsWithin Checker.IsOperatorError := by
  constructor
  · refine fun text => ⟨fun f h => ?_, fun e h => ?_⟩
    · obtain ⟨b, hb⟩ := Checker.check_of_isNormal m policy (Formula.isNormal_of_parse h)
      exact ⟨b, bind_eq_ok.2 ⟨f, h, hb⟩⟩
    · exact ⟨bind_eq_error.2 (Or.inl h), Formula.isMalformed_of_parse h⟩
  · refine fun f => ⟨?_, fun s => Checker.bound_of_gives, Checker.sat_errsWithin _ f,
      Checker.holds_errsWithin _ policy f, Checker.satisfying_errsWithin _ f,
      Checker.violations_errsWithin _ f⟩
    rintro call (h | h)
    · exact h.respects
    · exact h.respects

/-- A formula that is read off its own text. -/
def pUntilQ : Formula := .eu (.atom "p") (.atom "q")

theorem check_safe_sharing :
    Formula.parse pUntilQ.render = .ok pUntilQ ∧
    (∃ b, checkText Checker.sharing .all pUntilQ.render = .ok b) ∧
    Formula.parse "-" = .error (.malformed (.unknownCharacter '-')) ∧
    checkText Checker.sharing .all "-" = .error (.malformed (.unknownCharacter '-')) ∧
    ((Checker.ofModel Checker.sharing).sat (.truth true)).Gives (.full 3) ∧
    (BitSet.full 3).bound = Checker.sharing.size ∧
    (Checker.ofModel Checker.sharing).Calls (.not (.truth true)) (.combine (.full 3) (.full 3)) ∧
    (Call.combine (.full 3) (.full 3)).Respects Checker.sharing.size := by
  have hread : Formula.parse pUntilQ.render = .ok pUntilQ :=
    Formula.parse_render_eq_self rfl rfl rfl
  have hnext : (Cursor.ofText "-").next = .error (.unknownCharacter '-') := rfl
  have hmalformed : Formula.parse "-" = .error (.malformed (.unknownCharacter '-')) :=
    bind_eq_error.2 (Or.inl (by simp [tokenize, Cursor.tokens_of_error hnext, Except.mapError]))
  have hgives : ((Checker.ofModel Checker.sharing).sat (.truth true)).Gives (.full 3) := ⟨0, rfl⟩
  have hcall : (Checker.ofModel Checker.sharing).Calls (.not (.truth true))
      (.combine (.full 3) (.full 3)) := .compl hgives
  obtain ⟨htext, hformula⟩ := check_safe Checker.sharing .all
  obtain ⟨-, hbound, -⟩ := hformula (.truth true)
  obtain ⟨hrespects, -⟩ := hformula (.not (.truth true))
  exact ⟨hread, (htext _).1 _ hread, hmalformed, ((htext _).2 _ hmalformed).1, hgives,
    hbound _ hgives, hcall, hrespects _ (Or.inl hcall)⟩

end

end BranchingTime
