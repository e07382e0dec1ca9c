import BranchingTime.Proofs.Reading
import BranchingTime.Proofs.Trees
import Mathlib.Data.List.Basic

set_option autoImplicit false

/-! # Which parse trees are read as formulas

A parse tree need not come from the parser, and then nothing is known of its nodes. A node is *fit*
if it is an atom without operands, or an operator of formulas that has as many operands as it takes.
A tree of fit nodes is read as the formula that has its shape. Any other tree is refused because of
the unfit node that comes first in prefix order: its kind, its text and the number of its operands
make the error, and nothing else does (`Formula.ofTree_reports_first_defect`).

That a computation `Reports` on a row of nodes says both. The operands of a node are read one after
the other, and so computations that report on rows give one that reports on the rows joined. -/

namespace BranchingTime

namespace Construct

/-! ## Fit nodes -/

/-- The number of operands that a node takes where it is part of a formula; none if it never is. -/
def arity? : Construct → Option Nat
  | atom => some 0
  | not => some 1
  | connect _ => some 2
  | quantified _ o => some o.arity
  | path _ => none
  | quantifier _ => none
  | opening => none
  | closing => none

/-- The node can be part of a formula and has as many operands as it takes. -/
def IsFit (u : Tree Construct) : Prop := u.kind.arity? = some u.children.length

instance : DecidablePred IsFit := fun u => inferInstanceAs (Decidable (u.kind.arity? = _))

/-- What is wrong with a node that is not fit. -/
def defect (u : Tree Construct) : InternalError :=
  match u.kind, u.kind.arity? with
  | atom, _ => .atomWithOperands u.text
  | _, some count => .operandCount u.text count u.children.length
  | _, none => .notMinimal u.text

/-- The formula has the shape of the tree: each node stands for the operator of its kind, whatever
    its text and range, and an atom for the proposition or the literal that its text names. -/
inductive Denotes : Tree Construct → Formula → Prop where
  | atom (name : String) (span : Option Span) (hname : ∀ b, name ≠ Formula.literal b) :
      Denotes (.node atom name span []) (.atom name)
  | truth (b : Bool) (span : Option Span) :
      Denotes (.node atom (Formula.literal b) span []) (.truth b)
  | not (text : String) (span : Option Span) {a : Tree Construct} {f : Formula}
      (ha : Denotes a f) : Denotes (.node not text span [a]) (.not f)
  | connect (c : Connective) (text : String) (span : Option Span) {a b : Tree Construct}
      {f g : Formula} (ha : Denotes a f) (hb : Denotes b g) :
      Denotes (.node (connect c) text span [a, b]) (.connect c f g)
  | unary (q : Quantifier) (o : UnaryPath) (text : String) (span : Option Span)
      {a : Tree Construct} {f : Formula} (ha : Denotes a f) :
      Denotes (.node (quantified q (.unary o)) text span [a]) (.unary q o f)
  | binary (q : Quantifier) (o : BinaryPath) (text : String) (span : Option Span)
      {a b : Tree Construct} {f g : Formula} (ha : Denotes a f) (hb : Denotes b g) :
      Denotes (.node (quantified q (.binary o)) text span [a, b]) (.binary q o f g)

/-! ## Reports -/

/-- The computation succeeds if all nodes in the row are fit, and it fails with the defect of the
    first one that is not. -/
def Reports {α : Type} (x : Except Error α) (us : List (Tree Construct)) : Prop :=
  match us.find? fun u => ¬ IsFit u with
  | none => ∃ a, x = .ok a
  | some u => x = .error (.internal (defect u))

variable {α β : Type} {x : Except Error α} {f : α → Except Error β} {us vs : List (Tree Construct)}
  {u t : Tree Construct}

theorem reports_ok (a : α) : Reports (.ok a) [] := ⟨a, rfl⟩

theorem reports_unfit (hu : ¬ IsFit u) (us : List (Tree Construct)) :
    Reports (.error (.internal (defect u)) : Except Error α) (u :: us) := by
  rw [Reports, List.find?_cons_of_pos (by simpa using hu)]

theorem Reports.fit (hu : IsFit u) (h : Reports x us) : Reports x (u :: us) := by
  rwa [Reports, List.find?_cons_of_neg (by simpa using hu)]

theorem Reports.bind (hx : Reports x us) (hf : ∀ a, x = .ok a → Reports (f a) vs) :
    Reports (x >>= f) (us ++ vs) := by
  unfold Reports at hx
  rw [Reports, List.find?_append]
  cases hus : us.find? fun u => ¬ IsFit u with
  | none =>
    rw [hus] at hx
    obtain ⟨a, rfl⟩ := hx
    exact hf a rfl
  | some u =>
    rw [hus] at hx
    rw [hx]
    rfl

theorem Reports.map (h : Reports x us) (g : α → β) : Reports (x >>= fun a => pure (g a)) us := by
  have hmap := h.bind (f := fun a => pure (g a)) fun a _ => reports_ok (g a)
  rwa [List.append_nil] at hmap

theorem Reports.exists_ok_iff (h : Reports x us) : (∃ a, x = .ok a) ↔ ∀ u ∈ us, IsFit u := by
  have hnone : us.find? (fun u => ¬ IsFit u) = none ↔ ∀ u ∈ us, IsFit u := by
    simp [List.find?_eq_none]
  unfold Reports at h
  rw [← hnone]
  cases hus : us.find? fun u => ¬ IsFit u with
  | none =>
    rw [hus] at h
    exact ⟨fun _ => rfl, fun _ => h⟩
  | some u =>
    rw [hus] at h
    simp [h]

theorem Reports.eq_error_iff (h : Reports x us) {e : Error} :
    x = .error e ↔ ∃ before u after, us = before ++ u :: after ∧ (∀ v ∈ before, IsFit v) ∧
      ¬ IsFit u ∧ e = .internal (defect u) := by
  have hsome : ∀ u, us.find? (fun u => ¬ IsFit u) = some u ↔
      ¬ IsFit u ∧ ∃ before after, us = before ++ u :: after ∧ ∀ v ∈ before, IsFit v := by
    simp [List.find?_eq_some_iff_append]
  unfold Reports at h
  cases hus : us.find? fun u => ¬ IsFit u with
  | none =>
    rw [hus] at h
    obtain ⟨a, rfl⟩ := h
    have hfit : ∀ u ∈ us, IsFit u := by simpa [List.find?_eq_none] using hus
    constructor
    · intro h
      cases h
    · rintro ⟨before, u, after, rfl, -, hu, -⟩
      exact absurd (hfit u (by simp)) hu
  | some u =>
    rw [hus] at h
    rw [h]
    constructor
    · intro he
      obtain ⟨hu, before, after, hsplit, hbefore⟩ := (hsome u).1 hus
      exact ⟨before, u, after, hsplit, hbefore, hu, (Except.error.inj he).symm⟩
    · rintro ⟨before, v, after, hsplit, hbefore, hv, rfl⟩
      have hfirst := (hsome v).2 ⟨hv, before, after, hsplit, hbefore⟩
      cases hus.symm.trans hfirst
      rfl

end Construct

namespace Formula

open Construct (IsFit defect Denotes Reports arity? reports_ok reports_unfit exists_of_ofOne
  exists_of_ofTwo)

variable {text : String} {children : List (Tree Construct)} {t : Tree Construct} {f : Formula}

/-! ## Reading reports on the nodes -/

theorem ofOne_of_length_ne (h : children.length ≠ 1) :
    ofOne text children = .error (.internal (.operandCount text 1 children.length)) := by
  rcases children with _ | ⟨a, _ | ⟨b, cs⟩⟩
  · rfl
  · exact absurd rfl h
  · rfl

theorem ofTwo_of_length_ne (h : children.length ≠ 2) :
    ofTwo text children = .error (.internal (.operandCount text 2 children.length)) := by
  rcases children with _ | ⟨a, _ | ⟨b, _ | ⟨c, cs⟩⟩⟩
  · rfl
  · rfl
  · exact absurd rfl h
  · rfl

/-- An unfit node is refused before its operands are looked at. -/
theorem ofTree_of_not_isFit (h : ¬ IsFit t) : ofTree t = .error (.internal (defect t)) := by
  obtain ⟨kind, text, span, children⟩ := t
  have hcount : kind.arity? ≠ some children.length := h
  rcases kind with _ | _ | c | o | q | ⟨q, o | o⟩ | _ | _ <;> rw [ofTree]
  case atom =>
    have hne : children ≠ [] := by
      rintro rfl
      exact hcount rfl
    rw [if_neg (by simpa using hne)]
    rfl
  case not | quantified.unary =>
    rw [ofOne_of_length_ne fun hone => hcount (congrArg some hone.symm)]
    rfl
  case connect | quantified.binary =>
    rw [ofTwo_of_length_ne fun htwo => hcount (congrArg some htwo.symm)]
    rfl
  all_goals rfl

theorem isFit_of_ofTree (h : ofTree t = .ok f) : IsFit t := by
  by_contra hfit
  rw [ofTree_of_not_isFit hfit] at h
  cases h

theorem ofOne_reports (hcount : children.length = 1)
    (h : ∀ a ∈ children, Reports (ofTree a) a.nodes) :
    Reports (ofOne text children) (Tree.nodesAll children) := by
  obtain ⟨a, rfl⟩ := List.length_eq_one_iff.1 hcount
  have ha := h a (by simp)
  simpa [ofOne, Tree.nodesAll] using ha

theorem ofTwo_reports (hcount : children.length = 2)
    (h : ∀ a ∈ children, Reports (ofTree a) a.nodes) :
    Reports (ofTwo text children) (Tree.nodesAll children) := by
  obtain ⟨a, b, rfl⟩ := List.length_eq_two.1 hcount
  have ha := h a (by simp)
  have hb := h b (by simp)
  have hboth := ha.bind fun f _ => hb.map fun g => (f, g)
  simpa [ofTwo, Tree.nodesAll] using hboth

/-- **Reading a tree reports on its nodes in prefix order.** -/
theorem ofTree_reports (t : Tree Construct) : Reports (ofTree t) t.nodes := by
  induction t using Tree.ofChildren with
  | node kind text span children ih =>
    rw [Tree.nodes]
    by_cases hfit : IsFit (.node kind text span children)
    · refine .fit hfit ?_
      have hcount : kind.arity? = some children.length := hfit
      rcases kind with _ | _ | c | o | q | ⟨q, o | o⟩ | _ | _ <;> rw [ofTree]
      case atom =>
        obtain rfl := List.length_eq_zero_iff.1 (Option.some.inj hcount).symm
        exact reports_ok (ofName text)
      case not => exact (ofOne_reports (Option.some.inj hcount).symm ih).map _
      case connect => exact (ofTwo_reports (Option.some.inj hcount).symm ih).map _
      case quantified.unary => exact (ofOne_reports (Option.some.inj hcount).symm ih).map _
      case quantified.binary => exact (ofTwo_reports (Option.some.inj hcount).symm ih).map _
      all_goals cases hcount
    · rw [ofTree_of_not_isFit hfit]
      exact reports_unfit hfit _

/-! ## The formula that is read -/

theorem denotes_ofName (name : String) (span : Option Span) :
    Denotes (.node .atom name span []) (ofName name) := by
  unfold ofName
  split
  · next htrue =>
    subst htrue
    exact .truth true span
  · next htrue =>
    split
    · next hfalse =>
      subst hfalse
      exact .truth false span
    · next hfalse =>
      refine .atom name span ?_
      rintro (_ | _)
      · exact hfalse
      · exact htrue

theorem ofTree_of_denotes (h : Denotes t f) : ofTree t = .ok f := by
  induction h with
  | atom name span hname =>
    rw [ofTree, ofName, if_neg (hname true), if_neg (hname false)]
    rfl
  | truth b span => cases b <;> rfl
  | not text span _ ha => exact ofTree_not text span ha
  | connect c text span _ _ ha hb => exact ofTree_connect c text span ha hb
  | unary q o text span _ ha => exact ofTree_unary q o text span ha
  | binary q o text span _ _ ha hb => exact ofTree_binary q o text span ha hb

theorem denotes_of_ofTree (t : Tree Construct) : ∀ f, ofTree t = .ok f → Denotes t f := by
  induction t using Tree.ofChildren with
  | node kind text span children ih =>
    intro f h
    have hcount : kind.arity? = some children.length := isFit_of_ofTree h
    rcases kind with _ | _ | c | o | q | ⟨q, o | o⟩ | _ | _ <;> rw [ofTree] at h
    case atom =>
      obtain rfl := List.length_eq_zero_iff.1 (Option.some.inj hcount).symm
      cases h
      exact denotes_ofName text span
    case not =>
      obtain ⟨g, hg, hf⟩ := bind_eq_ok.1 h
      obtain ⟨a, rfl, ha⟩ := exists_of_ofOne hg
      cases hf
      exact .not text span (ih a (by simp) g ha)
    case connect =>
      obtain ⟨⟨g, g'⟩, hg, hf⟩ := bind_eq_ok.1 h
      obtain ⟨a, b, rfl, ha, hb⟩ := exists_of_ofTwo hg
      cases hf
      exact .connect c text span (ih a (by simp) g ha) (ih b (by simp) g' hb)
    case quantified.unary =>
      obtain ⟨g, hg, hf⟩ := bind_eq_ok.1 h
      obtain ⟨a, rfl, ha⟩ := exists_of_ofOne hg
      cases hf
      exact .unary q o text span (ih a (by simp) g ha)
    case quantified.binary =>
      obtain ⟨⟨g, g'⟩, hg, hf⟩ := bind_eq_ok.1 h
      obtain ⟨a, b, rfl, ha, hb⟩ := exists_of_ofTwo hg
      cases hf
      exact .binary q o text span (ih a (by simp) g ha) (ih b (by simp) g' hb)
    all_goals cases hcount

/-- **A tree is read as a formula if all its nodes are fit, and only then.** The formula has the
    shape of the tree. Otherwise the unfit node that comes first in prefix order is reported as an
    internal failure, whatever the other nodes are. -/
theorem ofTree_reports_first_defect (t : Tree Construct) :
    ((∃ f, ofTree t = .ok f) ↔ ∀ u ∈ t.nodes, IsFit u) ∧
    (∀ f, ofTree t = .ok f ↔ Denotes t f) ∧
    ∀ e, ofTree t = .error e ↔ ∃ before u after, t.nodes = before ++ u :: after ∧
      (∀ v ∈ before, IsFit v) ∧ ¬ IsFit u ∧ e = .internal (defect u) := by
  have hreports := ofTree_reports t
  refine ⟨hreports.exists_ok_iff, fun f => ?_, fun e => hreports.eq_error_iff⟩
  exact ⟨denotes_of_ofTree t f, ofTree_of_denotes⟩

/-- Of the two unfit nodes of `!(X(a) & (->))`, the path operator comes first. -/
example :
    ofTree (.node .not "!" none [.node (.connect .and) "&" none
      [.node (.path (.unary .next)) "X" none [.node .atom "a" none []],
        .node (.connect .implies) "->" none []]]) = .error (.internal (.notMinimal "X")) := by
  rfl

end Formula

end BranchingTime
