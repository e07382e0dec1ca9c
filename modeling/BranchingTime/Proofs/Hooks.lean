import BranchingTime.Formula.Construct
import BranchingTime.Proofs.Contracts
import BranchingTime.Proofs.Parsing
import BranchingTime.Proofs.Trees

set_option autoImplicit false

/-! # What the hooks of a grammar amount to

The parser shows each node to its grammar as soon as the node is complete, in the middle of the
input, and goes on with what the grammar puts in its place. The tokens alone decide what is read
next. So a run under the grammar is the run without its hooks, followed by a walk over the tree that
this one builds, from the bottom to the top and from left to right, in which each node is completed
after its operands (`Grammar.rebuild`).

The two runs are compared function by function (`Grammar.hookContract`). Where the one without hooks
holds a tree, the other one holds what rebuilding has made of it, or a refusal has stopped it. It
can be stopped before the first one fails for a reason of its own, as when the content of a group is
refused and the end of the group is missing. So the errors of the two can differ (`Follows`). -/

namespace BranchingTime

/-! ## Computations that follow another one -/

/-- The computation `x` does what `f` does with the result of `x₀`, and fails if `x₀` fails. -/
structure Follows {ε α β : Type} (f : α → Except ε β) (x₀ : Except ε α) (x : Except ε β) :
    Prop where
  ok : ∀ a, x₀ = .ok a → x = f a
  error : ∀ e, x₀ = .error e → ∃ e', x = .error e'

section Follows

variable {ε α β γ δ ζ : Type} {f : α → Except ε β} {f' : γ → Except ε δ} {x₀ : Except ε α}
  {x : Except ε β} {k₀ : α → Except ε γ} {k : β → Except ε δ} {a : α} {e e' : ε}

theorem follows_ok (h : x = f a) : Follows f (.ok a) x where
  ok := by
    rintro _ ⟨⟩
    exact h
  error := by
    rintro _ ⟨⟩

theorem follows_error (f : α → Except ε β) (e e' : ε) : Follows f (.error e) (.error e') where
  ok := by
    rintro _ ⟨⟩
  error := by
    rintro _ ⟨⟩
    exact ⟨e', rfl⟩

theorem follows_error_after (f : α → Except ε β) (p : Except ε ζ) (e e' : ε) :
    Follows f (.error e) (p >>= fun _ => .error e') := by
  cases p with
  | ok c => exact follows_error f e e'
  | error e'' => exact follows_error f e e''

/-- Where something is still to be done before `x`, the rest goes on from there. -/
theorem Follows.after (hx : Follows f x₀ x) (p : Except ε ζ) {k : ζ → β → Except ε δ}
    (hk : ∀ a, x₀ = .ok a → Follows f' (k₀ a) (p >>= fun c => f a >>= k c)) :
    Follows f' (x₀ >>= k₀) (p >>= fun c => x >>= k c) := by
  cases x₀ with
  | ok a =>
    rw [hx.ok a rfl]
    exact hk a rfl
  | error e =>
    obtain ⟨e', rfl⟩ := hx.error e rfl
    exact follows_error_after f' p e e'

theorem Follows.bind (hx : Follows f x₀ x)
    (hk : ∀ a, x₀ = .ok a → Follows f' (k₀ a) (f a >>= k)) :
    Follows f' (x₀ >>= k₀) (x >>= k) :=
  hx.after (.ok ()) (k := fun _ => k) hk

end Follows

namespace Parsed

variable {α β : Type} {m n : Nat} {f : α → Except Error β}

/-- What is done with the value, for which no tokens are needed. -/
def andThen (f : α → Except Error β) (r : Parsed α n) : Except Error (Parsed β n) := do
  let b ← f r.value
  return ⟨b, r.rest, r.shorter⟩

end Parsed

theorem Follows.weaken {α β : Type} {m n : Nat} {f : α → Except Error β}
    {x₀ : Except Error (Parsed α m)} {x : Except Error (Parsed β m)}
    (h : Follows (Parsed.andThen f) x₀ x) (hle : m ≤ n) :
    Follows (Parsed.andThen f) (x₀ >>= fun r => pure (r.weaken hle))
      (x >>= fun r => pure (r.weaken hle)) := by
  refine h.bind fun r _ => follows_ok ?_
  simp only [Parsed.andThen, bind_assoc, pure_bind]
  rfl

/-! ## Symbols of other kinds -/

namespace Symbol

variable {κ ι : Type}

/-- The same symbol, with its kind mapped. -/
def relabel (φ : ι → κ) (s : Symbol ι) : Symbol κ := { s with kind := φ s.kind }

variable {φ : ι → κ} {s : Symbol ι}

@[simp] theorem power_relabel : (s.relabel φ).power = s.power := rfl

@[simp] theorem arity_relabel : (s.relabel φ).arity = s.arity := rfl

@[simp] theorem leading_relabel : (s.relabel φ).leading = s.leading := rfl

@[simp] theorem isTrailing_relabel : (s.relabel φ).isTrailing = s.isTrailing := rfl

@[simp] theorem binds_relabel (right : UInt32) : (s.relabel φ).binds right = s.binds right := rfl

end Symbol

namespace Grammar

variable {κ ι : Type}

/-! ## Trees completed from the bottom to the top -/

mutual

/-- What the grammar makes of a tree when it completes its nodes from the bottom to the top and from
    left to right, up to the first one that it refuses. -/
def rebuild (g : Grammar κ) : Tree κ → Except Error (Tree κ)
  | .node kind text span children => do
    let completed ← g.rebuildAll children
    g.complete (.node kind text span completed)

/-- What the grammar makes of trees, from left to right. -/
def rebuildAll (g : Grammar κ) : List (Tree κ) → Except Error (List (Tree κ))
  | [] => return []
  | t :: ts => do
    let first ← g.rebuild t
    let others ← g.rebuildAll ts
    return first :: others

end

mutual

/-- Without hooks nothing is changed. -/
theorem rebuild_withoutHooks (g : Grammar κ) :
    (tree : Tree κ) → g.withoutHooks.rebuild tree = .ok tree
  | .node kind text span children => by
    rw [rebuild, rebuildAll_withoutHooks g children]
    rfl

theorem rebuildAll_withoutHooks (g : Grammar κ) :
    (trees : List (Tree κ)) → g.withoutHooks.rebuildAll trees = .ok trees
  | [] => rfl
  | tree :: trees => by
    rw [rebuildAll, rebuild_withoutHooks g tree, rebuildAll_withoutHooks g trees]
    rfl

end

/-! ## Parts of two runs -/

/-- The grammars have the same symbols but for their kinds. -/
def Relabels (φ : ι → κ) (g₀ : Grammar ι) (g : Grammar κ) : Prop :=
  ∀ t, g.symbol t = (g₀.symbol t).map (Symbol.relabel φ)

/-- What the grammar makes of a tree that has been built with other kinds. -/
def recast (g : Grammar κ) (φ : ι → κ) (tree : Tree ι) : Except Error (Tree κ) :=
  g.rebuild (tree.relabel φ)

/-- What the grammar makes of trees that have been built with other kinds. -/
def recastAll (g : Grammar κ) (φ : ι → κ) (trees : List (Tree ι)) : Except Error (List (Tree κ)) :=
  g.rebuildAll (Tree.relabelAll φ trees)

variable {φ : ι → κ} {g₀ : Grammar ι} {g : Grammar κ} {ts : List Token}

theorem build_withoutHooks (g : Grammar κ) (s : Symbol κ) (t : Token) (children : List (Tree κ)) :
    g.withoutHooks.build s t children = pure (.node s.kind t.text t.span children) := rfl

/-- A node is completed after its operands. -/
theorem recast_node (g : Grammar κ) (φ : ι → κ) (s : Symbol ι) (t : Token)
    (children : List (Tree ι)) :
    g.recast φ (.node s.kind t.text t.span children) =
      g.recastAll φ children >>= g.build (s.relabel φ) t := rfl

theorem recastAll_nil (g : Grammar κ) (φ : ι → κ) : g.recastAll φ [] = pure [] := rfl

theorem recastAll_cons (g : Grammar κ) (φ : ι → κ) (tree : Tree ι) (trees : List (Tree ι)) :
    g.recastAll φ (tree :: trees) = (do
      let first ← g.recast φ tree
      let others ← g.recastAll φ trees
      return first :: others) := rfl

theorem recast_one (g : Grammar κ) (φ : ι → κ) (s : Symbol ι) (t : Token) (operand : Tree ι) :
    g.recast φ (.node s.kind t.text t.span [operand]) =
      (g.recast φ operand >>= fun operand => g.build (s.relabel φ) t [operand]) := by
  simp only [recast_node, recastAll_cons, recastAll_nil, bind_assoc, pure_bind]

theorem recast_two (g : Grammar κ) (φ : ι → κ) (s : Symbol ι) (t : Token) (left right : Tree ι) :
    g.recast φ (.node s.kind t.text t.span [left, right]) = (do
      let left ← g.recast φ left
      let right ← g.recast φ right
      g.build (s.relabel φ) t [left, right]) := by
  simp only [recast_node, recastAll_cons, recastAll_nil, bind_assoc, pure_bind]

theorem Relabels.symbol_follows (h : Relabels φ g₀ g) (t : Token) :
    Follows (fun s => pure (s.relabel φ)) (g₀.symbol t) (g.symbol t) := by
  rw [h t]
  cases g₀.symbol t with
  | ok s => exact follows_ok rfl
  | error e => exact follows_error _ e e

theorem Relabels.postfixes_follows (h : Relabels φ g₀ g) (left : Tree ι) (ts : List Token) :
    Follows (Parsed.andThen (g.recast φ)) (g₀.withoutHooks.postfixes left ts)
      (g.recast φ left >>= fun left => g.postfixes left ts) := by
  induction ts generalizing left with
  | nil => exact follows_ok rfl
  | cons t ts ih =>
    simp only [postfixes]
    refine (h.symbol_follows t).after _ fun s hs => ?_
    simp only [pure_bind, Symbol.isTrailing_relabel, build_withoutHooks]
    by_cases htrailing : s.isTrailing = true
    · have hrest := (ih (.node s.kind t.text t.span [left])).weaken (Nat.le_succ (ts.length + 1))
      simpa only [htrailing, if_true, recast_one, bind_assoc] using hrest
    · simp only [htrailing]
      exact follows_ok rfl

theorem Relabels.passCloser_follows (h : Relabels φ g₀ g) (closer : String) (ts : List Token) :
    Follows pure (g₀.withoutHooks.passCloser closer ts) (g.passCloser closer ts) := by
  cases ts with
  | nil => exact follows_error _ _ _
  | cons t ts =>
    simp only [passCloser]
    split
    · refine (h.symbol_follows t).bind fun s hs => ?_
      exact follows_ok rfl
    · exact follows_error _ _ _

/-- The node of a group is completed before the parser looks for the end of the group. -/
theorem Relabels.close_follows (h : Relabels φ g₀ g) (closer : String) (node : Tree ι) {n : Nat}
    (hle : ∀ closed : Parsed Unit ts.length, closed.rest.length + 1 ≤ n) :
    Follows (Parsed.andThen (g.recast φ))
      (do
        let closed ← g₀.withoutHooks.passCloser closer ts
        let r ← g₀.withoutHooks.postfixes node closed.rest
        return r.weaken (hle closed))
      (do
        let node ← g.recast φ node
        let closed ← g.passCloser closer ts
        let r ← g.postfixes node closed.rest
        return r.weaken (hle closed)) := by
  refine (h.passCloser_follows closer ts).after _ fun closed _ => ?_
  simpa only [bind_assoc, pure_bind] using
    (h.postfixes_follows node closed.rest).weaken (hle closed)

/-! ## Whole runs -/

/-- The functions of the parser do with hooks what they do without them, and then rebuild what has
    been built. -/
def hookContract (φ : ι → κ) (g₀ : Grammar ι) (g : Grammar κ) : Contract where
  primary ts :=
    Follows (Parsed.andThen (g.recast φ)) (g₀.withoutHooks.primary ts) (g.primary ts)
  expression ts := ∀ right,
    Follows (Parsed.andThen (g.recast φ)) (g₀.withoutHooks.expression right ts)
      (g.expression right ts)
  infixes ts := ∀ right left,
    Follows (Parsed.andThen (g.recast φ)) (g₀.withoutHooks.infixes right left ts)
      (g.recast φ left >>= fun left => g.infixes right left ts)
  operands ts := ∀ count,
    Follows (Parsed.andThen (g.recastAll φ)) (g₀.withoutHooks.operands count ts)
      (g.operands count ts)

theorem Relabels.primary_follows (h : Relabels φ g₀ g) (hk : (hookContract φ g₀ g).HoldsBelow ts) :
    Follows (Parsed.andThen (g.recast φ)) (g₀.withoutHooks.primary ts) (g.primary ts) := by
  cases ts with
  | nil =>
    simp only [Grammar.primary]
    exact follows_error _ _ _
  | cons t ts =>
    have hts := hk.tail
    simp only [Grammar.primary]
    refine (h.symbol_follows t).bind fun s hs => ?_
    simp only [pure_bind, Symbol.leading_relabel, build_withoutHooks]
    cases s.leading with
    | refused => exact follows_error _ _ _
    | leaf =>
      have hrest := h.postfixes_follows (.node s.kind t.text t.span []) ts
      simpa only [recast_node, recastAll_nil, pure_bind] using hrest
    | group closer =>
      refine (hts.expression s.power).bind fun content hcontent => ?_
      have hclosed := h.close_follows closer (.node s.kind t.text t.span [content.value])
        fun closed => Nat.succ_le_succ (Nat.le_of_lt (Nat.lt_trans closed.shorter content.shorter))
      simpa only [Parsed.andThen, recast_one, bind_assoc, pure_bind] using hclosed
    | single =>
      refine hts.primary.bind fun operand hoperand => follows_ok ?_
      simp only [Parsed.andThen, recast_one, bind_assoc, pure_bind]
    | many count =>
      refine (hts.operands count).bind fun r hr => follows_ok ?_
      simp only [Parsed.andThen, recast_node, bind_assoc, pure_bind]

theorem expression_follows (hk : (hookContract φ g₀ g).HoldsBelow ts)
    (hprimary : Follows (Parsed.andThen (g.recast φ)) (g₀.withoutHooks.primary ts) (g.primary ts))
    (right : UInt32) :
    Follows (Parsed.andThen (g.recast φ)) (g₀.withoutHooks.expression right ts)
      (g.expression right ts) := by
  simp only [Grammar.expression]
  refine hprimary.bind fun left hleft => ?_
  have hrest := ((hk left.shorter).infixes right left.value).weaken left.shorter
  simpa only [Parsed.andThen, bind_assoc, pure_bind] using hrest

theorem Relabels.infixes_follows (h : Relabels φ g₀ g) (hk : (hookContract φ g₀ g).HoldsBelow ts)
    (right : UInt32) (left : Tree ι) :
    Follows (Parsed.andThen (g.recast φ)) (g₀.withoutHooks.infixes right left ts)
      (g.recast φ left >>= fun left => g.infixes right left ts) := by
  cases ts with
  | nil =>
    simp only [Grammar.infixes]
    exact follows_ok rfl
  | cons t ts =>
    simp only [Grammar.infixes]
    refine (h.symbol_follows t).after _ fun s hs => ?_
    simp only [pure_bind, Symbol.binds_relabel, Symbol.arity_relabel, Symbol.power_relabel,
      build_withoutHooks]
    by_cases hbinds : s.binds right = true
    · by_cases harity : s.arity = 2
      · simp only [hbinds, harity, if_true]
        refine (hk.tail.expression s.power).after _ fun operand hoperand => ?_
        have hus := hk (Nat.lt_succ_of_lt operand.shorter)
        have hrest := (hus.infixes right (.node s.kind t.text t.span [left, operand.value])).weaken
          (Nat.succ_le_succ (Nat.le_succ_of_le (Nat.le_of_lt operand.shorter)))
        simpa only [Parsed.andThen, recast_two, bind_assoc, pure_bind] using hrest
      · simp only [hbinds, harity, if_true]
        exact follows_error_after _ _ _ _
    · simp only [hbinds]
      exact follows_ok rfl

theorem operands_follow (hk : (hookContract φ g₀ g).HoldsBelow ts)
    (hexpression : ∀ right, Follows (Parsed.andThen (g.recast φ))
      (g₀.withoutHooks.expression right ts) (g.expression right ts)) (count : Nat) :
    Follows (Parsed.andThen (g.recastAll φ)) (g₀.withoutHooks.operands count ts)
      (g.operands count ts) := by
  cases count with
  | zero =>
    simp only [Grammar.operands]
    exact follows_ok rfl
  | succ count =>
    simp only [Grammar.operands]
    refine (hexpression highestPower).bind fun first hfirst => ?_
    simp only [Parsed.andThen, bind_assoc, pure_bind]
    refine ((hk first.shorter).operands count).after _ fun others hothers => follows_ok ?_
    simp only [Parsed.andThen, recastAll_cons, bind_assoc, pure_bind]

theorem Relabels.isInductive_hookContract (h : Relabels φ g₀ g) :
    (hookContract φ g₀ g).IsInductive where
  primary := h.primary_follows
  expression := expression_follows
  infixes := h.infixes_follows
  operands := operands_follow

/-- A whole run with hooks follows the one without. -/
theorem Relabels.parse_follows (h : Relabels φ g₀ g) (ts : List Token) :
    Follows (fun tree => do
        let tree ← g.recast φ tree
        refusal (g.acceptRoot tree)
        return tree)
      (g₀.withoutHooks.parse ts) (g.parse ts) := by
  unfold parse
  refine ((h.isInductive_hookContract.holdsAt ts).expression 0).bind fun r hr => ?_
  simp only [Parsed.andThen, bind_assoc, pure_bind]
  cases r.rest with
  | nil => exact follows_ok rfl
  | cons t ts => exact follows_error_after _ _ _ _

theorem relabels_id (g : Grammar κ) : Relabels id g g := by
  intro t
  cases g.symbol t <;> rfl

/-- **Parsing with hooks is parsing without them and then completing the nodes of the tree**, each
    after its operands and from left to right, up to the first one that is refused, and the whole
    tree at last. If parsing fails without the hooks, it fails with them. -/
theorem parse_eq_rebuild (g : Grammar κ) (ts : List Token) :
    (∀ tree, g.withoutHooks.parse ts = .ok tree → g.parse ts = (do
      let completed ← g.rebuild tree
      refusal (g.acceptRoot completed)
      return completed)) ∧
    ∀ e, g.withoutHooks.parse ts = .error e → ∃ e', g.parse ts = .error e' := by
  have hfollows := (relabels_id g).parse_follows ts
  refine ⟨fun tree h => ?_, hfollows.error⟩
  have hparse := hfollows.ok tree h
  rwa [recast, Tree.relabel_id] at hparse

/-- The tokens of `!(E X a)`. -/
def negatedNext : List Token :=
  [.operator "!", .operator "(", .operator "E", .operator "X", .atom "a", .operator ")"]

/-- What they stand for, as long as no node is refused or replaced. -/
def negatedNextTree : Tree Construct :=
  .node .not "!" none
    [.node .opening "(" none
      [.node (.quantifier .some) "E" none
        [.node (.path (.unary .next)) "X" none [.node .atom "a" none []]]]]

theorem parse_eq_rebuild_negatedNext :
    Construct.grammar.withoutHooks.parse negatedNext = .ok negatedNextTree ∧
    Construct.grammar.parse negatedNext = .ok (.node .not "!" none
      [.node (.quantified .some (.unary .next)) "EX" none [.node .atom "a" none []]]) ∧
    Construct.grammar.withoutHooks.parse [.operator "("] = .error (.malformed .unexpectedEnd) ∧
    ∃ e, Construct.grammar.parse [.operator "("] = .error e := by
  have hclosed : Construct.grammar.withoutHooks.Closed [.operator ")"] := by
    rintro _ ⟨⟩
    exact ⟨_, rfl, rfl, fun p => by simp [Symbol.binds, Symbol.closingOp, Symbol.plain]⟩
  have hparse : Construct.grammar.withoutHooks.parse negatedNext = .ok negatedNextTree := by
    have hatom : Construct.grammar.withoutHooks.IsOperand [.atom "a"] _ :=
      isOperand_leaf rfl rfl rfl
    have hpath := hatom.single (t := .operator "X") rfl rfl rfl
    have hnext := hpath.single (t := .operator "E") rfl rfl rfl
    have hgroup := hnext.isExpression.group (t := .operator "(") rfl rfl rfl hclosed rfl
    have hnot := hgroup.single (t := .operator "!") rfl rfl rfl
    exact hnot.isExpression.parse rfl
  have hfails : Construct.grammar.withoutHooks.parse [.operator "("] =
      .error (.malformed .unexpectedEnd) := by
    have hs : Construct.grammar.withoutHooks.symbol (.operator "(") =
      .ok (.group .opening ")") := rfl
    simp only [parse, expression, primary, hs]
    rfl
  obtain ⟨hok, -⟩ := parse_eq_rebuild Construct.grammar negatedNext
  obtain ⟨-, herror⟩ := parse_eq_rebuild Construct.grammar [.operator "("]
  refine ⟨hparse, ?_, hfails, herror _ hfails⟩
  rw [hok _ hparse]
  rfl

end Grammar

end BranchingTime
