import BranchingTime.Precedence.Tree

set_option autoImplicit false

/-! # Nodes and kinds of parse trees

What holds of all trees is shown by an induction over them (`Tree.ofChildren`), and what holds of
every node of a tree is said by means of the list of its nodes, in prefix order. The kinds of a tree
can be mapped, which leaves its shape, its texts and its ranges as they are. -/

namespace BranchingTime

namespace Tree

variable {κ ι : Type} {t u : Tree κ} {ts : List (Tree κ)}

/-! ## Induction -/

section

variable {P : Tree κ → Prop}

mutual

/-- What passes from the operands of every node to the node holds of all trees. -/
@[elab_as_elim]
theorem ofChildren (node : ∀ k text span (children : List (Tree κ)), (∀ t ∈ children, P t) →
    P (node k text span children)) : (t : Tree κ) → P t
  | .node k text span children => node k text span children (ofChildrenAll node children)

theorem ofChildrenAll (node : ∀ k text span (children : List (Tree κ)), (∀ t ∈ children, P t) →
    P (node k text span children)) : (ts : List (Tree κ)) → ∀ t ∈ ts, P t
  | [] => List.forall_mem_nil P
  | t :: ts => List.forall_mem_cons.2 ⟨ofChildren node t, ofChildrenAll node ts⟩

end

end

/-! ## Nodes -/

mutual

/-- All nodes of the tree, each with what is below it. -/
def nodes : Tree κ → List (Tree κ)
  | node k text span children => node k text span children :: nodesAll children

/-- All nodes of the trees. -/
def nodesAll : List (Tree κ) → List (Tree κ)
  | [] => []
  | t :: ts => t.nodes ++ nodesAll ts

end

theorem mem_nodesAll : u ∈ nodesAll ts ↔ ∃ t ∈ ts, u ∈ t.nodes := by
  induction ts with
  | nil => simp [nodesAll]
  | cons t ts ih => simp [nodesAll, ih]

/-! ## Kinds -/

mutual

/-- The same tree, with its kinds mapped. -/
def relabel (φ : κ → ι) : Tree κ → Tree ι
  | node k text span children => node (φ k) text span (relabelAll φ children)

/-- The same trees, with their kinds mapped. -/
def relabelAll (φ : κ → ι) : List (Tree κ) → List (Tree ι)
  | [] => []
  | t :: ts => t.relabel φ :: relabelAll φ ts

end

mutual

theorem relabel_id : (t : Tree κ) → t.relabel id = t
  | node _ _ _ children => by rw [relabel, relabelAll_id children, id]

theorem relabelAll_id : (ts : List (Tree κ)) → relabelAll id ts = ts
  | [] => rfl
  | t :: ts => by rw [relabelAll, relabel_id t, relabelAll_id ts]

end

end Tree

end BranchingTime
