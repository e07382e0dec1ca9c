import BranchingTime.Proofs.Members
import BranchingTime.Proofs.Sets
import Mathlib.Data.Finset.Card
import Mathlib.Data.Finset.Range

set_option autoImplicit false

/-! # Rows of words are finite sets

A `FiniteSet` is a finite set of numbers below a bound, and its operations are those of mathematics.
A row of words denotes one (`BitSet.denote`), no two rows denote the same one, and each operation on
rows denotes the operation on finite sets, down to what it answers and what it refuses
(`BitSet.operations_refine`).

Sets are worked with by commands on numbered places, each of which holds a set. Whoever gives a
sequence of commands cannot tell rows of words from finite sets: the answers are the same, and each
place holds a row that denotes the finite set there (`BitSet.run_refines`). This only needs that
one command preserves the relation, whatever the places hold. -/

namespace BranchingTime

/-! ## Operations on sets below a bound -/

/-- The operations on two sets. -/
inductive SetOp where
  | union
  | inter
  | diff
deriving DecidableEq, Repr

/-- What there is to do with sets of type `σ`. -/
structure SetOps (σ : Type) where
  empty : Nat → σ
  full : Nat → σ
  ofIndices : Nat → List Nat → Except Misuse σ
  insert : σ → Nat → Except Misuse (σ × Bool)
  remove : σ → Nat → σ × Bool
  combine : SetOp → σ → σ → Except Misuse σ
  compl : σ → σ

/-- The operations on rows of words. -/
def BitSet.operations : SetOps BitSet where
  empty := empty
  full := full
  ofIndices := ofIndices
  insert := insert
  remove := remove
  combine
    | .union => union
    | .inter => inter
    | .diff => diff
  compl := compl

/-- A finite set of numbers below a bound. -/
@[ext]
structure FiniteSet where
  bound : Nat
  members : Finset Nat
  lt_bound : ∀ i ∈ members, i < bound
deriving DecidableEq

namespace SetOp

/-- The operation on finite sets of numbers. -/
def apply : SetOp → Finset Nat → Finset Nat → Finset Nat
  | union, a, b => a ∪ b
  | inter, a, b => a ∩ b
  | diff, a, b => a \ b

theorem mem_or_mem_of_mem_apply {o : SetOp} {a b : Finset Nat} {i : Nat} (h : i ∈ o.apply a b) :
    i ∈ a ∨ i ∈ b := by
  cases o <;> simp only [apply, Finset.mem_union, Finset.mem_inter, Finset.mem_sdiff] at h <;> tauto

end SetOp

namespace FiniteSet

/-- The numbers listed, all of which have to be below the bound. The first one that is not is
    refused. -/
def ofIndices (n : Nat) (indices : List Nat) : Except Misuse FiniteSet :=
  match h : indices.find? (n ≤ ·) with
  | some i => .error (.outOfBound i n)
  | none => .ok ⟨n, indices.toFinset, by simpa using h⟩

/-- Put a number below the bound in, and tell whether it is new. -/
def insert (s : FiniteSet) (i : Nat) : Except Misuse (FiniteSet × Bool) :=
  if h : i < s.bound then
    .ok (⟨s.bound, Insert.insert i s.members, by simpa [h] using s.lt_bound⟩,
      decide (i ∉ s.members))
  else .error (.outOfBound i s.bound)

/-- Take a number out, and tell whether it was in. -/
def remove (s : FiniteSet) (i : Nat) : FiniteSet × Bool :=
  (⟨s.bound, s.members.erase i, fun j hj => s.lt_bound j (Finset.mem_of_mem_erase hj)⟩,
    decide (i ∈ s.members))

/-- Combine two sets, which have to have the same bound. -/
def combine (o : SetOp) (s t : FiniteSet) : Except Misuse FiniteSet :=
  if h : s.bound = t.bound then
    .ok ⟨s.bound, o.apply s.members t.members, fun i hi =>
      (SetOp.mem_or_mem_of_mem_apply hi).elim (s.lt_bound i) fun hi => h ▸ t.lt_bound i hi⟩
  else .error .differentBounds

/-- The operations on finite sets. -/
def operations : SetOps FiniteSet where
  empty n := ⟨n, ∅, by simp⟩
  full n := ⟨n, Finset.range n, by simp⟩
  ofIndices := ofIndices
  insert := insert
  remove := remove
  combine := combine
  compl s := ⟨s.bound, Finset.range s.bound \ s.members, by simp +contextual⟩

end FiniteSet

/-! ## Commands -/

/-- What a command does with the places. -/
inductive Operation where
  | empty (n : Nat)
  | full (n : Nat)
  | ofIndices (n : Nat) (indices : List Nat)
  /-- Insert an index into the set at the target itself. -/
  | insert (i : Nat)
  /-- Remove an index from the set at the target itself. -/
  | remove (i : Nat)
  | combine (o : SetOp) (left right : Nat)
  | compl (source : Nat)
deriving DecidableEq, Repr

/-- An operation, and the place that its result is put in. -/
structure Command where
  target : Nat
  operation : Operation
deriving DecidableEq, Repr

/-- What a command is answered with: the refusal, or what was told of the index. -/
abbrev Answer := Except Misuse (Option Bool)

namespace SetOps

variable {σ τ : Type}

/-- What an operation gives, the set and the answer. -/
def eval (o : SetOps σ) (places : Nat → σ) (c : Command) : Except Misuse (σ × Option Bool) :=
  match c.operation with
  | .empty n => .ok (o.empty n, none)
  | .full n => .ok (o.full n, none)
  | .ofIndices n indices => (o.ofIndices n indices).map (·, none)
  | .insert i => (o.insert (places c.target) i).map (Prod.map id some)
  | .remove i => .ok (Prod.map id some (o.remove (places c.target) i))
  | .combine op left right => (o.combine op (places left) (places right)).map (·, none)
  | .compl source => .ok (o.compl (places source), none)

/-- The answer to a command and the places after it. What is refused leaves all places as they
    are. -/
def step (o : SetOps σ) (places : Nat → σ) (c : Command) : Answer × (Nat → σ) :=
  match o.eval places c with
  | .ok (s, b) => (.ok b, Function.update places c.target s)
  | .error e => (.error e, places)

/-- The answers to the commands and the places after them. -/
def run (o : SetOps σ) (places : Nat → σ) : List Command → List Answer × (Nat → σ)
  | [] => ([], places)
  | c :: cs => ((o.step places c).1 :: (o.run (o.step places c).2 cs).1,
      (o.run (o.step places c).2 cs).2)

/-! ## Refinement -/

/-- Each operation of `o` is denoted by that of `p`, by way of `f`. -/
structure Refines (o : SetOps σ) (p : SetOps τ) (f : σ → τ) : Prop where
  empty : ∀ n, p.empty n = f (o.empty n)
  full : ∀ n, p.full n = f (o.full n)
  ofIndices : ∀ n indices, p.ofIndices n indices = (o.ofIndices n indices).map f
  insert : ∀ s i, p.insert (f s) i = (o.insert s i).map (Prod.map f id)
  remove : ∀ s i, p.remove (f s) i = Prod.map f id (o.remove s i)
  combine : ∀ op s t, p.combine op (f s) (f t) = (o.combine op s t).map f
  compl : ∀ s, p.compl (f s) = f (o.compl s)

variable {o : SetOps σ} {p : SetOps τ} {f : σ → τ}

theorem Refines.eval (h : Refines o p f) (places : Nat → σ) (c : Command) :
    p.eval (f ∘ places) c = (o.eval places c).map (Prod.map f id) := by
  obtain ⟨target, operation⟩ := c
  cases operation with
  | empty n => simp [SetOps.eval, h.empty, Except.map]
  | full n => simp [SetOps.eval, h.full, Except.map]
  | ofIndices n indices =>
    simp only [SetOps.eval, h.ofIndices]
    cases o.ofIndices n indices <;> simp [Except.map]
  | insert i =>
    simp only [SetOps.eval, Function.comp_apply, h.insert]
    cases o.insert (places target) i <;> simp [Except.map, Prod.map]
  | remove i => simp [SetOps.eval, h.remove, Except.map, Prod.map]
  | combine op left right =>
    simp only [SetOps.eval, Function.comp_apply, h.combine]
    cases o.combine op (places left) (places right) <;> simp [Except.map]
  | compl source => simp [SetOps.eval, h.compl, Except.map]

/-- One command is answered alike, and the places denote each other afterwards. -/
theorem Refines.step (h : Refines o p f) (places : Nat → σ) (c : Command) :
    p.step (f ∘ places) c = ((o.step places c).1, f ∘ (o.step places c).2) := by
  unfold SetOps.step
  rw [h.eval]
  cases o.eval places c with
  | error e => simp [Except.map]
  | ok r => simp [Except.map, Function.comp_update]

theorem Refines.run (h : Refines o p f) (places : Nat → σ) (cs : List Command) :
    p.run (f ∘ places) cs = ((o.run places cs).1, f ∘ (o.run places cs).2) := by
  induction cs generalizing places with
  | nil => simp [SetOps.run]
  | cons c cs ih => simp [SetOps.run, h.step, ih]

end SetOps

/-! ## What a row of words denotes -/

namespace BitSet

variable {s t u : BitSet} {i n : Nat} {indices : List Nat}

/-- The members of the row, as a finite set. -/
def denote (s : BitSet) : FiniteSet where
  bound := s.bound
  members := (Finset.range s.bound).filter (s.contains · = true)
  lt_bound _ hi := Finset.mem_range.1 (Finset.mem_filter.1 hi).1

@[simp] theorem bound_denote (s : BitSet) : s.denote.bound = s.bound := rfl

@[simp] theorem mem_denote : i ∈ s.denote.members ↔ s.contains i = true := by
  simp only [denote, Finset.mem_filter, Finset.mem_range, and_iff_right_iff_imp]
  exact lt_bound_of_contains

theorem denote_eq_iff {a : FiniteSet} :
    a = s.denote ↔ a.bound = s.bound ∧ ∀ i, i ∈ a.members ↔ s.contains i = true := by
  simp [FiniteSet.ext_iff, Finset.ext_iff]

theorem denote_injective : s.denote = t.denote ↔ s = t := by
  constructor
  · intro h
    obtain ⟨hbound, hmem⟩ := denote_eq_iff.1 h
    exact ext hbound fun i => Bool.eq_iff_iff.2 (by simpa using hmem i)
  · rintro rfl
    rfl

/-! ## What the operations denote -/

theorem ofIndices_of_find? (h : indices.find? (n ≤ ·) = some i) :
    ofIndices n indices = .error (.outOfBound i n) := by
  obtain ⟨hi, before, after, rfl, hbefore⟩ := List.find?_eq_some_iff_append.1 h
  have hlt : ∀ j ∈ before, j < n := fun j hj => by simpa using hbefore j hj
  obtain ⟨s, hs, hrep⟩ := represents_ofIndices hlt
  have hinsert : s.insert i = .error (.outOfBound i n) := by
    simpa [insert, hrep.bound] using hi
  unfold ofIndices at hs ⊢
  rw [List.foldlM_append, hs]
  simp [bind, Except.bind, hinsert, Except.map]

theorem denote_ofIndices (n : Nat) (indices : List Nat) :
    FiniteSet.ofIndices n indices = (ofIndices n indices).map denote := by
  unfold FiniteSet.ofIndices
  split
  · next i hi => rw [ofIndices_of_find? hi, Except.map]
  · next hnone =>
    have hlt : ∀ i ∈ indices, i < n := by simpa using hnone
    obtain ⟨s, hs, hrep⟩ := represents_ofIndices hlt
    rw [hs, Except.map, Except.ok.injEq, denote_eq_iff]
    refine ⟨hrep.bound.symm, fun i => ?_⟩
    rw [hrep.contains_iff, List.mem_toFinset]
    exact (and_iff_right_of_imp (hlt i)).symm

theorem denote_insert (s : BitSet) (i : Nat) :
    s.denote.insert i = (s.insert i).map (Prod.map denote id) := by
  by_cases hi : i < s.bound
  · rw [FiniteSet.insert, dif_pos (by simpa using hi), insert, dif_pos hi]
    simp only [Except.map, Prod.map, Except.ok.injEq, Prod.mk.injEq, denote_eq_iff, id_eq]
    refine ⟨⟨bound_denote s, fun j => ?_⟩, ?_⟩
    · simp [contains_set]
    · simp
  · rw [FiniteSet.insert, dif_neg (by simpa using hi), insert, dif_neg hi, Except.map,
      bound_denote]

theorem denote_remove (s : BitSet) (i : Nat) :
    s.denote.remove i = Prod.map denote id (s.remove i) := by
  unfold FiniteSet.remove remove
  split
  · next hi =>
    simp only [Prod.map, Prod.mk.injEq, denote_eq_iff, id_eq]
    refine ⟨⟨rfl, fun j => ?_⟩, ?_⟩
    · simp [contains_erase]
    · simp
  · next hi =>
    have hnot : s.contains i = false := by simp [contains, hi]
    simp only [Prod.map, Prod.mk.injEq, denote_eq_iff, id_eq]
    refine ⟨⟨rfl, fun j => ?_⟩, ?_⟩
    · simp
      rintro hj rfl
      simp [hnot] at hj
    · simp [hnot]

/-- The operation on words that an operation on sets is computed with. -/
def bitOp : SetOp → BitOp
  | .union => unionOp
  | .inter => interOp
  | .diff => diffOp

theorem operations_combine (o : SetOp) (s t : BitSet) :
    operations.combine o s t = combine (bitOp o) s t := by
  cases o <;> simp [operations, union, inter, diff, bitOp]

theorem mem_apply_denote (o : SetOp) (s t : BitSet) (i : Nat) :
    i ∈ o.apply s.denote.members t.denote.members ↔
      (bitOp o).onBit (s.contains i) (t.contains i) = true := by
  cases o <;> simp [SetOp.apply, bitOp, unionOp, interOp, diffOp]

theorem denote_combine (o : SetOp) (s t : BitSet) :
    s.denote.combine o t.denote = (operations.combine o s t).map denote := by
  rw [operations_combine]
  by_cases h : s.bound = t.bound
  · rw [FiniteSet.combine, dif_pos (by simpa using h), combine, dif_pos h]
    simp only [Except.map, Except.ok.injEq, denote_eq_iff]
    refine ⟨by simp, fun i => ?_⟩
    rw [mem_apply_denote, contains_zip]
  · rw [FiniteSet.combine, dif_neg (by simpa using h), combine, dif_neg h, Except.map]

theorem operations_refine : operations.Refines FiniteSet.operations denote where
  empty n := by simp [operations, FiniteSet.operations, denote_eq_iff]
  full n := by simp [operations, FiniteSet.operations, denote_eq_iff]
  ofIndices := denote_ofIndices
  insert := denote_insert
  remove := denote_remove
  combine := denote_combine
  compl s := by simp [operations, FiniteSet.operations, denote_eq_iff]

/-! ## Questions about rows -/

theorem size_eq_card (s : BitSet) : s.size = s.denote.members.card := by
  have hmembers : s.denote.members = s.toList.toFinset := by
    ext i
    simp
  rw [hmembers, List.toFinset_card_of_nodup s.nodup_toList, length_toList]

theorem isEmpty_iff : s.isEmpty = true ↔ ∀ i, s.contains i = false := by
  simp only [isEmpty, contains_eq_bit, Array.all_eq_true, beq_iff_eq]
  constructor
  · intro h i
    by_cases hi : i / 64 < s.words.size
    · rw [Words.bit_of_lt hi, h _ hi, Word.bit_zero]
    · exact Words.bit_of_size_le (by omega)
  · intro h k hk
    refine (Word.eq_zero_iff _).2 fun i hi => ?_
    have hdiv : (64 * k + i) / 64 = k := by omega
    have hmod : (64 * k + i) % 64 = i := by omega
    have := h (64 * k + i)
    rw [Words.bit_of_lt (by rw [hdiv]; exact hk)] at this
    simpa only [hdiv, hmod] using this

theorem isSubset_iff :
    s.isSubset t = true ↔ s.bound = t.bound ∧ ∀ i, s.contains i = true → t.contains i = true := by
  rw [isSubset, Bool.and_eq_true, beq_iff_eq]
  refine and_congr_right fun h => ?_
  -- the words are compared as those of the difference are looked through for members
  have hdiff : (Array.zipWith (fun v w => v &&& ~~~w == 0) s.words t.words).all id =
      (zip diffOp s t h).isEmpty := by
    simp only [isEmpty, zip, diffOp]
    rw [Bool.eq_iff_iff, Array.all_eq_true, Array.all_eq_true]
    simp
  rw [hdiff, isEmpty_iff]
  simp [contains_zip, diffOp]

/-! ## Runs -/

/-- What can be told of a row that denotes a finite set. -/
structure Stores (s : BitSet) (a : FiniteSet) : Prop where
  bound : s.bound = a.bound
  contains : ∀ i, s.contains i = true ↔ i ∈ a.members
  size_words : s.words.size = (a.bound + 63) / 64
  clear_tail : ∀ i, a.bound ≤ i → s.words.bit i = false
  size : s.size = a.members.card
  isEmpty : s.isEmpty = true ↔ a.members = ∅

theorem stores_denote (s : BitSet) : s.Stores s.denote where
  bound := rfl
  contains i := mem_denote.symm
  size_words := s.size_words
  clear_tail := s.clear_tail
  size := s.size_eq_card
  isEmpty := by simp [isEmpty_iff, Finset.eq_empty_iff_forall_notMem]

theorem isSubset_iff_denote :
    s.isSubset t = true ↔
      s.denote.bound = t.denote.bound ∧ s.denote.members ⊆ t.denote.members := by
  simp [isSubset_iff, Finset.subset_iff]

/-- **Rows of words cannot be told from the finite sets that they denote**, whatever rows the places
    hold at first and whatever the commands are. A command that is refused leaves all rows as they
    are. -/
theorem run_refines (places : Nat → BitSet) (commands : List Command) :
    let rows := operations.run places commands
    let sets := FiniteSet.operations.run (denote ∘ places) commands
    rows.1 = sets.1 ∧
    (∀ r, (rows.2 r).Stores (sets.2 r)) ∧
    (∀ r r', rows.2 r = rows.2 r' ↔
      (sets.2 r).bound = (sets.2 r').bound ∧ (sets.2 r).members = (sets.2 r').members) ∧
    (∀ r r', (rows.2 r).isSubset (rows.2 r') = true ↔
      (sets.2 r).bound = (sets.2 r').bound ∧ (sets.2 r).members ⊆ (sets.2 r').members) ∧
    ∀ c e, (operations.step rows.2 c).1 = .error e → (operations.step rows.2 c).2 = rows.2 := by
  intro rows sets
  have hsets : sets = (rows.1, denote ∘ rows.2) := operations_refine.run places commands
  rw [hsets]
  refine ⟨rfl, fun r => stores_denote _, fun r r' => ?_, fun r r' => isSubset_iff_denote, ?_⟩
  · rw [← denote_injective, FiniteSet.ext_iff]
    rfl
  · intro c e he
    unfold SetOps.step at he ⊢
    cases h : operations.eval rows.2 c with
    | error e' => rfl
    | ok x => simp [h] at he

/-- All numbers below 70 but the first and the last one, in a row of two words, with a member taken
    out of it, and a union of it with a row of one word. -/
def acrossWords : List Command :=
  [⟨0, .full 70⟩, ⟨1, .ofIndices 70 [69, 0]⟩, ⟨2, .combine .diff 0 1⟩, ⟨2, .remove 64⟩,
    ⟨3, .empty 64⟩, ⟨2, .combine .union 2 3⟩]

theorem run_refines_acrossWords :
    (operations.run (fun _ => .empty 0) acrossWords).1 =
      [.ok none, .ok none, .ok none, .ok (some true), .ok none, .error .differentBounds] ∧
    ((operations.run (fun _ => .empty 0) acrossWords).2 2).size = 67 ∧
    (operations.step (operations.run (fun _ => .empty 0) acrossWords).2 ⟨2, .insert 70⟩).1 =
      .error (.outOfBound 70 70) ∧
    (operations.step (operations.run (fun _ => .empty 0) acrossWords).2 ⟨2, .insert 70⟩).2 =
      (operations.run (fun _ => .empty 0) acrossWords).2 := by
  obtain ⟨hanswers, hstores, -, -, hrefused⟩ := run_refines (fun _ => .empty 0) acrossWords
  have hrefusal : (operations.step (operations.run (fun _ => .empty 0) acrossWords).2
      ⟨2, .insert 70⟩).1 = .error (.outOfBound 70 70) := by
    decide
  refine ⟨hanswers.trans (by decide), (hstores 2).size.trans ?_, hrefusal, hrefused _ _ hrefusal⟩
  decide

end BitSet

end BranchingTime
