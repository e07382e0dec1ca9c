import BranchingTime.Formula.Construct
import BranchingTime.Proofs.Turns
import Mathlib.Order.Basic
import Mathlib.Tactic.Tauto
import Mathlib.Data.Nat.Basic

set_option autoImplicit false

/-! # Derivations of formula text

The grammar of formula text without powers has four sorts of phrase:

    path        ::= implication | implication ("U" | "R" | "W") path
    implication ::= junction    | junction "->" implication
    junction    ::= operand     | junction ("&" | "|") operand
    operand     ::= atom | "(" path ")" | ("!" | "F" | "G" | "X" | "E" | "A") operand

A `Derivation` is a tree of these rules. It spells a token list, its yield, and it has a value,
which the grammar's demands on nodes may refuse. -/

namespace BranchingTime

/-- Whether the token is an operator with one of the spellings. -/
def Token.IsOperatorIn (t : Token) (texts : List String) : Prop :=
  t.kind = .operator ∧ t.text ∈ texts

/-- The node of a token with its operands, completed. -/
def Grammar.node {κ : Type} (g : Grammar κ) (t : Token) (children : List (Tree κ)) :
    Except Error (Tree κ) := do
  let s ← g.symbol t
  g.build s t children

namespace Construct

/-! ## Phrases -/

/-- The sorts of infix operators, the weakest first. -/
inductive Strength where
  | path
  | implication
  | junction
deriving DecidableEq

/-- The sorts of phrases. A joined phrase is held together by operators of the strength or of a
    greater one, if by any. -/
inductive Phrase where
  | joined (o : Strength)
  | operand
deriving DecidableEq

namespace Strength

/-- The spellings of the operators. -/
def spellings : Strength → List String
  | path => ["U", "R", "W"]
  | implication => ["->"]
  | junction => ["&", "|"]

/-- What stands to the left of an operator. -/
def left : Strength → Phrase
  | path => .joined implication
  | implication => .joined junction
  | junction => .joined junction

/-- What stands to the right of an operator. -/
def right : Strength → Phrase
  | path => .joined path
  | implication => .joined implication
  | junction => .operand

/-- What a joined phrase is if it has no operator of the strength. -/
def tighter : Strength → Phrase
  | path => .joined implication
  | implication => .joined junction
  | junction => .operand

/-- The power of an operator. -/
def power : Strength → UInt32
  | path => 10
  | implication => 20
  | junction => 30

/-- The symbol of an operator. -/
def symbol (o : Strength) (kind : Construct) : Symbol Construct :=
  { Symbol.infixOp kind o.power with rightAssoc := o != junction }

end Strength

namespace Phrase

/-- How tight the phrases are. -/
def rank : Phrase → Nat
  | joined .path => 0
  | joined .implication => 1
  | joined .junction => 2
  | operand => 3

/-- A phrase of the greater sort is one of the smaller sort as well. -/
instance : Preorder Phrase := Preorder.lift rank

instance (m n : Phrase) : Decidable (m ≤ n) := inferInstanceAs (Decidable (m.rank ≤ n.rank))

/-- What holds of a sort of phrase holds of all looser ones if it passes from tighter phrases to
    joined ones. -/
theorem of_le {P : Phrase → Prop} (hlift : ∀ o : Strength, P o.tighter → P (.joined o))
    {m n : Phrase} (hle : m ≤ n) (h : P n) : P m := by
  have hjunction : P .operand → P (.joined .junction) := hlift .junction
  have himplication : P (.joined .junction) → P (.joined .implication) := hlift .implication
  have hpath : P (.joined .implication) → P (.joined .path) := hlift .path
  rcases m with (_ | _ | _) | _ <;> rcases n with (_ | _ | _) | _ <;>
    first
    | exact absurd hle (by decide)
    | tauto

/-- The power to the right of which nothing belongs to a phrase that is complete. -/
def power : Phrase → UInt32
  | joined o => o.power
  | operand => 30

end Phrase

/-! ## Derivations -/

/-- The spellings of the operators that are applied to the next operand. -/
def prefixes : List String := ["!", "F", "G", "X", "E", "A"]

/-- How a phrase is built by the rules of the grammar. -/
inductive Derivation : Phrase → Type where
  | atom (t : Token) (ht : t.kind = .atom) : Derivation .operand
  | group (t : Token) (ht : t.IsOperatorIn ["("]) (d : Derivation (.joined .path)) (u : Token)
      (hu : u.IsOperatorIn [")"]) : Derivation .operand
  | applied (t : Token) (ht : t.IsOperatorIn prefixes) (d : Derivation .operand) :
      Derivation .operand
  | lift (o : Strength) (d : Derivation o.tighter) : Derivation (.joined o)
  | join (o : Strength) (a : Derivation o.left) (t : Token) (ht : t.IsOperatorIn o.spellings)
      (b : Derivation o.right) : Derivation (.joined o)

namespace Derivation

/-- The tokens that a derivation is of. -/
def yield : {n : Phrase} → Derivation n → List Token
  | _, atom t _ => [t]
  | _, group t _ d u _ => t :: (d.yield ++ [u])
  | _, applied t _ d => t :: d.yield
  | _, lift _ d => d.yield
  | _, join _ a t _ b => a.yield ++ t :: b.yield

/-- The tree that a grammar makes of a derivation, node by node from the leaves up. -/
def evaluate (g : Grammar Construct) :
    {n : Phrase} → Derivation n → Except Error (Tree Construct)
  | _, atom t _ => g.node t []
  | _, group t _ d _ _ => do
    let x ← d.evaluate g
    g.node t [x]
  | _, applied t _ d => do
    let x ← d.evaluate g
    g.node t [x]
  | _, lift _ d => d.evaluate g
  | _, join _ a t _ b => do
    let x ← a.evaluate g
    let y ← b.evaluate g
    g.node t [x, y]

end Derivation

/-! ## The table of symbols -/

variable {s : Symbol Construct} {t : Token} {c : Option Strength} {o : Strength} {n : Phrase}

/-- Whether the node is that of an operator that is applied to the next operand. -/
def isApplied : Construct → Bool
  | not => true
  | path (.unary _) => true
  | quantifier _ => true
  | _ => false

/-- The strength of a node that is that of an infix operator. -/
def strength? : Construct → Option Strength
  | connect .and => some .junction
  | connect .or => some .junction
  | connect .implies => some .implication
  | path (.binary _) => some .path
  | _ => none

/-- What the tokens of each sort are to the parser. -/
inductive Role (t : Token) : Symbol Construct → Prop where
  | atom (ht : t.kind = .atom) : Role t (.atom atom)
  | opening (ht : t.IsOperatorIn ["("]) : Role t (.group opening ")")
  | closing (ht : t.IsOperatorIn [")"]) : Role t (.closingOp closing)
  | applied (kind : Construct) (hkind : kind.isApplied = true) (ht : t.IsOperatorIn prefixes) :
      Role t (.prefixOp kind)
  | joining (o : Strength) (kind : Construct) (hkind : kind.strength? = some o)
      (ht : t.IsOperatorIn o.spellings) : Role t (o.symbol kind)

theorem role_of_symbol (h : symbol t = .ok s) : Role t s := by
  obtain ⟨kind, text, span⟩ := t
  cases kind with
  | atom =>
    cases h
    exact .atom rfl
  | operator =>
    simp only [symbol, symbolOf?] at h
    split at h
    · next s' hs =>
      cases h
      split at hs <;> cases hs
      · exact .joining .junction _ rfl ⟨rfl, by simp [Strength.spellings]⟩
      · exact .joining .junction _ rfl ⟨rfl, by simp [Strength.spellings]⟩
      · exact .joining .implication _ rfl ⟨rfl, by simp [Strength.spellings]⟩
      · exact .joining .path _ rfl ⟨rfl, by simp [Strength.spellings]⟩
      · exact .joining .path _ rfl ⟨rfl, by simp [Strength.spellings]⟩
      · exact .joining .path _ rfl ⟨rfl, by simp [Strength.spellings]⟩
      · exact .applied _ rfl ⟨rfl, by simp [prefixes]⟩
      · exact .applied _ rfl ⟨rfl, by simp [prefixes]⟩
      · exact .applied _ rfl ⟨rfl, by simp [prefixes]⟩
      · exact .applied _ rfl ⟨rfl, by simp [prefixes]⟩
      · exact .applied _ rfl ⟨rfl, by simp [prefixes]⟩
      · exact .applied _ rfl ⟨rfl, by simp [prefixes]⟩
      · exact .opening ⟨rfl, by simp⟩
      · exact .closing ⟨rfl, by simp⟩
    · cases h

theorem symbol_atom (ht : t.kind = .atom) : symbol t = .ok (.atom atom) := by
  rw [symbol, ht]

theorem symbol_opening (ht : t.IsOperatorIn ["("]) : symbol t = .ok (.group opening ")") := by
  obtain ⟨kind, text, span⟩ := t
  obtain ⟨rfl, htext⟩ := ht
  obtain rfl := List.mem_singleton.1 htext
  rfl

theorem symbol_closing (ht : t.IsOperatorIn [")"]) : symbol t = .ok (.closingOp closing) := by
  obtain ⟨kind, text, span⟩ := t
  obtain ⟨rfl, htext⟩ := ht
  obtain rfl := List.mem_singleton.1 htext
  rfl

theorem symbol_applied (ht : t.IsOperatorIn prefixes) :
    ∃ kind, isApplied kind = true ∧ symbol t = .ok (.prefixOp kind) := by
  obtain ⟨kind, text, span⟩ := t
  obtain ⟨rfl, htext⟩ := ht
  simp only [prefixes, List.mem_cons, List.not_mem_nil, or_false] at htext
  rcases htext with rfl | rfl | rfl | rfl | rfl | rfl <;> exact ⟨_, rfl, rfl⟩

theorem symbol_joining (ht : t.IsOperatorIn o.spellings) :
    ∃ kind, strength? kind = some o ∧ symbol t = .ok (o.symbol kind) := by
  obtain ⟨kind, text, span⟩ := t
  obtain ⟨rfl, htext⟩ := ht
  cases o with
  | path =>
    simp only [Strength.spellings, List.mem_cons, List.not_mem_nil, or_false] at htext
    rcases htext with rfl | rfl | rfl <;> exact ⟨_, rfl, rfl⟩
  | implication =>
    obtain rfl := List.mem_singleton.1 htext
    exact ⟨_, rfl, rfl⟩
  | junction =>
    simp only [Strength.spellings, List.mem_cons, List.not_mem_nil, or_false] at htext
    rcases htext with rfl | rfl <;> exact ⟨_, rfl, rfl⟩

/-! ## Powers and phrases

An expression is read at the power of the operator to its left. What phrase it is depends on that
operator alone, and two facts about the powers make the parser read that phrase: an expression goes
on with the operators that its phrase may have, and a phrase that is complete goes on with those
that it cannot be an operand of. -/

/-- The power at which an expression is read, to the right of an operator or of none. -/
def powerBehind (c : Option Strength) : UInt32 := c.elim 0 Strength.power

/-- The phrase that an expression is, to the right of an operator or of none. -/
def phraseBehind (c : Option Strength) : Phrase := c.elim (.joined .path) Strength.right

theorem binds_powerBehind (kind : Construct) (c : Option Strength) (o : Strength) :
    (o.symbol kind).binds (powerBehind c) = decide (phraseBehind c ≤ .joined o) := by
  cases o <;> rcases c with _ | c <;> try cases c
  all_goals rfl

theorem binds_power (kind : Construct) (n : Phrase) (o : Strength) :
    (o.symbol kind).binds n.power = !decide (o.left ≤ n) := by
  cases o <;> rcases n with n | _ <;> try cases n
  all_goals rfl

end Construct

end BranchingTime
