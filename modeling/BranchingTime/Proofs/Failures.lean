import BranchingTime.Precedence.Parser
import BranchingTime.Proofs.Attempts
import BranchingTime.Proofs.Contracts

set_option autoImplicit false

/-! # What the precedence parser fails with

A run of the parser that fails has met one of nine things (`Grammar.Failure`): the grammar has no
symbol for a token or refuses a node, or the tokens do not go on as the symbols demand. So what can
go wrong under one grammar is read off its symbols and its reasons to refuse a node, whatever the
tokens are (`Grammar.failure_of_parse`). This is a contract of all functions of the parser, as each
calls the others on what is left (`Grammar.failureContract`). -/

namespace BranchingTime

namespace Grammar

variable {κ : Type} {g : Grammar κ} {s : Symbol κ} {t : Token} {ts : List Token}

/-- What a run of the parser can fail with. -/
inductive Failure (g : Grammar κ) : Error → Prop where
  | symbol {t : Token} {e : Error} (h : g.symbol t = .error e) : Failure g e
  | refused {node : Tree κ} {reason : String} (h : g.accept node = .error reason) :
      Failure g (.malformed (.rejected reason))
  | refusedRoot {tree : Tree κ} {reason : String} (h : g.acceptRoot tree = .error reason) :
      Failure g (.malformed (.rejected reason))
  | unexpectedEnd : Failure g (.malformed .unexpectedEnd)
  | notAValue {t : Token} {s : Symbol κ} (hs : g.symbol t = .ok s) (h : s.leading = .refused) :
      Failure g (.malformed (.notAValue t.text))
  | notInfix {t : Token} {s : Symbol κ} {right : UInt32} (hs : g.symbol t = .ok s)
      (hbinds : s.binds right = true) (harity : s.arity ≠ 2) :
      Failure g (.malformed (.notInfix t.text))
  | unclosed (closer : String) : Failure g (.malformed (.unclosed closer none))
  | notCloser {closer : String} {t : Token} (h : t.text ≠ closer) :
      Failure g (.malformed (.unclosed closer (some t.text)))
  | trailing (t : Token) : Failure g (.malformed (.trailing t.text))

/-! ## Parts of a run -/

theorem failure_of_symbol (t : Token) : FailsWithin g.Failure (g.symbol t) :=
  fun _ h => .symbol h

theorem failure_of_build (s : Symbol κ) (t : Token) (children : List (Tree κ)) :
    FailsWithin g.Failure (g.build s t children) := by
  unfold build complete refusal
  cases h : g.accept (.node s.kind t.text t.span children) with
  | error reason => exact failsWithin_error (.refused h)
  | ok _ => exact failsWithin_ok _ _

theorem failure_of_postfixes (left : Tree κ) (ts : List Token) :
    FailsWithin g.Failure (g.postfixes left ts) := by
  induction ts generalizing left with
  | nil => exact failsWithin_ok _ _
  | cons t ts ih =>
    unfold postfixes
    refine (failure_of_symbol t).bind fun s hs => ?_
    split
    · refine (failure_of_build s t [left]).bind fun node _ => ?_
      exact (ih node).bind fun r _ => failsWithin_ok _ _
    · exact failsWithin_ok _ _

theorem failure_of_passCloser (closer : String) (ts : List Token) :
    FailsWithin g.Failure (g.passCloser closer ts) := by
  cases ts with
  | nil => exact failsWithin_error (.unclosed closer)
  | cons t ts =>
    rw [passCloser]
    split
    · exact (failure_of_symbol t).bind fun s _ => failsWithin_ok _ _
    · next h => exact failsWithin_error (.notCloser h)

/-! ## Whole runs -/

/-- The functions of the parser fail within the class. -/
def failureContract (g : Grammar κ) : Contract where
  primary ts := FailsWithin g.Failure (g.primary ts)
  expression ts := ∀ right, FailsWithin g.Failure (g.expression right ts)
  infixes ts := ∀ right left, FailsWithin g.Failure (g.infixes right left ts)
  operands ts := ∀ count, FailsWithin g.Failure (g.operands count ts)

theorem failure_of_primary (hk : g.failureContract.HoldsBelow ts) :
    FailsWithin g.Failure (g.primary ts) := by
  cases ts with
  | nil =>
    rw [primary]
    exact failsWithin_error .unexpectedEnd
  | cons t ts =>
    have hts := hk.tail
    rw [primary]
    refine (failure_of_symbol t).bind fun s hs => ?_
    split
    · next hleading => exact failsWithin_error (.notAValue hs hleading)
    · refine (failure_of_build s t []).bind fun node _ => ?_
      exact failure_of_postfixes node ts
    · next closer _ =>
      refine (hts.expression s.power).bind fun content _ => ?_
      refine (failure_of_build s t [content.value]).bind fun node _ => ?_
      refine (failure_of_passCloser closer content.rest).bind fun closed _ => ?_
      exact (failure_of_postfixes node closed.rest).bind fun r _ => failsWithin_ok _ _
    · refine hts.primary.bind fun operand _ => ?_
      exact (failure_of_build s t [operand.value]).bind fun node _ => failsWithin_ok _ _
    · next count _ =>
      refine (hts.operands count).bind fun r _ => ?_
      exact (failure_of_build s t r.value).bind fun node _ => failsWithin_ok _ _

theorem failure_of_expression (hk : g.failureContract.HoldsBelow ts)
    (hprimary : FailsWithin g.Failure (g.primary ts)) (right : UInt32) :
    FailsWithin g.Failure (g.expression right ts) := by
  rw [expression]
  refine hprimary.bind fun left _ => ?_
  exact ((hk left.shorter).infixes right left.value).bind fun r _ => failsWithin_ok _ _

theorem failure_of_infixes (hk : g.failureContract.HoldsBelow ts) (right : UInt32)
    (left : Tree κ) : FailsWithin g.Failure (g.infixes right left ts) := by
  cases ts with
  | nil =>
    rw [infixes]
    exact failsWithin_ok _ _
  | cons t ts =>
    rw [infixes]
    refine (failure_of_symbol t).bind fun s hs => ?_
    split
    · next hbinds =>
      split
      · refine (hk.tail.expression s.power).bind fun operand _ => ?_
        refine (failure_of_build s t [left, operand.value]).bind fun node _ => ?_
        have hrest := hk (Nat.lt_succ_of_lt operand.shorter)
        exact (hrest.infixes right node).bind fun r _ => failsWithin_ok _ _
      · next harity => exact failsWithin_error (.notInfix hs hbinds harity)
    · exact failsWithin_ok _ _

theorem failure_of_operands (hk : g.failureContract.HoldsBelow ts)
    (hexpression : ∀ right, FailsWithin g.Failure (g.expression right ts)) (count : Nat) :
    FailsWithin g.Failure (g.operands count ts) := by
  cases count with
  | zero =>
    rw [operands]
    exact failsWithin_ok _ _
  | succ count =>
    rw [operands]
    refine (hexpression highestPower).bind fun first _ => ?_
    exact ((hk first.shorter).operands count).bind fun others _ => failsWithin_ok _ _

theorem isInductive_failureContract (g : Grammar κ) : g.failureContract.IsInductive where
  primary := failure_of_primary
  expression := failure_of_expression
  infixes := failure_of_infixes
  operands := failure_of_operands

/-- **Whatever the tokens are, a parser fails with nothing else than what its grammar allows.** -/
theorem failure_of_parse (g : Grammar κ) (ts : List Token) :
    FailsWithin g.Failure (g.parse ts) := by
  unfold parse
  refine ((g.isInductive_failureContract.holdsAt ts).expression 0).bind fun r _ => ?_
  split
  · next t _ _ => exact failsWithin_error (.trailing t)
  · unfold refusal
    cases h : g.acceptRoot r.value with
    | error reason => exact failsWithin_error (.refusedRoot h)
    | ok _ => exact failsWithin_ok _ _

end Grammar

end BranchingTime
