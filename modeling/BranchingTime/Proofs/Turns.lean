import BranchingTime.Proofs.Attempts
import BranchingTime.Proofs.Parsing

set_option autoImplicit false

/-! # What a run of the precedence parser has done

A run that succeeds has taken one of a few turns, and with each turn come the runs it was made of.
There are four turns for a primary operand, one for each thing that its first token can do, and two
for an expression that may go on: either the next token binds the operand on its left, or nothing
that comes next does. Together with the rules for successful runs these say exactly what the parser
gives. -/

namespace BranchingTime

namespace Grammar

/-! ## Turns -/

section Turns

variable {κ : Type}

/-- The turns that apply postfix operators. -/
inductive PostfixTurn (g : Grammar κ) (left : Tree κ) :
    List Token → Tree κ → List Token → Prop where
  | stop {rest : List Token} (h : g.Settled rest) : PostfixTurn g left rest left rest
  | apply {s : Symbol κ} {t : Token} {ts rest : List Token} {node tree : Tree κ}
      (hs : g.symbol t = .ok s) (htrailing : s.isTrailing = true)
      (hnode : g.build s t [left] = .ok node) (hpostfixes : Gives (g.postfixes node ts) tree rest) :
      PostfixTurn g left (t :: ts) tree rest

/-- The turns that read a primary operand. -/
inductive PrimaryTurn (g : Grammar κ) : List Token → Tree κ → List Token → Prop where
  | leaf {s : Symbol κ} {t : Token} {ts rest : List Token} {node tree : Tree κ}
      (hs : g.symbol t = .ok s) (hleading : s.leading = .leaf)
      (hnode : g.build s t [] = .ok node) (hpostfixes : Gives (g.postfixes node ts) tree rest) :
      PrimaryTurn g (t :: ts) tree rest
  | group {s : Symbol κ} {t u : Token} {ts us rest : List Token} {content node tree : Tree κ}
      (hs : g.symbol t = .ok s) (hleading : s.leading = .group u.text)
      (hcontent : Gives (g.expression s.power ts) content (u :: us))
      (hclosing : ∃ s', g.symbol u = .ok s') (hnode : g.build s t [content] = .ok node)
      (hpostfixes : Gives (g.postfixes node us) tree rest) :
      PrimaryTurn g (t :: ts) tree rest
  | single {s : Symbol κ} {t : Token} {ts rest : List Token} {operand tree : Tree κ}
      (hs : g.symbol t = .ok s) (hleading : s.leading = .single)
      (hoperand : Gives (g.primary ts) operand rest) (hnode : g.build s t [operand] = .ok tree) :
      PrimaryTurn g (t :: ts) tree rest
  | many {s : Symbol κ} {t : Token} {ts rest : List Token} {count : Nat}
      {children : List (Tree κ)} {tree : Tree κ}
      (hs : g.symbol t = .ok s) (hleading : s.leading = .many count)
      (hoperands : Gives (g.operands count ts) children rest)
      (hnode : g.build s t children = .ok tree) : PrimaryTurn g (t :: ts) tree rest

/-- The turns that go on with an expression. -/
inductive InfixTurn (g : Grammar κ) (right : UInt32) (left : Tree κ) :
    List Token → Tree κ → List Token → Prop where
  | stop {rest : List Token} (h : g.StopsAt right rest) : InfixTurn g right left rest left rest
  | apply {s : Symbol κ} {t : Token} {ts us rest : List Token} {operand node tree : Tree κ}
      (hs : g.symbol t = .ok s) (hbinds : s.binds right = true) (harity : s.arity = 2)
      (hoperand : Gives (g.expression s.power ts) operand us)
      (hnode : g.build s t [left, operand] = .ok node)
      (hinfixes : Gives (g.infixes right node us) tree rest) :
      InfixTurn g right left (t :: ts) tree rest

end Turns

variable {κ α : Type} {n : Nat} {g : Grammar κ} {s : Symbol κ} {t : Token}
  {ts us rest : List Token} {left tree : Tree κ} {closer : String} {right : UInt32}

/-! ## From a run to its turn -/

theorem gives_of_eq {x : Except Error (Parsed α n)} {r : Parsed α n} (h : x = .ok r) :
    Gives x r.value r.rest :=
  ⟨r.shorter, h⟩

theorem Gives.postfixTurn (h : Gives (g.postfixes left ts) tree rest) :
    g.PostfixTurn left ts tree rest := by
  obtain ⟨hlt, h⟩ := h
  cases ts with
  | nil =>
    cases h
    exact .stop (closed_nil g).settled
  | cons t ts =>
    rw [postfixes, bind_eq_ok] at h
    obtain ⟨s, hs, h⟩ := h
    split at h
    · next htrailing =>
      obtain ⟨node, hnode, h⟩ := bind_eq_ok.1 h
      obtain ⟨r, hr, h⟩ := bind_eq_ok.1 h
      cases h
      exact .apply hs htrailing hnode (gives_of_eq hr)
    · next htrailing =>
      cases h
      exact .stop (settled_cons hs (by simpa using htrailing))

theorem passCloser_eq_ok {r : Parsed Unit ts.length} (h : g.passCloser closer ts = .ok r) :
    ∃ u, ts = u :: r.rest ∧ u.text = closer ∧ ∃ s, g.symbol u = .ok s := by
  cases ts with
  | nil => cases h
  | cons u us =>
    rw [passCloser] at h
    split at h
    · next hu =>
      obtain ⟨s, hs, h⟩ := bind_eq_ok.1 h
      cases h
      exact ⟨u, rfl, hu, s, hs⟩
    · cases h

theorem Gives.primaryTurn (h : Gives (g.primary ts) tree rest) : g.PrimaryTurn ts tree rest := by
  obtain ⟨hlt, h⟩ := h
  cases ts with
  | nil =>
    rw [primary] at h
    cases h
  | cons t ts =>
    rw [primary, bind_eq_ok] at h
    obtain ⟨s, hs, h⟩ := h
    split at h
    · cases h
    · next hleading =>
      obtain ⟨node, hnode, h⟩ := bind_eq_ok.1 h
      exact .leaf hs hleading hnode ⟨_, h⟩
    · next closer hleading =>
      obtain ⟨content, hcontent, h⟩ := bind_eq_ok.1 h
      obtain ⟨node, hnode, h⟩ := bind_eq_ok.1 h
      obtain ⟨closed, hclosed, h⟩ := bind_eq_ok.1 h
      obtain ⟨r, hr, h⟩ := bind_eq_ok.1 h
      cases h
      obtain ⟨u, hrest, rfl, hclosing⟩ := passCloser_eq_ok hclosed
      have hgives : Gives (g.expression s.power ts) content.value (u :: closed.rest) :=
        hrest ▸ gives_of_eq hcontent
      exact .group hs hleading hgives hclosing hnode (gives_of_eq hr)
    · next hleading =>
      obtain ⟨operand, hoperand, h⟩ := bind_eq_ok.1 h
      obtain ⟨node, hnode, h⟩ := bind_eq_ok.1 h
      cases h
      exact .single hs hleading (gives_of_eq hoperand) hnode
    · next count hleading =>
      obtain ⟨r, hr, h⟩ := bind_eq_ok.1 h
      obtain ⟨node, hnode, h⟩ := bind_eq_ok.1 h
      cases h
      exact .many hs hleading (gives_of_eq hr) hnode

theorem Gives.expression (h : Gives (g.expression right ts) tree rest) :
    ∃ left us, Gives (g.primary ts) left us ∧ Gives (g.infixes right left us) tree rest := by
  obtain ⟨hlt, h⟩ := h
  rw [Grammar.expression, bind_eq_ok] at h
  obtain ⟨left, hleft, h⟩ := h
  obtain ⟨r, hr, h⟩ := bind_eq_ok.1 h
  cases h
  exact ⟨left.value, left.rest, gives_of_eq hleft, gives_of_eq hr⟩

theorem Gives.infixTurn (h : Gives (g.infixes right left ts) tree rest) :
    g.InfixTurn right left ts tree rest := by
  obtain ⟨hlt, h⟩ := h
  cases ts with
  | nil =>
    rw [infixes] at h
    cases h
    exact .stop (stopsAt_nil g right)
  | cons t ts =>
    rw [infixes, bind_eq_ok] at h
    obtain ⟨s, hs, h⟩ := h
    split at h
    · next hbinds =>
      split at h
      · next harity =>
        obtain ⟨operand, hoperand, h⟩ := bind_eq_ok.1 h
        obtain ⟨node, hnode, h⟩ := bind_eq_ok.1 h
        obtain ⟨r, hr, h⟩ := bind_eq_ok.1 h
        cases h
        exact .apply hs hbinds harity (gives_of_eq hoperand) hnode (gives_of_eq hr)
      · cases h
    · next hbinds =>
      cases h
      exact .stop (stopsAt_cons hs (by simpa using hbinds))

/-- A whole input is accepted if it is one expression, and the grammar accepts it as one. -/
theorem parse_eq_ok_iff :
    g.parse ts = .ok tree ↔ Gives (g.expression 0 ts) tree [] ∧ g.acceptRoot tree = .ok () := by
  constructor
  · intro h
    rw [parse, bind_eq_ok] at h
    obtain ⟨r, hr, h⟩ := h
    split at h
    · cases h
    · next hrest =>
      obtain ⟨_, haccept, h⟩ := bind_eq_ok.1 h
      cases h
      refine ⟨hrest ▸ gives_of_eq hr, ?_⟩
      cases hroot : g.acceptRoot r.value with
      | error reason =>
        rw [hroot] at haccept
        cases haccept
      | ok _ => rfl
  · rintro ⟨⟨_, hgives⟩, haccept⟩
    simp only [parse, hgives, bind, Except.bind, refusal, haccept]
    rfl

end Grammar

end BranchingTime
