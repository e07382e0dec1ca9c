import BranchingTime.Formula.Parser
import BranchingTime.Proofs.Contracts
import BranchingTime.Proofs.Derivations
import Mathlib.Data.List.Forall2

set_option autoImplicit false

/-! # The parser accepts the phrases of its grammar

The power that the parser reads an expression at stands for a sort of phrase. In one direction
(`Derivation.isPhrase`), by induction on a derivation, its tokens are read as its value wherever the
phrase may stand, unless what follows goes on with it. In the other (`derivationContract`), shown of
all functions of the parser at once, what is read are the tokens of a derivation, and what is left
does not go on with the phrase: that is why an operator may take the phrase on its left for an
operand.

The second direction holds of the tokens as the parser takes them. It looks at the text alone of
what closes a group (`TakenFor`). -/

namespace BranchingTime

namespace Construct

open Grammar (Gives)

variable {g : Grammar Construct} {n m : Phrase} {o : Strength} {s : Symbol Construct} {t u : Token}
  {ts us rest : List Token} {tree x y : Tree Construct}

/-! ## From derivations to runs -/

/-- No token is a postfix operator. -/
theorem isTrailing_eq_false (h : symbol t = .ok s) : s.isTrailing = false := by
  cases role_of_symbol h <;> rfl

theorem settled_of_stopsAt (hg : g.symbol = symbol) {power : UInt32} (h : g.StopsAt power rest) :
    g.Settled rest := by
  intro t ht
  obtain ⟨s, hs, -⟩ := h t ht
  exact ⟨s, hs, isTrailing_eq_false (hg ▸ hs)⟩

theorem node_eq_ok_iff (hs : g.symbol t = .ok s) {children : List (Tree Construct)} :
    g.node t children = .ok tree ↔ g.build s t children = .ok tree := by
  rw [Grammar.node, hs]
  rfl

/-- The tokens are read as a phrase wherever one may stand, unless what follows goes on with the
    phrase. -/
def IsPhrase (g : Grammar Construct) (n : Phrase) (ts : List Token) (tree : Tree Construct) :
    Prop :=
  ∀ c, phraseBehind c ≤ n → ∀ rest out last, g.StopsAt n.power rest →
    Gives (g.infixes (powerBehind c) tree rest) out last →
    Gives (g.expression (powerBehind c) (ts ++ rest)) out last

theorem isPhrase_of_isOperand (hg : g.symbol = symbol) (h : g.IsOperand ts tree) :
    IsPhrase g .operand ts tree := by
  intro c _ rest out last hrest hinfixes
  exact Grammar.expression_of_primary (h rest (settled_of_stopsAt hg hrest)) hinfixes

theorem IsPhrase.lift (h : IsPhrase g o.tighter ts tree) : IsPhrase g (.joined o) ts tree := by
  have hle : .joined o ≤ o.tighter := by cases o <;> decide
  have hpower : (Phrase.joined o).power ≤ o.tighter.power := by cases o <;> decide
  intro c hc rest out last hrest hinfixes
  exact h c (hc.trans hle) rest out last (hrest.of_le hpower) hinfixes

/-- The right operand of an operator ends where the phrase of the operator does. -/
theorem IsPhrase.right (h : IsPhrase g o.right ts tree) (hrest : g.StopsAt o.power rest) :
    Gives (g.expression o.power (ts ++ rest)) tree rest := by
  have hpower : o.right.power = o.power := by cases o <;> rfl
  exact h (some o) le_rfl rest tree rest (hpower ▸ hrest) (Grammar.infixes_of_stopsAt tree hrest)

theorem IsPhrase.join (hg : g.symbol = symbol) (hx : IsPhrase g o.left ts x)
    (ht : t.IsOperatorIn o.spellings) (hy : IsPhrase g o.right us y)
    (hnode : g.node t [x, y] = .ok tree) : IsPhrase g (.joined o) (ts ++ t :: us) tree := by
  have hle : .joined o ≤ o.left := by cases o <;> decide
  obtain ⟨kind, -, hsymbol⟩ := symbol_joining ht
  have hs : g.symbol t = .ok (o.symbol kind) := hg ▸ hsymbol
  intro c hc rest out last hrest hinfixes
  have hbuild := (node_eq_ok_iff hs).1 hnode
  have hbinds : (o.symbol kind).binds (powerBehind c) = true := by
    rw [binds_powerBehind, decide_eq_true hc]
  have hstop : g.StopsAt o.left.power (t :: (us ++ rest)) := by
    refine Grammar.stopsAt_cons hs ?_
    rw [binds_power, decide_eq_true le_rfl]
    rfl
  have hstep := Grammar.infixes_step hs hbinds rfl (hy.right hrest) hbuild hinfixes
  rw [List.append_assoc]
  exact hx c (hc.trans hle) _ out last hstop hstep

theorem IsPhrase.isExpression (h : IsPhrase g (.joined .path) ts tree) :
    g.IsExpression ts tree := by
  intro rest hrest
  exact h none le_rfl rest tree rest (hrest.stopsAt _) (Grammar.infixes_of_closed 0 tree hrest)

/-- Every derivation is read as what it evaluates to. -/
theorem Derivation.isPhrase (hg : g.symbol = symbol) (d : Derivation n)
    (hd : d.evaluate g = .ok tree) :
    IsPhrase g n d.yield tree ∧ (n = .operand → g.IsOperand d.yield tree) := by
  have hjoined : ∀ o, Phrase.joined o ≠ .operand := by
    intro o h
    cases h
  induction d generalizing tree with
  | atom t ht =>
    have hs : g.symbol t = .ok (.atom .atom) := hg ▸ symbol_atom ht
    have hread := Grammar.isOperand_leaf hs rfl ((node_eq_ok_iff hs).1 hd)
    exact ⟨isPhrase_of_isOperand hg hread, fun _ => hread⟩
  | group t ht d u hu ih =>
    obtain ⟨x, hx, hnode⟩ := bind_eq_ok.1 hd
    have hs : g.symbol t = .ok (.group opening ")") := hg ▸ symbol_opening ht
    have hclosing : g.Closed [u] := by
      intro v hv
      cases hv
      refine ⟨_, hg ▸ symbol_closing hu, rfl, ?_⟩
      intro p
      simp [Symbol.binds, Symbol.closingOp, Symbol.plain]
    have htext : u.text = ")" := List.mem_singleton.1 hu.2
    have hbuild := (node_eq_ok_iff hs).1 hnode
    have hread := (ih hx).1.isExpression.group hs (htext ▸ rfl) rfl hclosing hbuild
    exact ⟨isPhrase_of_isOperand hg hread, fun _ => hread⟩
  | applied t ht d ih =>
    obtain ⟨x, hx, hnode⟩ := bind_eq_ok.1 hd
    obtain ⟨kind, -, hsymbol⟩ := symbol_applied ht
    have hs : g.symbol t = .ok (.prefixOp kind) := hg ▸ hsymbol
    have hread := ((ih hx).2 rfl).single hs rfl ((node_eq_ok_iff hs).1 hnode)
    exact ⟨isPhrase_of_isOperand hg hread, fun _ => hread⟩
  | lift o d ih =>
    exact ⟨(ih hd).1.lift, fun h => absurd h (hjoined o)⟩
  | join o a t ht b iha ihb =>
    obtain ⟨x, hx, hrest⟩ := bind_eq_ok.1 hd
    obtain ⟨y, hy, hnode⟩ := bind_eq_ok.1 hrest
    exact ⟨(iha hx).1.join hg ht (ihb hy).1 hnode, fun h => absurd h (hjoined o)⟩

/-! ## From runs to derivations -/

/-- What the parser may take a token for. Where a group has to end it looks at the text alone, so
    there it takes an atom with the right text for the operator. -/
def TakenFor (t u : Token) : Prop := u = t ∨ t.text = ")" ∧ u = { t with kind := .operator }

/-- The tokens, as the parser takes them, derive the tree. -/
def Derives (g : Grammar Construct) (n : Phrase) (ts : List Token) (tree : Tree Construct) :
    Prop :=
  ∃ d : Derivation n, List.Forall₂ TakenFor ts d.yield ∧ d.evaluate g = .ok tree

theorem takenFor_refl (ts : List Token) : List.Forall₂ TakenFor ts ts :=
  List.forall₂_same.2 fun _ _ => Or.inl rfl

theorem derives_atom (ht : t.kind = .atom) (h : g.node t [] = .ok tree) :
    Derives g .operand [t] tree :=
  ⟨.atom t ht, takenFor_refl _, h⟩

theorem Derives.group (h : Derives g (.joined .path) ts x) (ht : t.IsOperatorIn ["("])
    (hu : u.text = ")") (hnode : g.node t [x] = .ok tree) :
    Derives g .operand (t :: (ts ++ [u])) tree := by
  obtain ⟨d, hd, hx⟩ := h
  have hclose : ({ u with kind := .operator } : Token).IsOperatorIn [")"] :=
    ⟨rfl, List.mem_singleton.2 hu⟩
  refine ⟨.group t ht d _ hclose, ?_, bind_eq_ok.2 ⟨x, hx, hnode⟩⟩
  exact .cons (Or.inl rfl) (List.rel_append hd (.cons (Or.inr ⟨hu, rfl⟩) .nil))

theorem Derives.applied (h : Derives g .operand ts x) (ht : t.IsOperatorIn prefixes)
    (hnode : g.node t [x] = .ok tree) : Derives g .operand (t :: ts) tree := by
  obtain ⟨d, hd, hx⟩ := h
  exact ⟨.applied t ht d, .cons (Or.inl rfl) hd, bind_eq_ok.2 ⟨x, hx, hnode⟩⟩

theorem Derives.join (hx : Derives g o.left ts x) (ht : t.IsOperatorIn o.spellings)
    (hy : Derives g o.right us y) (hnode : g.node t [x, y] = .ok tree) :
    Derives g (.joined o) (ts ++ t :: us) tree := by
  obtain ⟨a, ha, hx⟩ := hx
  obtain ⟨b, hb, hy⟩ := hy
  refine ⟨.join o a t ht b, List.rel_append ha (.cons (Or.inl rfl) hb), ?_⟩
  exact bind_eq_ok.2 ⟨x, hx, bind_eq_ok.2 ⟨y, hy, hnode⟩⟩

/-- A joined phrase need not have an operator. -/
theorem Derives.of_le (h : Derives g n ts tree) (hle : m ≤ n) : Derives g m ts tree := by
  refine Phrase.of_le (P := fun n => Derives g n ts tree) ?_ hle h
  rintro o ⟨d, hd, hx⟩
  exact ⟨.lift o d, hd, hx⟩

/-- The tokens begin with a phrase, and what is left does not go on with it at the power. -/
def Begins (g : Grammar Construct) (n : Phrase) (power : UInt32) (ts : List Token)
    (tree : Tree Construct) (rest : List Token) : Prop :=
  ∃ us, ts = us ++ rest ∧ Derives g n us tree ∧ g.StopsAt power rest

theorem stopsAt_of_settled (hg : g.symbol = symbol) (h : g.Settled rest) :
    g.StopsAt Phrase.operand.power rest := by
  intro t ht
  obtain ⟨s, hs, -⟩ := h t ht
  refine ⟨s, hs, ?_⟩
  cases role_of_symbol (hg ▸ hs) with
  | joining o kind hkind ht => cases o <;> rfl
  | _ => rfl

/-- As no token is a postfix operator, an operand is followed by none. -/
theorem postfixes_of_gives (hg : g.symbol = symbol) (h : Gives (g.postfixes x ts) tree rest) :
    x = tree ∧ ts = rest ∧ g.StopsAt Phrase.operand.power rest := by
  cases h.postfixTurn with
  | stop hsettled => exact ⟨rfl, rfl, stopsAt_of_settled hg hsettled⟩
  | apply hs htrailing =>
    rw [isTrailing_eq_false (hg ▸ hs)] at htrailing
    cases htrailing

/-- What the parser reads is derived. Of several operands nothing is said, as no operator takes
    them. -/
def derivationContract (g : Grammar Construct) : Contract where
  primary ts := ∀ ⦃tree rest⦄, Gives (g.primary ts) tree rest →
    Begins g .operand Phrase.operand.power ts tree rest
  expression ts := ∀ ⦃tree rest⦄ (c), Gives (g.expression (powerBehind c) ts) tree rest →
    Begins g (phraseBehind c) (powerBehind c) ts tree rest
  infixes ts := ∀ ⦃left tree rest us n⦄ (c), Derives g n us left → phraseBehind c ≤ n →
    g.StopsAt n.power ts → Gives (g.infixes (powerBehind c) left ts) tree rest →
    Begins g (phraseBehind c) (powerBehind c) (us ++ ts) tree rest
  operands _ := True

theorem begins_of_primary (hg : g.symbol = symbol) (hk : (derivationContract g).HoldsBelow ts)
    (h : Gives (g.primary ts) tree rest) :
    Begins g .operand Phrase.operand.power ts tree rest := by
  cases h.primaryTurn with
  | leaf hs hleading hnode hpostfixes =>
    obtain ⟨rfl, rfl, hstop⟩ := postfixes_of_gives hg hpostfixes
    cases role_of_symbol (hg ▸ hs) with
    | atom ht => exact ⟨[_], rfl, derives_atom ht ((node_eq_ok_iff hs).2 hnode), hstop⟩
    | _ => cases hleading
  | group hs hleading hcontent hclosing hnode hpostfixes =>
    obtain ⟨rfl, rfl, hstop⟩ := postfixes_of_gives hg hpostfixes
    cases role_of_symbol (hg ▸ hs) with
    | opening ht =>
      obtain ⟨us, rfl, hus, -⟩ := hk.tail.expression none hcontent
      have htext : ")" = _ := Symbol.Leading.group.inj hleading
      refine ⟨_, ?_, hus.group ht htext.symm ((node_eq_ok_iff hs).2 hnode), hstop⟩
      simp
    | _ => cases hleading
  | single hs hleading hoperand hnode =>
    cases role_of_symbol (hg ▸ hs) with
    | applied kind hkind ht =>
      obtain ⟨us, rfl, hus, hstop⟩ := hk.tail.primary hoperand
      exact ⟨_ :: us, rfl, hus.applied ht ((node_eq_ok_iff hs).2 hnode), hstop⟩
    | _ => cases hleading
  | many hs hleading =>
    cases role_of_symbol (hg ▸ hs) <;> cases hleading

theorem begins_of_expression (hk : (derivationContract g).HoldsBelow ts)
    (hprimary : (derivationContract g).primary ts) (c : Option Strength)
    (h : Gives (g.expression (powerBehind c) ts) tree rest) :
    Begins g (phraseBehind c) (powerBehind c) ts tree rest := by
  obtain ⟨left, us, hleft, hinfixes⟩ := h.expression
  obtain ⟨vs, hvs, hderives, hstop⟩ := hprimary hleft
  have hle : phraseBehind c ≤ .operand := by rcases c with _ | _ | _ | _ <;> decide
  obtain ⟨hlt, -⟩ := hleft
  rw [hvs]
  exact (hk hlt).infixes c hderives hle hstop hinfixes

theorem begins_of_infixes (hg : g.symbol = symbol) (hk : (derivationContract g).HoldsBelow ts)
    (c : Option Strength) (hleft : Derives g n us x) (hle : phraseBehind c ≤ n)
    (hstop : g.StopsAt n.power ts) (h : Gives (g.infixes (powerBehind c) x ts) tree rest) :
    Begins g (phraseBehind c) (powerBehind c) (us ++ ts) tree rest := by
  cases h.infixTurn with
  | stop hrest => exact ⟨us, rfl, hleft.of_le hle, hrest⟩
  | @apply s t ts ws rest operand node tree hs hbinds harity hoperand hnode hinfixes =>
    cases role_of_symbol (hg ▸ hs) with
    | joining o kind hkind ht =>
      obtain ⟨vs, rfl, hvs, hrest⟩ := hk.tail.expression (some o) hoperand
      -- the operator did not belong to the phrase on its left, so it may have it as an operand
      have hoperator : o.left ≤ n := by
        obtain ⟨s, hs', hbinds'⟩ := hstop _ rfl
        cases hs.symm.trans hs'
        simpa [binds_power] using hbinds'
      -- the operator belongs to the phrase that is read
      have hphrase : phraseBehind c ≤ .joined o := by
        simpa [binds_powerBehind] using hbinds
      have hjoined := (hleft.of_le hoperator).join ht hvs ((node_eq_ok_iff hs).2 hnode)
      have hshorter : ws.length < (t :: (vs ++ ws)).length := by
        rw [List.length_cons, List.length_append]
        omega
      have hbegins := (hk hshorter).infixes c hjoined hphrase hrest hinfixes
      rwa [List.append_assoc, List.cons_append] at hbegins
    | _ => cases harity

theorem isInductive_derivationContract (hg : g.symbol = symbol) :
    (derivationContract g).IsInductive where
  primary hk _ _ h := begins_of_primary hg hk h
  expression hk hprimary _ _ c h := begins_of_expression hk hprimary c h
  infixes hk _ _ _ _ _ c hleft hle hstop h := begins_of_infixes hg hk c hleft hle hstop h
  operands _ _ := trivial

/-- Every accepted token list, as the parser takes it, is derived. -/
theorem derives_of_parse (hg : g.symbol = symbol) (h : g.parse ts = .ok tree) :
    Derives g (.joined .path) ts tree := by
  obtain ⟨hgives, -⟩ := Grammar.parse_eq_ok_iff.1 h
  obtain ⟨us, hus, hderives, -⟩ :=
    ((isInductive_derivationContract hg).holdsAt ts).expression none hgives
  rw [List.append_nil] at hus
  exact hus ▸ hderives

/-- Every token list that is derived is accepted, if the grammar accepts its tree. -/
theorem Derivation.parse (hg : g.symbol = symbol) (d : Derivation (.joined .path))
    (hd : d.evaluate g = .ok tree) (hroot : g.acceptRoot tree = .ok ()) :
    g.parse d.yield = .ok tree :=
  (d.isPhrase hg hd).1.isExpression.parse hroot

end Construct

end BranchingTime
