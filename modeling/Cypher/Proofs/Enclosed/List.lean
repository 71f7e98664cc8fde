import Cypher.Proofs.Disguised.Operators
import Cypher.Proofs.Enclosed.Lookahead
import Cypher.Proofs.Recovery

/-!
# Lists that open like comprehensions

A list may open with a node in parentheses, with a name and an equals sign in
front of it or without. Then it is foreseen to be a comprehension if `WHERE` or a
bar follows the node, or a relationship. An expression that starts there ends in
front of the first two, which end no item of a list; so a list that has been read
all the same goes on as a path.
-/

namespace Cypher.Grammar

open Token (Kind)

variable {config : Config} {expr : Parser Expression} {s s' : State} {rest : List Token}

/-- A loop is its first round, and the loop again if that goes on. -/
theorem Leads.iterateStep {α : Type} {step : α → Parser (ForInStep α)} {a : α}
    {Q : ForInStep α → State → Prop} {R : α → State → Prop} (hproceeds : ∀ a, Proceeds (step a))
    (hconsumes : Consumes step) (hs : s.Ended) (hstep : Leads (step a) s Q)
    (hdone : ∀ b s', Q (.done b) s' → R b s')
    (hyield : ∀ b s', Q (.yield b) s' → Leads (Grammar.iterate step b) s' R) :
    Leads (Grammar.iterate step a) s R := by
  intro b s' hrun
  have hloop := iterate_bind hproceeds hconsumes hs a (Pure.pure : α → Parser α)
  rw [bind_pure, hrun] at hloop
  obtain ⟨r, s₁, hround, hrest⟩ := bind_eq_ok hloop.symm
  have hQ := hstep r s₁ hround
  cases r with
  | done c =>
    cases hrest
    exact hdone _ _ hQ
  | yield c =>
    have hrest : (Grammar.iterate step c >>= Pure.pure) s₁ = .ok b s' := hrest
    rw [bind_pure] at hrest
    exact hyield c s₁ hQ b s' hrest

/-- The reading has come to `rest` or past it. If no relationship starts at `rest`, it has stopped
where a comprehension would go on. -/
structure Through (rest : List Token) (s : State) : Prop where
  ended : s.Ended
  length : s.ahead.length ≤ rest.length
  last : relationshipAhead rest = false →
    s.current.kind = .keyword .WHERE ∨ s.current.kind = .operator .pipe

theorem Through.endsExpression (h : Through rest s) (hrest : relationshipAhead rest = false) :
    endsExpression s.current.kind = true := by
  rcases h.last hrest with hkind | hkind <;> rw [hkind] <;> rfl

theorem Through.leads {α : Type} {p : Parser α} (h : Through rest s) (hmoves : Moves p)
    (hlast : relationshipAhead rest = false → Leads p s fun _ s' => s' = s) :
    Leads p s fun _ => Through rest := by
  intro a s' hrun
  have hadvances := hmoves.leads s a s' hrun
  refine ⟨(hmoves.proceeds s a s' hrun).ended h.ended,
    hadvances.ahead.length_le.trans h.length, fun hrest => ?_⟩
  rw [hlast hrest a s' hrun]
  exact h.last hrest

/-- A node stands ahead, and what follows it makes a comprehension of the list. -/
structure Barred (rest : List Token) (s : State) : Prop where
  bounded : s.Bounded
  node : nodeAhead s.ahead = true
  closed : afterGroup 0 s.ahead = some rest
  barred : relationshipAhead rest = false →
    kindAt rest 0 = some (.keyword .WHERE) ∨ kindAt rest 0 = some (.operator .pipe)

/-- Right behind the node. -/
theorem Barred.through (h : Barred rest s) (hs : s'.Ended) (hahead : s'.ahead = rest) :
    Through rest s' := by
  refine ⟨hs, Nat.le_of_eq (congrArg List.length hahead), fun hrest => ?_⟩
  have hkind := h.barred hrest
  rw [← hahead] at hkind
  exact hkind.imp kind_of_kindAt kind_of_kindAt

section Node

variable (hexpr : CoversValues expr) (hcoincides : Coincides (fun _ => False) expr expr)
  (h : Barred rest s)

include hexpr hcoincides h

theorem leads_groupThrough {begin : Nat} :
    Leads (group expr begin) s fun _ => Through rest := by
  have closed := closed_moves {}
  refine Leads.lookAhead ?_
  split
  · next hpath =>
    have hmore : relationshipAhead rest = true := by
      unfold patternPredicateAhead at hpath
      rw [h.closed] at hpath
      exact (Bool.and_eq_true_iff.1 hpath).2
    have hfirst : Leads (nodePattern expr) s fun _ => Through rest :=
      (leads_closedNode hexpr (by simp) h.bounded.scanned).mono fun _ s' hnode =>
        h.through hnode.2.ended (Option.some.inj (hnode.1.symm.trans h.closed))
    have hchain : Leads (patternChain expr none begin) s fun _ => Through rest :=
      hfirst.bind fun first s₁ hs₁ => hs₁.leads
        (.of (closed.bind (closed.many (closed.link hcoincides)) fun _ => closed.spanned begin _))
        fun hrest => by rw [hmore] at hrest; cases hrest
    exact hchain.bind fun p s₁ hs₁ => Leads.pure hs₁
  · have hmoves : Moves (parenthesized expr) := .of (closed.parenthesized hcoincides)
    intro e s' hrun
    exact h.through ((hmoves.proceeds _ _ _ hrun).ended h.bounded.ended)
      (Option.some.inj ((leads_closedGroup hexpr h.bounded e s' hrun).symm.trans h.closed))

theorem leads_operandThrough : Leads (operand config expr) s fun _ => Through rest := by
  have closed := closed_moves config
  have hatom : Leads (atom config expr) s fun _ => Through rest := by
    intro e s' hrun
    rw [atom_of_lparen (kind_of_kindAt (kindAt_of_nodeAhead h.node))] at hrun
    exact leads_groupThrough hexpr hcoincides h e s' hrun
  refine hatom.bind fun tree s₁ hs₁ => Leads.checkHeight ?_
  refine hs₁.leads (.of (closed.iterate (fun _ => closed.suffix hcoincides) _)) fun hrest => ?_
  rw [Leads, (exhausts_of_endsExpression config (hs₁.endsExpression hrest)).suffixes]
  exact Leads.pure rfl

/-- The rounds end with the one that has read the node, or go on. -/
theorem leads_roundThrough {st : Stacks} : Leads (round config (operand config expr) st) s
    fun r s' => Through rest s' ∧ (relationshipAhead rest = false → ∃ b, r = .done b) := by
  have closed := closed_moves config
  have hstart : iterate shiftPrefix st s = .ok st s := by
    refine iterate_of_done (shiftPrefix_none ?_)
    rw [kind_of_kindAt (kindAt_of_nodeAhead h.node)]
    rfl
  refine Leads.bind (Q := fun _ s' => s' = s) ?_ fun shifted s₁ hs₁ => ?_
  · intro _ _ hrun
    cases hstart.symm.trans hrun
    rfl
  · rw [hs₁]
    refine (leads_operandThrough hexpr hcoincides h).bind fun found s₂ hs₂ => ?_
    cases hrest : relationshipAhead rest with
    | true =>
      have hmoves : Moves (iterate (applyNullCheck config) (shifted.pushOperand found) >>=
          fun checked => shiftInfix config checked) :=
        .of (closed.bind (closed.iterate closed.applyNullCheck _) fun _ =>
          closed.shiftInfix Coincides.checkChain _)
      refine (hs₂.leads hmoves fun hnone => ?_).mono fun r s' hs' => ⟨hs', nofun⟩
      rw [hrest] at hnone
      cases hnone
    | false =>
      have hexhausts := exhausts_of_endsExpression config (hs₂.endsExpression hrest)
      intro r s' hrun
      rw [bind_ok (hexhausts.nullChecks _), hexhausts.infixes] at hrun
      cases hrun
      exact ⟨hs₂, fun _ => ⟨_, rfl⟩⟩

theorem leads_roundsThrough (st : Stacks) :
    Leads (iterate (round config (operand config expr)) st) s fun _ => Through rest := by
  have closed := closed_moves config
  have hoperand : Coincides (fun _ => False) (operand config expr) (operand config expr) :=
    closed.operand hcoincides
  have hround (st : Stacks) : Coincides (fun _ => False) (round config (operand config expr) st)
      (round config (operand config expr) st) := closed.round Coincides.checkChain hoperand st
  refine Leads.iterateStep (fun st => (hround st).moves.proceeds)
    (consumes_round hoperand.moves.proceeds) h.bounded.ended (leads_roundThrough hexpr hcoincides h)
    (fun _ _ hs' => hs'.1) fun st' s₁ hs₁ => ?_
  refine hs₁.1.leads (.of (closed.iterate hround st')) fun hrest => ?_
  obtain ⟨_, hdone⟩ := hs₁.2 hrest
  cases hdone

end Node

/-! ## Behind the name of a path -/

section Named

variable {name : String} (hs : s.Ended) (hname : s.current.kind = .identifier name)
  (heq : s.advance.current.kind = .operator .eq)

include hs hname heq

theorem leads_operandNamed : Leads (operand config expr) s fun _ s' => s' = s.advance := by
  have hs₁ := (State.Reaches.advance s).ended hs
  have hcall : callAhead (s.ahead.drop 1) = false := by
    rw [List.drop_one, ← State.ahead_advance_eq_tail, State.ahead_eq hs₁ (by simp [heq])]
    cases s.advance.advance.ahead <;> simp [callAhead, heq]
  have hatom : Leads (atom config expr) s fun _ s' => s' = s.advance := by
    refine Leads.current ?_
    rw [hname]
    refine Leads.lookAhead ?_
    rw [hcall, if_neg Bool.false_ne_true]
    refine Leads.advance (Leads.current ?_)
    rw [heq, if_neg (by simp)]
    exact Leads.pure rfl
  refine hatom.bind ?_
  rintro tree _ rfl
  refine Leads.checkHeight fun x s' hrun => ?_
  have hsuffix (x : Operand) : suffix config expr x s.advance = .ok (.done x) s.advance := by
    have hcurrent : current s.advance = .ok s.advance.current s.advance := rfl
    unfold suffix
    rw [bind_ok hcurrent, heq]
    rfl
  rw [iterate_of_done (hsuffix _)] at hrun
  cases hrun
  rfl

theorem leads_roundNamed {st : Stacks} : Leads (round config (operand config expr) st) s
    fun r s' => s' = s.advance.advance ∧ ∃ st', r = .yield st' := by
  have hstart : iterate shiftPrefix st s = .ok st s := by
    refine iterate_of_done (shiftPrefix_none ?_)
    rw [hname]
    rfl
  refine Leads.bind (Q := fun _ s' => s' = s) ?_ ?_
  · intro _ _ hrun
    cases hstart.symm.trans hrun
    rfl
  · intro shifted s₁ hs₁
    rw [hs₁]
    refine (leads_operandNamed hs hname heq).bind ?_
    rintro found _ rfl
    have hchecked (st : Stacks) : iterate (applyNullCheck config) st s.advance = .ok st s.advance := by
      refine iterate_of_done (applyNullCheck_none ?_)
      rw [heq]
      rfl
    intro r s' hrun
    rw [bind_ok (hchecked _)] at hrun
    obtain ⟨level, hlevel⟩ : ∃ level, Level.lookup s.advance.current.kind .between = some level := by
      rw [heq]
      exact ⟨_, rfl⟩
    obtain ⟨op, hop⟩ := exists_infixOperator hlevel
    rw [shiftInfix_some hlevel hop] at hrun
    obtain ⟨_, s₂, hstacks, hrun⟩ := bind_eq_ok hrun
    obtain rfl := state_of_checkStacks hstacks
    obtain ⟨_, s₃, hchain, hrun⟩ := bind_eq_ok hrun
    rw [checkChain_eq] at hchain
    obtain rfl := state_of_checkLast hchain
    cases hrun
    exact ⟨rfl, _, rfl⟩

end Named

/-! ## Items -/

theorem State.pathNode_ahead (s : State) :
    (∃ name, s.current.kind = .identifier name ∧ s.advance.current.kind = .operator .eq
      ∧ pathNode s.ahead = s.advance.advance.ahead) ∨ pathNode s.ahead = s.ahead := by
  unfold pathNode
  split
  · next name hname heq =>
    rw [kindAt_succ] at heq
    refine .inl ⟨name, kind_of_kindAt hname, kind_of_kindAt heq, ?_⟩
    rw [State.ahead_advance_eq_tail, State.ahead_advance_eq_tail, ← List.drop_one, ← List.drop_one,
      List.drop_drop]
  · exact .inr rfl

/-- What follows the node that the list opens with. -/
def Foretold (ahead : List Token) (s : State) : Prop :=
  ∃ rest, nodeAhead (pathNode ahead) = true ∧ afterGroup 0 (pathNode ahead) = some rest
    ∧ Through rest s

theorem leads_roundsForetold (hexpr : CoversValues expr)
    (hcoincides : Coincides (fun _ => False) expr expr) (hs : s.Bounded)
    (hahead : patternComprehensionAhead s.ahead = true) :
    Leads (iterate (round config (operand config expr)) {}) s fun _ => Foretold s.ahead := by
  have hoperand : Moves (operand config expr) := .of ((closed_moves config).operand hcoincides)
  rw [patternComprehensionAhead_eq_pathNode] at hahead
  unfold comprehensionAfterNode at hahead
  obtain ⟨hnode, hafter⟩ := Bool.and_eq_true_iff.1 hahead
  split at hafter
  · next rest hclosed =>
    have hbarred (hrest : relationshipAhead rest = false) :
        kindAt rest 0 = some (.keyword .WHERE) ∨ kindAt rest 0 = some (.operator .pipe) := by
      simpa [hrest] using hafter
    have hthrough {α : Type} {p : Parser α} {s₁ : State}
        (h : Leads p s₁ fun _ => Through rest) : Leads p s₁ fun _ => Foretold s.ahead :=
      h.mono fun _ _ h => ⟨rest, hnode, hclosed, h⟩
    rcases s.pathNode_ahead with ⟨name, hname, heq, hpath⟩ | hpath
    · refine Leads.iterateStep (proceeds_round hoperand.proceeds) (consumes_round hoperand.proceeds)
        hs.ended (leads_roundNamed hs.ended hname heq) (fun _ _ h => ?_) ?_
      · obtain ⟨-, _, hyield⟩ := h
        cases hyield
      · rintro st _ ⟨rfl, -⟩
        rw [hpath] at hnode hclosed
        exact hthrough (leads_roundsThrough hexpr hcoincides
          ⟨hs.advance.advance, hnode, hclosed, hbarred⟩ st)
    · rw [hpath] at hnode hclosed
      exact hthrough (leads_roundsThrough hexpr hcoincides ⟨hs, hnode, hclosed, hbarred⟩ {})
  · cases hafter

/-- An item that opens like a comprehension goes on past the node, or stops right behind it. -/
theorem leads_itemForetold (hrecover : config.recover = false) (room : Nat) (hs : s.Bounded)
    (hahead : patternComprehensionAhead s.ahead = true) :
    Leads (expressionWithin config room) s fun _ => Foretold s.ahead := by
  cases room with
  | zero => exact Leads.fail
  | succ room =>
    have hcovers : CoversValues (expressionWithin config room) :=
      coversValues_expressionWithin hrecover room
    intro e s' hrun
    obtain ⟨-, s₁, hoperators, rfl⟩ := nested_eq_ok.1 hrun
    obtain ⟨reached, s₂, hrounds, hrest⟩ := bind_eq_ok hoperators
    obtain ⟨_, s₃, hstacks, htop⟩ := bind_eq_ok hrest
    obtain rfl := state_of_checkStacks hstacks
    obtain ⟨rest, hnode, hclosed, hthrough⟩ := leads_roundsForetold hcovers
      (.of_moves (coincides_expressionWithin config room).moves)
      (s := { s with depth := s.depth + 1 }) ⟨hs.ended, hs.proper⟩ hahead _ _ hrounds
    have hstop : recoverExpression config = fail .expectedExpression :=
      if_neg (by rw [hrecover]; exact Bool.false_ne_true)
    rw [hstop] at htop
    generalize (reached.reduceAll config.maxDepth).operands = operands at htop
    cases operands with
    | nil => cases htop
    | cons top operands =>
      cases htop
      exact ⟨rest, hnode, hclosed, hthrough.ended, hthrough.length, hthrough.last⟩

theorem leads_itemsForetold (hrecover : config.recover = false) (room : Nat) (hs : s.Bounded)
    (hahead : patternComprehensionAhead s.ahead = true) :
    Leads (commaSeparated (expressionWithin config room)) s fun _ => Foretold s.ahead := by
  have closed := closed_moves config
  have hcoincides : Coincides (fun _ => False) (expressionWithin config room)
    (expressionWithin config room) := .of_moves (coincides_expressionWithin config room).moves
  refine (leads_itemForetold hrecover room hs hahead).bind fun first s₁ h => ?_
  obtain ⟨rest, hnode, hclosed, hs₁⟩ := h
  refine Leads.mono (Q := fun _ => Through rest) (hs₁.leads (.of ?_) fun hrest => ?_)
    fun _ _ h => ⟨rest, hnode, hclosed, h⟩
  · exact closed.bind (closed.many (closed.behind hcoincides)) fun _ => closed.step (.pure _)
  · have hcomma : behind (.punctuation .comma) (expressionWithin config room) s₁ = .ok none s₁ := by
      refine (bind_ok (p := consume _) (if_neg ?_)).trans rfl
      rcases hs₁.last hrest with hkind | hkind <;> simp [hkind]
    refine Leads.bind (Q := fun _ s' => s' = s₁) ?_ fun _ _ h => Leads.pure h
    intro items s₂ hmany
    rw [many_eq (shortens_behind (by simp) hcoincides.moves) hs₁.ended hcomma] at hmany
    cases hmany
    rfl

/-- A list that is read although it opens like a comprehension opens with a path, and ends
behind its first node. -/
theorem list_foreseen (hrecover : config.recover = false) {room begin : Nat} {list : Expression}
    (hs : s.Bounded)
    (hrun : listLiteral (expressionWithin config room) begin s = .ok list s')
    (hahead : patternComprehensionAhead (s.ahead.drop 1) = true) :
    ∃ rest, patternPredicateAhead (pathNode (s.ahead.drop 1)) = true
      ∧ afterGroup 0 (pathNode (s.ahead.drop 1)) = some rest
      ∧ s'.ahead.length < rest.length := by
  rw [List.drop_one, ← State.ahead_advance_eq_tail] at hahead ⊢
  have hitems := leads_itemsForetold hrecover room hs.advance hahead
  have hlist : Leads (listLiteral (expressionWithin config room) begin) s fun _ s' =>
      ∃ rest, patternPredicateAhead (pathNode s.advance.ahead) = true
        ∧ afterGroup 0 (pathNode s.advance.ahead) = some rest ∧ s'.ahead.length < rest.length := by
    refine Leads.expect fun _ => Leads.bind (Q := fun _ => Foretold s.advance.ahead) ?_
      fun items s₂ h => ?_
    · have hsome : s.advance.current.kind ≠ .punctuation .rbracket := by
        rw [patternComprehensionAhead_eq_pathNode] at hahead
        have hopen := kindAt_of_nodeAhead (Bool.and_eq_true_iff.1 hahead).1
        rcases s.advance.pathNode_ahead with ⟨name, hname, -⟩ | hpath
        · simp [hname]
        · rw [hpath] at hopen
          simp [kind_of_kindAt hopen]
      refine Leads.bind (Q := fun _ => Foretold s.advance.ahead) (Leads.current ?_)
        fun _ _ h => Leads.pure h
      rw [if_neg hsome]
      exact hitems.bind fun _ _ h => Leads.pure h
    · obtain ⟨rest, hnode, hclosed, hs₂⟩ := h
      refine Leads.expect fun hclose => Leads.spanFrom fun _ => Leads.pure ⟨rest, ?_, hclosed, ?_⟩
      · have hmore : relationshipAhead rest = true := by
          by_contra hnone
          rcases hs₂.last (Bool.eq_false_of_not_eq_true hnone) with hkind | hkind
          · rw [hclose] at hkind
            cases hkind
          · rw [hclose] at hkind
            cases hkind
        unfold patternPredicateAhead
        rw [hnode, hclosed]
        exact hmore
      · have hlt := s₂.length_advance hs₂.ended (by simp [hclose])
        exact Nat.lt_of_lt_of_le hlt hs₂.length
  exact hlist list s' hrun

end Cypher.Grammar
