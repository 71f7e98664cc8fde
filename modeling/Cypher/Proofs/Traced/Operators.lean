import Cypher.Proofs.Climbing.Operators
import Cypher.Proofs.Traced.Operand

/-!
# Tracing expressions

The stacks build what a climb builds. An operator takes its operands with all the
parentheses between them, so that only those in front of the first operand and behind
the last stay outside its node.
-/

namespace Cypher.Grammar

open Token (Kind)

variable {tokens : List Token} {s₀ s : State}

/-! ## Operators in the ledger -/

section Ledger

variable {kind : Kind}

theorem Ledger.past_of_prefixOperator {op : PrefixOperator}
    (h : PrefixOperator.ofKind? kind = some op) : ({} : Ledger).past kind = {} := by
  unfold PrefixOperator.ofKind? at h
  split at h
  · rfl
  · rfl
  · rfl
  · cases h

/-- The only operator that is a star is the one that multiplies. -/
theorem Ledger.past_of_infixOperator {op : InfixOperator}
    (h : InfixOperator.ofKind? kind = some op) :
    ({} : Ledger).past kind = { stars := (Form.ofInfix op).isStarred.toNat } := by
  unfold InfixOperator.ofKind? at h
  split at h <;> cases h <;> rfl

theorem Ledger.past_of_lookup_after {level : Level} (h : Level.lookup kind .after = some level) :
    ({} : Ledger).past kind = {} := by
  cases kind with
  | operator op => cases op <;> first | rfl | cases h
  | punctuation mark => cases mark <;> cases h
  | _ => rfl

end Ledger

/-! ## Climbs -/

section Climbing

variable {operand : Parser Operand} {climbs : Nat → Parser Expression}

theorem traces_climbFirst (hoperand : Traces tokens .operand operand fun o => [o.tree.sketch])
    (hclimbs : ∀ m, Traces tokens .operand (climbs m) fun e => [e.sketch]) :
    Traces tokens .operand (climbFirst operand climbs) fun c => [c.tree.sketch] := by
  intro s hs
  refine Leads.current ?_
  split
  · next level op hlevel hop =>
    refine Leads.advance ?_
    have h := (Traced.nothing hs).advance (Level.ne_eof_of_lookup hlevel)
    rw [Ledger.past_of_prefixOperator hop] at h
    refine (hclimbs _ h.here).bind fun right s h' => Leads.pure ?_
    exact (h.prepend h' right.isExpression_sketch).of_eq (by simp [Expression.sketch])
  · exact (hoperand hs).bind fun found s h => Leads.pure h

/-- The operator takes what has been read for its first operand. -/
theorem Traced.climbNext (hclimbs : ∀ m, Traces tokens .operand (climbs m) fun e => [e.sketch])
    {least : Nat} {c : Climb} (h : Traced tokens {} .operand s₀ [c.tree.sketch] s) :
    Leads (climbNext climbs least c) s fun r =>
      Traced tokens {} .operand s₀ [r.value.tree.sketch] := by
  refine Leads.current ?_
  split
  · next level hlevel =>
    split
    · refine Leads.advance (Leads.pure ?_)
      have hkind := Level.ne_eof_of_lookup hlevel
      have hedge := (h.here.placed.edge_advance (h.here.placed.ahead_ne_nil hkind)).2
      have hcheck := (Traced.nothing h.here).advance hkind
      rw [Ledger.past_of_lookup_after hlevel] at hcheck
      exact (h.extend hcheck).of_eq (by simp [Expression.sketch, ForInStep.value, hedge])
    · exact Leads.pure h
  · split
    · next level op hlevel hop =>
      split
      · have hcheck : Leads (checkLast level c.last) s fun _ s' => s' = s :=
          fun _ _ hrun => state_of_checkLast hrun
        refine hcheck.bind fun _ s' hs' => Leads.advance ?_
        subst hs'
        refine (hclimbs _ h.here.advance).bind fun right s h' => Leads.pure ?_
        have hnode := h.join (Form.ofInfix_eq op) (Level.ne_eof_of_lookup hlevel)
          (Ledger.past_of_infixOperator hop) h' right.isExpression_sketch
        exact hnode.of_eq (by simp [Expression.sketch, ForInStep.value])
      · exact Leads.pure h
    · exact Leads.pure h

theorem traces_climb (hoperand : Traces tokens .operand operand fun o => [o.tree.sketch])
    (room least : Nat) :
    Traces tokens .operand (climb operand room least) fun e => [e.sketch] := by
  induction room generalizing least with
  | zero => exact fun _ _ => Leads.fail
  | succ room ih =>
    intro s₀ hs
    refine (traces_climbFirst hoperand ih hs).bind fun first s h => ?_
    have hall : Leads (iterate (climbNext (climb operand room) least) first) s fun c =>
        Traced tokens {} .operand s₀ [c.tree.sketch] :=
      Leads.iterate h fun c s h => h.climbNext ih
    exact hall.bind fun all s h => Leads.pure h

end Climbing

/-! ## Expressions -/

variable {config : Config}

theorem traces_operators {room : Nat}
    (hexpr : Traces tokens .operand (expressionWithin config room) fun e => [e.sketch]) :
    Traces tokens .operand (operators config (operand config (expressionWithin config room)))
      fun e => [e.sketch] := by
  intro s hs e s' hrun
  rcases operators_refines config room hs.placed.ended with heq | ⟨s'', hdeep⟩
  · rw [heq] at hrun
    exact traces_climb (traces_operand hexpr) _ _ hs _ _ hrun
  · rw [hdeep] at hrun
    cases hrun

theorem traces_nested {p : Parser Expression}
    (hp : Traces tokens .operand p fun e => [e.sketch]) :
    Traces tokens .operand (nested config p) fun e => [e.sketch] := by
  intro s hs e s' hrun
  unfold nested at hrun
  split at hrun
  · split at hrun
    · next hinner =>
      cases hrun
      have hdeeper : State.Underway tokens { s with depth := s.depth + 1 } :=
        ⟨⟨hs.placed.apart, hs.placed.ahead, hs.placed.ended, hs.placed.stop_le⟩, hs.late⟩
      exact (hp hdeeper _ _ hinner).atDepth _ _
    · cases hrun
  · cases hrun

/-- An expression is traced from where it begins to where it ends. -/
theorem traces_expressionWithin (room : Nat) :
    Traces tokens .operand (expressionWithin config room) fun e => [e.sketch] := by
  induction room with
  | zero => exact fun _ _ => Leads.fail
  | succ room ih => exact traces_nested (traces_operators ih)

end Cypher.Grammar
