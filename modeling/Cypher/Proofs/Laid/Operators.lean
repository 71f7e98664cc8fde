import Cypher.Proofs.Climbing.Operators
import Cypher.Proofs.Laid.Operand

/-!
# Laying out expressions

The stacks build what a climb builds, and a climb goes from left to right: it
has one operand laid out when it comes to an operator, and one more behind it. So
the node of an operator goes from the one operand to the other, or to the
operator itself where that stands behind its operand.

Between two operands there is an operator, which leads to a fresh place.
-/

namespace Cypher.Grammar

variable {tokens : List Token} {b f : Bool} {s₀ s : State}

section Climbing

variable {operand : Parser Operand} {climbs : Nat → Parser Expression}

theorem lays_climbFirst (hoperand : Lays tokens true operand fun o => [o.tree.outline])
    (hclimbs : ∀ m, Lays tokens true (climbs m) fun e => [e.outline]) :
    Lays tokens true (climbFirst operand climbs) fun c => [c.tree.outline] := by
  intro s h
  refine Leads.current ?_
  split
  · next level op hlevel _ =>
    refine Leads.advance ?_
    have hnext := h.advance (Level.ne_eof_of_lookup hlevel)
    refine ((hclimbs _).after hnext).bind fun right s h => Leads.pure ?_
    exact (h.wrapLast rfl).forget.of_eq (by simp [Expression.outline])
  · exact (hoperand s h).bind fun found s h => Leads.pure h

/-- The operator takes what has been read for its first operand. -/
theorem Since.climbNext (hclimbs : ∀ m, Lays tokens true (climbs m) fun e => [e.outline])
    {least : Nat} {c : Climb} (h : Since tokens b f s₀ [c.tree.outline] s) :
    Leads (climbNext climbs least c) s fun r =>
      Since tokens false false s₀ [r.value.tree.outline] := by
  refine Leads.current ?_
  split
  · next level hlevel =>
    split
    · refine Leads.advance (Leads.pure ?_)
      have hkind := Level.ne_eof_of_lookup hlevel
      have hedge := (h.placed.edge_advance (h.placed.ahead_ne_nil hkind)).2
      have hnode := ((h.advance hkind).wrapFirst fun _ => hedge.symm).forget
      exact hnode.of_eq (by simp [Expression.outline, ForInStep.value])
    · exact Leads.pure h.forget
  · split
    · next level op hlevel _ =>
      split
      · have hcheck : Leads (checkLast level c.last) s fun _ s' => s' = s :=
          fun _ _ hrun => state_of_checkLast hrun
        refine hcheck.bind fun _ s' hs' => Leads.advance ?_
        subst hs'
        have hnext := h.advance (Level.ne_eof_of_lookup hlevel)
        refine ((hclimbs _).after hnext).bind fun right s h => Leads.pure ?_
        have hnode := h.wrapBoth fun hlt => Nat.max_eq_left (Nat.le_of_lt hlt)
        exact hnode.forget.of_eq (by simp [Expression.outline, ForInStep.value, Span.join])
      · exact Leads.pure h.forget
    · exact Leads.pure h.forget

theorem lays_climb (hoperand : Lays tokens true operand fun o => [o.tree.outline])
    (room least : Nat) : Lays tokens true (climb operand room least) fun e => [e.outline] := by
  induction room generalizing least with
  | zero => exact fun _ _ => Leads.fail
  | succ room ih =>
    intro s₀ h
    refine (lays_climbFirst hoperand ih s₀ h).bind fun first s h => ?_
    have hall : Leads (iterate (climbNext (climb operand room) least) first) s fun c =>
        Since tokens false false s₀ [c.tree.outline] :=
      Leads.iterate h fun c s h => h.climbNext ih
    exact hall.bind fun all s h => Leads.pure h

end Climbing

/-! ## Expressions -/

variable {config : Config}

theorem lays_operators {room : Nat}
    (hexpr : Lays tokens true (expressionWithin config room) fun e => [e.outline]) :
    Lays tokens true (operators config (operand config (expressionWithin config room)))
      fun e => [e.outline] := by
  intro s h e s' hrun
  rcases operators_refines config room h.placed.ended with heq | ⟨s'', hdeep⟩
  · rw [heq] at hrun
    exact lays_climb (lays_operand hexpr) _ _ s h _ _ hrun
  · rw [hdeep] at hrun
    cases hrun

theorem lays_nested {p : Parser Expression} (hp : Lays tokens true p fun e => [e.outline]) :
    Lays tokens true (nested config p) fun e => [e.outline] := by
  intro s h e s' hrun
  unfold nested at hrun
  split at hrun
  · split at hrun
    · next hinner =>
      cases hrun
      exact (hp _ (h.atDepth _ _) _ _ hinner).atDepth _ _
    · cases hrun
  · cases hrun

/-- An expression is laid out from where it begins to where it ends, wherever no operand
has just been missed. -/
theorem lays_expressionWithin (room : Nat) :
    Lays tokens true (expressionWithin config room) fun e => [e.outline] := by
  induction room with
  | zero => exact fun _ _ => Leads.fail
  | succ room ih => exact lays_nested (lays_operators ih)

end Cypher.Grammar
