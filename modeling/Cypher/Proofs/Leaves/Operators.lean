import Cypher.Proofs.Climbing.Operators
import Cypher.Proofs.Leaves.Operand

/-!
# The leaves of expressions

The stacks build what a climb builds, and a climb puts the left side of an
operator, the operator and its right side together in the order in which they
are written. Operators are no leaves.
-/

namespace Cypher.Grammar

open Token (Kind)

/-! ## Passing operators -/

namespace Passes

variable {brackets : List Bracket} {modes : List Mode} {t : Token}

theorem prefixOperator {op : PrefixOperator} (hop : PrefixOperator.ofKind? t.kind = some op) :
    Passes t brackets [.value] [] brackets .value := by
  have hkind := PrefixOperator.kind_of_ofKind? hop
  cases op with
  | distinct | not => exact plain rfl (by simp) hkind.symm
  | negate => exact operator (.inl (by simp)) (by simp) hkind.symm

theorem infixOperator {op : InfixOperator} (hop : InfixOperator.ofKind? t.kind = some op) :
    Passes t brackets [.value, .call] [] brackets .value := by
  have hkind := InfixOperator.kind_of_ofKind? hop
  cases op with
  | or | xor | and | membership | contains => exact plain rfl (by simp) hkind.symm
  | _ => exact operator (.inl (by simp)) (by simp) hkind.symm

theorem nullCheck {level : Level} (hlevel : Level.lookup t.kind .after = some level) :
    Passes t brackets [.value, .call] [] brackets .value := by
  cases hkind : t.kind with
  | operator op =>
    refine operator (.inl ?_) (by simp) hkind
    rintro rfl
    rw [hkind] at hlevel
    cases hlevel
  | keyword word => rw [hkind] at hlevel; cases word <;> cases hlevel
  | punctuation mark => rw [hkind] at hlevel; cases mark <;> cases hlevel
  | _ => rw [hkind] at hlevel; cases hlevel

end Passes

/-! ## Climbing -/

section Climbing

variable {config : Config} {operand : Parser Operand} {climbs : Nat → Parser Expression}
  {brackets : List Bracket} {o : Outlook} {read : List Leaf} {s : State}

theorem covers_climbFirst (hoperand : Covers operand (·.tree.leaves) brackets [.value] [.value, .call])
    (hclimbs : ∀ m, Covers (climbs m) Expression.leaves brackets [.value] [.value, .call]) :
    Covers (climbFirst operand climbs) (·.tree.leaves) brackets [.value] [.value, .call] := by
  intro o read s h
  refine Leads.current ?_
  split
  · next hop =>
    refine Leads.advance ?_
    refine (hclimbs _ (h.advance_nil (.prefixOperator hop))).bind fun right s h => Leads.pure ?_
    exact h.of_eq (by simp [Expression.leaves])
  · exact (hoperand h).bind fun found s h => Leads.pure h

theorem leads_climbNext
    (hclimbs : ∀ m, Covers (climbs m) Expression.leaves brackets [.value] [.value, .call])
    {least : Nat} {c : Climb} (h : At o (read ++ c.tree.leaves) brackets [.value, .call] s) :
    Leads (climbNext climbs least c) s fun r =>
      At o (read ++ r.value.tree.leaves) brackets [.value, .call] := by
  refine Leads.current ?_
  split
  · next hlevel =>
    split
    · refine Leads.advance (Leads.pure ?_)
      exact ((h.advance_nil (.nullCheck hlevel)).mono (by simp)).of_eq
        (by simp [ForInStep.value, Expression.leaves])
    · exact Leads.pure h
  · split
    · next hop =>
      split
      · have hcheck {level : Level} : Leads (checkLast level c.last) s fun _ s' => s' = s :=
          fun _ _ hrun => state_of_checkLast hrun
        refine hcheck.bind fun _ s' hs' => Leads.advance ?_
        subst hs'
        refine (hclimbs _ (h.advance_nil (.infixOperator hop))).bind fun right s h =>
          Leads.pure ?_
        exact h.of_eq (by simp [ForInStep.value, Expression.leaves])
      · exact Leads.pure h
    · exact Leads.pure h

theorem covers_climb (hoperand : Covers operand (·.tree.leaves) brackets [.value] [.value, .call])
    (room least : Nat) :
    Covers (climb operand room least) Expression.leaves brackets [.value] [.value, .call] := by
  induction room generalizing least with
  | zero => exact fun _ _ _ _ => Leads.fail
  | succ room ih =>
    intro o read s h
    refine (covers_climbFirst hoperand ih h).bind fun first s h => ?_
    have hall : Leads (iterate (climbNext (climb operand room) least) first) s fun c =>
        At o (read ++ c.tree.leaves) brackets [.value, .call] :=
      Leads.iterate h fun c s h => leads_climbNext ih h
    exact hall.bind fun all s h => Leads.pure h

end Climbing

/-! ## Expressions -/

variable {config : Config}

theorem coversValues_operators (hrecover : config.recover = false) {room : Nat}
    (hexpr : CoversValues (expressionWithin config room)) :
    CoversValues (operators config (operand config (expressionWithin config room))) := by
  intro brackets hbrackets o read s h e s' hrun
  rcases operators_refines config room h.ended with heq | ⟨s'', hdeep⟩
  · rw [heq] at hrun
    exact covers_climb (covers_operand hrecover hexpr hbrackets) _ _ h _ _ hrun
  · rw [hdeep] at hrun
    cases hrun

theorem coversValues_nested {p : Parser Expression} (hp : CoversValues p) :
    CoversValues (nested config p) := by
  intro brackets hbrackets o read s h e s' hrun
  have hdepth {read : List Leaf} {modes : List Mode} {s : State} (n : Nat)
      (h : At o read brackets modes s) : At o read brackets modes { s with depth := n } :=
    ⟨h.scan, h.closing, h.proper, h.ended, h.room⟩
  unfold nested at hrun
  split at hrun
  · split at hrun
    · next hinner =>
      cases hrun
      exact hdepth _ (hp hbrackets (hdepth _ h) _ _ hinner)
    · cases hrun
  · cases hrun

/-- An expression is read to its end, wherever it may stand. -/
theorem coversValues_expressionWithin (hrecover : config.recover = false) (room : Nat) :
    CoversValues (expressionWithin config room) := by
  induction room with
  | zero => exact fun _ _ _ _ _ => Leads.fail
  | succ room ih => exact coversValues_nested (coversValues_operators hrecover ih)

end Cypher.Grammar
