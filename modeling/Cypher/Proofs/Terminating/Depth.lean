import Cypher.Proofs.Closed.Query
import Cypher.Proofs.Ensured.Basic
import Cypher.Proofs.Leads

/-!
# Expressions without a store of levels

`expressionWithin` is given the number of levels that are left, so that it can
be defined by recursion. The number is never met: a state knows how deep it is
nested, and `nested` lets no state deeper than the limit. So an expression is
read by a parser that calls itself, with nothing to count down.

The reason is that no production looks at a parser of expressions from a state
that is deeper than the one it started in. Two parsers of expressions that
coincide at some depths are therefore as good as one another at those depths.
-/

namespace Cypher.Grammar

/-- The state that a run ends in, whether it answers or stops. -/
def stateOf : EStateM.Result Fault State α → State
  | .ok _ s => s
  | .error _ s => s

/-- However a run ends, the reading has only moved on. -/
def Moves (p : Parser α) : Prop := ∀ s : State, s.Advances (stateOf (p s))

/-- The parsers only move on, and run alike at the depths in question. -/
structure Coincides (D : Nat → Prop) (p p' : Parser α) : Prop where
  moves : Moves p
  same : ∀ s : State, D s.depth → p s = p' s

theorem Moves.leads {p : Parser α} (h : Moves p) (s : State) :
    Leads p s fun _ s' => s.Advances s' := by
  intro a s' hrun
  have hmoves := h s
  rw [hrun] at hmoves
  exact hmoves

theorem Moves.proceeds {p : Parser α} (h : Moves p) : Proceeds p := by
  intro s a s' hrun
  have hadvances := h.leads s a s' hrun
  exact ⟨hadvances.ahead.length_le, hadvances.eof⟩

namespace Coincides

variable {α β : Type} {D : Nat → Prop} {p p' : Parser α} {f f' : α → Parser β} {config : Config}

theorem of_moves (h : Moves p) : Coincides D p p := ⟨h, fun _ _ => rfl⟩

theorem step (h : Steps p) : Coincides D p p := by
  refine of_moves fun s => ?_
  rcases h s with ⟨a, hrun | hrun⟩ | ⟨cause, -, hrun⟩
  · rw [hrun]
    exact .refl s
  · rw [hrun]
    exact .advance s
  · rw [hrun]
    exact .refl s

theorem fail (cause : Cause) : Coincides D (fail cause : Parser α) (fail cause) :=
  of_moves fun s => .refl s

theorem bind (hp : Coincides D p p') (hf : ∀ a, Coincides D (f a) (f' a)) :
    Coincides D (p >>= f) (p' >>= f') := by
  constructor
  · intro s
    have hfirst := hp.moves s
    cases hrun : p s with
    | ok a s' =>
      rw [hrun] at hfirst
      rw [bind_ok hrun]
      exact hfirst.trans ((hf a).moves s')
    | error fault s' =>
      rw [hrun] at hfirst
      rw [bind_error hrun]
      exact hfirst
  · intro s hD
    have hsame := hp.same s hD
    have hfirst := hp.moves s
    cases hrun : p s with
    | ok a s' =>
      rw [hrun] at hfirst
      rw [bind_ok hrun, bind_ok (hsame ▸ hrun)]
      exact (hf a).same s' (hfirst.depth ▸ hD)
    | error fault s' => rw [bind_error hrun, bind_error (hsame ▸ hrun)]

/-- What is read one level deeper is the same where that level is. -/
theorem nested {D' : Nat → Prop} (hD : ∀ d < config.maxDepth, D' d → D (d + 1))
    (h : Coincides D p p') : Coincides D' (nested config p) (nested config p') := by
  constructor
  · intro s
    unfold Grammar.nested
    split
    · have hinner := h.moves { s with depth := s.depth + 1 }
      split
      all_goals
        next hrun =>
        rw [hrun] at hinner
        obtain ⟨hahead, heof, hfaults, hdepth⟩ := hinner
        exact ⟨hahead, heof, hfaults, congrArg Nat.pred hdepth⟩
    · exact .refl s
  · intro s hs
    unfold Grammar.nested
    split
    · next hroom => rw [h.same { s with depth := s.depth + 1 } (hD _ hroom hs)]
    · rfl

theorem recoverExpression :
    Coincides D (recoverExpression config) (recoverExpression config) := by
  unfold Grammar.recoverExpression
  split
  · refine of_moves fun s => ?_
    have hrecorded : s.Advances
        { s with faults := s.faults ++ [⟨.expectedExpression, s.current.site⟩] } :=
      ⟨List.suffix_refl _, rfl, List.prefix_append _ _, rfl⟩
    exact hrecorded.trans (.advanceBy _ _)
  · exact fail _

theorem closed (hD : ∀ d < config.maxDepth, D d → D (d + 1)) :
    Closed config fun _ p p' => Coincides D p p' where
  step := .step
  bind := .bind
  nested := .nested hD
  recover := recoverExpression

theorem checkChain (level : Level) (st : Stacks) :
    Coincides D (checkChain level st) (checkChain level st) := by
  unfold Grammar.checkChain
  split
  · exact step (.pure ())
  · split
    · exact fail _
    · exact step (.pure ())

end Coincides

/-! ## The levels that are left -/

variable {config : Config}

/-- A level more changes nothing where the state has no more levels left. -/
theorem coincides_expressionWithin (config : Config) (room : Nat) :
    Coincides (fun d => config.maxDepth ≤ d + room) (expressionWithin config room)
      (expressionWithin config (room + 1)) := by
  induction room with
  | zero =>
    refine ⟨(Coincides.step (D := fun _ => True) .tooDeep).moves, fun s hs => ?_⟩
    exact (if_neg (Nat.not_lt.2 hs)).symm
  | succ room ih =>
    have hclosed : Closed config fun _ p p' =>
        Coincides (fun d => config.maxDepth ≤ d + room) p p' :=
      Coincides.closed fun d _ hd => by omega
    -- One level down, one level less is left.
    exact (hclosed.operators Coincides.checkChain (hclosed.operand ih)).nested fun d _ hd => by omega

theorem moves_expression (config : Config) : Moves (expression config) :=
  (coincides_expressionWithin config config.maxDepth).moves

/-- An expression is read one level deeper, with expressions inside it. -/
theorem expression_eq (config : Config) (s : State) :
    expression config s
      = nested config (operators config (operand config (expression config))) s :=
  (coincides_expressionWithin config config.maxDepth).same s (Nat.le_add_left _ _)

end Cypher.Grammar
