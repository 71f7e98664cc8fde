import Cypher.Grammar.Expression
import Cypher.Proofs.Reading.Operators

/-!
# Reading expressions

A plain expression is read from its tokens where its height allows, and no
parenthesis of its text uses up the room: a group stands in parentheses
once, and what is between them is one level lower or is read by the same
operand. So the depth of the reading never passes the height of the tree.
-/

namespace Cypher

namespace Grammar

variable {config : Config} {d k : Nat} {rest : List Token}

theorem Reads.nested {α : Type} {p : Parser α} {before after : List Token} {Q : α → Prop}
    (hp : Reads (d + 1) p before after Q) (hd : d < config.maxDepth) :
    Reads d (nested config p) before after Q := by
  intro s hs
  have hroom : s.depth < config.maxDepth := hs.depth_eq.symm ▸ hd
  obtain ⟨a, s', hrun, ha, hs', hfaults⟩ := hp { s with depth := s.depth + 1 }
    ⟨hs.ahead_eq, hs.eof_eq, by rw [hs.depth_eq]⟩
  refine ⟨a, { s' with depth := s'.depth - 1 }, ?_, ha, ⟨hs'.ahead_eq, hs'.eof_eq, ?_⟩,
    hfaults⟩
  · unfold Grammar.nested
    rw [if_pos hroom, hrun]
  · show s'.depth - 1 = d
    rw [hs'.depth_eq]
    rfl

/-- One more level: what operands hold is read with a level less. -/
theorem ReadsUpTo.succ {expr : Parser Expression}
    (h : ReadsUpTo config.maxDepth (d + 1) k expr) (hd : d < config.maxDepth)
    (hlimit : k + 1 ≤ config.maxDepth) :
    ReadsUpTo config.maxDepth d (k + 1)
      (nested config (operators config (operand config expr))) := by
  have hoperand (c : Expression) (hc : c.Plain) (hk : c.height ≤ k + 1) :
      ReadsOperand (d + 1) (operand config expr) c.core := fun rest hrest =>
    reads_operand h hlimit hc.core (Nat.le_trans c.height_core_le hk) c.signs_core hrest
  constructor
  · intro e he hk rest hrest
    exact (reads_operators_signed he (Nat.le_trans hk hlimit) (hoperand e he hk) hrest).nested
      hd
  · intro e he hk hheight hgroup rest
    refine (reads_operators_inside he hheight hgroup (fun c hc => ?_) rfl).nested hd
    exact hoperand c (he.inside c hc) (Expression.height_children_le hk c hc)

/-- Every plain expression is read where there is room for its height. -/
theorem readsUpTo_expressionWithin (hk : k ≤ config.maxDepth) :
    ReadsUpTo config.maxDepth (config.maxDepth - k) k (expressionWithin config k) := by
  induction k with
  | zero =>
    constructor
    · intro e _ hheight
      exact absurd hheight (Nat.not_le.2 e.height_pos)
    · intro e _ hheight _ hgroup
      -- A group holds an expression, so it is at least two levels high.
      exfalso
      obtain ⟨c, hc⟩ : ∃ c, c ∈ e.children := by
        cases e with
        | prefixed op e s => exact ⟨e, by simp [Expression.children]⟩
        | infixed op l r s => exact ⟨l, by simp [Expression.children]⟩
        | nullCheck negated e s => exact ⟨e, by simp [Expression.children]⟩
        | _ => cases hgroup
      have := Expression.height_children_le hheight c hc
      have := c.height_pos
      omega
  | succ k ih =>
    have hdepth : config.maxDepth - (k + 1) + 1 = config.maxDepth - k := by omega
    have hinner := ih (Nat.le_of_succ_le hk)
    rw [← hdepth] at hinner
    exact hinner.succ (by omega) hk

/-- A plain expression no higher than the limit is read wherever
expressions stop. -/
theorem readsTree_expression {e : Expression} (he : e.Plain)
    (hheight : e.height ≤ config.maxDepth) : ReadsTree 0 (expression config) e := by
  have hall := readsUpTo_expressionWithin (Nat.le_refl config.maxDepth)
  rw [Nat.sub_self] at hall
  exact hall.tree e he hheight

end Grammar

end Cypher
