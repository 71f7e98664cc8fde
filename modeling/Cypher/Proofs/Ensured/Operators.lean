import Cypher.Grammar.Expression
import Cypher.Proofs.Ensured.Operand
import Cypher.Proofs.Leaves.Foreseen

/-!
# What reading an expression ensures

The stacks hold measured operands only: a reduction builds its node from
operands that were on the stack, and is refused before the node would pass
the limit. So the tree that is left in the end is within the limit, and so
was every tree that it is made of.

The knot between operands and expressions is untied by the room that is left for
nesting, as the grammar ties it.
-/

namespace Cypher

open Grammar (Config Made Measured Inherited)

variable {clean : Prop} {config : Config} {V : Expression → Prop}

/-! ## Reductions -/

/-- All operands on the stack are measured. -/
def Stacks.Measured (config : Config) (V : Expression → Prop) (s : Stacks) : Prop :=
  ∀ o ∈ s.operands, Grammar.Measured config V o

/-- An operator makes a measured operand of measured ones, if the limit lets it. -/
theorem Pending.measured_apply (hV : Inherited clean config V) {p : Pending}
    {operands rest : List Operand} {node : Operand}
    (hoperands : ∀ o ∈ operands, Measured config V o)
    (happly : p.apply operands = some (node, rest)) :
    (node.height ≤ config.maxDepth → Measured config V node) ∧
      ∀ o ∈ rest, Measured config V o := by
  unfold apply at happly
  split at happly
  · next right others =>
    obtain ⟨hright, hothers⟩ := List.forall_mem_cons.1 hoperands
    split at happly
    · cases happly
      refine ⟨.of_made hV ⟨fun _ => trivial, List.forall_mem_singleton.2 hright.holds⟩ ?_,
        hothers⟩
      rw [Expression.height, hright.height]
    · split at happly
      · next left others' =>
        obtain ⟨hleft, hothers'⟩ := List.forall_mem_cons.1 hothers
        cases happly
        refine ⟨.of_made hV ⟨fun _ => trivial, ?_⟩ ?_, hothers'⟩
        · rw [Expression.children, List.forall_mem_cons, List.forall_mem_singleton]
          exact ⟨hleft.holds, hright.holds⟩
        · rw [Expression.height, hleft.height, hright.height]
      · cases happly
  · cases happly

namespace Stacks

/-- Reducing keeps the operands measured, and also where it is refused. -/
theorem measured_settle (hV : Inherited clean config V) {due : Pending → Bool}
    {operands : List Operand} {pending : List Pending}
    (hoperands : ∀ o ∈ operands, Grammar.Measured config V o) :
    (settle config.maxDepth due operands pending).Measured config V := by
  induction pending generalizing operands with
  | nil => exact hoperands
  | cons top pending ih =>
    unfold settle
    split
    · split
      · next node rest happly =>
        obtain ⟨hnode, hrest⟩ := Pending.measured_apply hV hoperands happly
        split
        · next hlow => exact ih (List.forall_mem_cons.2 ⟨hnode hlow, hrest⟩)
        · exact hrest
      · exact List.forall_mem_nil _
    · exact hoperands

theorem measured_nullCheck (hV : Inherited clean config V) {negated : Bool} {stop : Nat}
    {s : Stacks} (hs : s.Measured config V) :
    (s.nullCheck config.maxDepth negated stop).Measured config V := by
  unfold nullCheck
  split
  · exact hs
  · next top rest hoperands =>
    have hall := hs
    rw [Measured, hoperands] at hall
    obtain ⟨htop, hrest⟩ := List.forall_mem_cons.1 hall
    split
    · exact hrest
    · next hlow =>
      have hmade : Made clean V (.nullCheck negated top.tree ⟨top.tree.span.start, stop⟩) :=
        ⟨fun _ => trivial, List.forall_mem_singleton.2 htop.holds⟩
      refine List.forall_mem_cons.2 ⟨.of_made hV hmade ?_ (Nat.lt_of_not_le hlow), hrest⟩
      rw [Expression.height, htop.height]

end Stacks

/-! ## Rounds -/

namespace Grammar

variable {s : Stacks}

theorem ensures_checkStacks : Ensures clean (checkStacks config s) fun _ => True := by
  unfold checkStacks
  split
  · exact .fail
  · exact .pure trivial

theorem ensures_checkChain {level : Level} :
    Ensures clean (checkChain level s) fun _ => True := by
  unfold checkChain
  split
  · exact .pure trivial
  · split
    · exact .fail
    · exact .pure trivial

/-- A waiting operator leaves the operands alone. -/
theorem ensures_shift {role : Pending.Role} {level : Level} :
    Ensures clean (shift role level s) fun s' => s'.operands = s.operands := by
  unfold shift
  refine .next .current fun t => ?_
  exact .map .advance fun _ _ => rfl

theorem ensures_shiftPrefix :
    Ensures clean (shiftPrefix s) fun r =>
      s.Measured config V → r.run.Measured config V := by
  unfold shiftPrefix
  refine .next .current fun t => ?_
  split
  · refine ensures_shift.map fun s' hsame hs => ?_
    rw [Stacks.Measured, ForInStep.run, hsame]
    exact hs
  · exact .pure id

theorem ensures_applyNullCheck (hV : Inherited clean config V) :
    Ensures clean (applyNullCheck config s) fun r =>
      s.Measured config V → r.run.Measured config V := by
  unfold applyNullCheck
  refine .next .current fun t => ?_
  split
  · refine .next ensures_checkStacks fun _ => ?_
    exact .map .advance fun _ _ hs => Stacks.measured_nullCheck hV (Stacks.measured_settle hV hs)
  · exact .pure id

theorem ensures_shiftInfix (hV : Inherited clean config V) :
    Ensures clean (shiftInfix config s) fun r =>
      s.Measured config V → r.run.Measured config V := by
  unfold shiftInfix
  refine .next .current fun t => ?_
  split
  · refine .next ensures_checkStacks fun _ => ?_
    refine .next ensures_checkChain fun _ => ?_
    refine ensures_shift.map fun s' hsame hs => ?_
    rw [Stacks.Measured, ForInStep.run, hsame]
    exact Stacks.measured_settle hV hs
  · exact .pure id

/-- A round puts one more operand on the stack. -/
theorem ensures_round (hV : Inherited clean config V) {operand : Parser Operand}
    (hoperand : Ensures clean operand (Measured config V)) :
    Ensures clean (round config operand s) fun r =>
      s.Measured config V → r.run.Measured config V := by
  have hprefixes (s : Stacks) : Ensures clean (shiftPrefix s) fun r =>
      s.Measured config V → r.run.Measured config V := ensures_shiftPrefix
  unfold round
  refine (Ensures.iterate hprefixes s).bind fun shifted => ?_
  refine hoperand.bind fun found => ?_
  refine (Ensures.iterate (fun _ => ensures_applyNullCheck hV) _).bind fun checked => ?_
  refine (ensures_shiftInfix hV).mono fun r hr hchecked hfound hshifted hs => ?_
  exact hr (hchecked (List.forall_mem_cons.2 ⟨hfound, hshifted hs⟩))

/-- An expression is within the limit, with all that it is made of. A hole is no
exception, unless no expression is within the limit. -/
theorem ensures_operators (hV : Inherited clean config V) (hroom : 0 < config.maxDepth)
    {operand : Parser Operand} (hoperand : Ensures clean operand (Measured config V)) :
    Ensures clean (operators config operand) V := by
  unfold operators
  refine (Ensures.iterate (fun _ => ensures_round hV hoperand) _).bind fun reached => ?_
  refine .next ensures_checkStacks fun _ => ?_
  split
  · next top rest htop =>
    refine .pure fun hreached => ?_
    have hall : (reached.reduceAll config.maxDepth).Measured config V :=
      Stacks.measured_settle hV (hreached (List.forall_mem_nil _))
    rw [Stacks.Measured, htop] at hall
    exact (hall top List.mem_cons_self).holds
  · refine ensures_recoverExpression.mono fun e he _ => hV e he.1 ?_
    rw [he.2]
    exact hroom

theorem foresees_expressionWithin {room : Nat} : Foresees (expressionWithin config room) :=
  fun _ _ _ _ hs hahead hrun hclean => chain_ne_nil_of_ok ⟨hs.eof, hs.proper⟩ hrun hclean hahead

/-- Whatever passes on from the children of a node within the limit to the node
holds of every expression that is read. -/
theorem ensures_expressionWithin (hV : Inherited clean config V) {room : Nat}
    (hroom : room ≤ config.maxDepth) : Ensures clean (expressionWithin config room) V := by
  induction room with
  | zero => exact .fail
  | succ room ih =>
    have hinner := ensures_operand hV (ih (Nat.le_of_succ_le hroom)) foresees_expressionWithin
    exact (ensures_operators hV (Nat.zero_lt_of_lt hroom) hinner).nested

theorem ensures_expression (hV : Inherited clean config V) :
    Ensures clean (expression config) V :=
  ensures_expressionWithin hV le_rfl

end Grammar

end Cypher
