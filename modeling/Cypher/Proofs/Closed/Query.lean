import Cypher.Grammar.Query
import Cypher.Proofs.Closed.Operand

/-!
# Clauses and queries

A closed property that also passes from operands to the expressions made of
them holds of the whole grammar.

The expressions of a query are read by one parser, and nothing but the property
is asked of it. So a query may be told from one over other expressions.
-/

namespace Cypher.Grammar

/-! ## Queries over other expressions -/

section Over

variable (config : Config) (expr : Parser Expression)

/-- A run of clauses with these expressions. -/
def singleQueryOver : Parser SingleQuery := do
  let begin ← start
  let clauses ← many (clause expr)
  if clauses.isEmpty then fail (.unexpected .noClause)
  else return ⟨clauses, ← spanFrom begin⟩

/-- The next single query of a union, with these expressions. -/
def unionPartOver (left : Joined) : Parser Joined := do
  let height := left.height + 1
  checkHeight config height
  let all ← consume (.keyword .ALL)
  let right ← singleQueryOver expr
  let span := ⟨left.body.span.start, right.span.stop⟩
  return ⟨.union all left.body right span, height⟩

/-- Joins one more single query with these expressions, if there is one. -/
def joinPartOver (left : Joined) : Parser (ForInStep Joined) := do
  if ← consume (.keyword .UNION) then return .yield (← unionPartOver config expr left)
  else return .done left

/-- A union with these expressions. -/
def queryBodyOver : Parser QueryBody := do
  let first ← singleQueryOver expr
  let whole ← iterate (joinPartOver config expr) ⟨.single first, 1⟩
  return whole.body

/-- A whole text with these expressions. -/
def queryOver : Parser Query := do
  let begin ← start
  let header ← version
  let body ← queryBodyOver config expr
  endOfQuery
  return ⟨header, body, ← spanFrom begin⟩

theorem singleQuery_eq_over : singleQuery config = singleQueryOver (expression config) := rfl

theorem query_eq_over : query config = queryOver config (expression config) := rfl

end Over

namespace Closed

variable {config : Config} {K : (α : Type) → Parser α → Parser α → Prop}
  (closed : Closed config K)
  {expr expr' : Parser Expression} (hexpr : K _ expr expr') {name : String} {begin : Nat}

include closed

/-! ## Clauses -/

section Clauses

theorem optionalAlias : K _ optionalAlias optionalAlias := closed.behind (closed.step .variableName)

include hexpr in
theorem matchClause {kind : MatchKind} :
    K _ (matchClause expr kind begin) (matchClause expr' kind begin) :=
  closed.bind (closed.patternList hexpr) fun _ =>
  closed.bind (closed.optionalWhere hexpr) fun _ =>
  closed.spanned begin _

include hexpr in
theorem qualifiedMatch {kind : MatchKind} :
    K _ (qualifiedMatch expr kind begin) (qualifiedMatch expr' kind begin) :=
  closed.next .expect fun _ => closed.matchClause hexpr

include hexpr in
theorem createClause : K _ (createClause expr begin) (createClause expr' begin) :=
  closed.bind (closed.patternList hexpr) fun _ => closed.spanned begin _

theorem assignment : K _ assignment assignment := by
  apply closed.next .consume
  intro due
  split
  · exact closed.step (.pure _)
  · apply closed.next .consume
    intro due'
    split
    · exact closed.step (.pure _)
    · exact closed.step (.fail trivial)

include hexpr in
theorem setProperty : K _ (setProperty expr name begin) (setProperty expr' name begin) :=
  closed.next .advance fun _ =>
  closed.next .symbolicName fun _ =>
  closed.next (.spanFrom _) fun _ =>
  closed.bind closed.assignment fun _ =>
  closed.bind hexpr fun _ =>
  closed.spanned begin _

theorem setLabels : K _ (setLabels name begin) (setLabels name begin) :=
  closed.bind closed.labelList fun _ => closed.spanned begin _

include hexpr in
theorem setVariable : K _ (setVariable expr name begin) (setVariable expr' name begin) :=
  closed.bind closed.assignment fun _ =>
  closed.bind hexpr fun _ =>
  closed.spanned begin _

include hexpr in
theorem setItem : K _ (setItem expr) (setItem expr') := by
  apply closed.next .start
  intro begin
  apply closed.next .variableName
  intro name
  apply closed.next .current
  intro t
  split
  · exact closed.setProperty hexpr
  · exact closed.setLabels
  · exact closed.setVariable hexpr

include hexpr in
theorem setItems :
    K _ (setItems expr) (setItems expr') := closed.commaSeparated (closed.setItem hexpr)

theorem mergeTrigger : K _ mergeTrigger mergeTrigger := by
  apply closed.next .consume
  intro due
  split
  · exact closed.step (.pure _)
  · apply closed.next .consume
    intro due'
    split
    · exact closed.step (.pure _)
    · exact closed.step (.fail trivial)

include hexpr in
theorem mergeAction : K _ (mergeAction expr) (mergeAction expr') := by
  apply closed.next .start
  intro begin
  apply closed.next .consume
  intro due
  split
  · exact closed.bind closed.mergeTrigger fun _ =>
      closed.next .expect fun _ =>
      closed.bind (closed.setItems hexpr) fun _ =>
      closed.spanned begin _
  · exact closed.step (.pure none)

include hexpr in
theorem mergeClause : K _ (mergeClause expr begin) (mergeClause expr' begin) :=
  closed.bind (closed.patternList hexpr) fun _ =>
  closed.bind (closed.many (closed.mergeAction hexpr)) fun _ =>
  closed.spanned begin _

include hexpr in
theorem setClause : K _ (setClause expr begin) (setClause expr' begin) :=
  closed.bind (closed.setItems hexpr) fun _ => closed.spanned begin _

include hexpr in
theorem deleteClause {detach : Bool} :
    K _ (deleteClause expr detach begin) (deleteClause expr' detach begin) :=
  closed.bind (closed.commaSeparated hexpr) fun _ => closed.spanned begin _

include hexpr in
theorem detachClause : K _ (detachClause expr begin) (detachClause expr' begin) :=
  closed.next .expect fun _ => closed.deleteClause hexpr

theorem removeItem : K _ removeItem removeItem := by
  apply closed.next .start
  intro begin
  apply closed.next .variableName
  intro name
  apply closed.next .consume
  intro due
  split
  · exact closed.next .symbolicName fun _ => closed.spanned begin _
  · exact closed.bind closed.labelList fun _ => closed.spanned begin _

theorem removeClause : K _ (removeClause begin) (removeClause begin) :=
  closed.bind (closed.commaSeparated closed.removeItem) fun _ => closed.spanned begin _

include hexpr in
theorem projectionItem : K _ (projectionItem expr) (projectionItem expr') := by
  apply closed.next .current
  intro t
  split
  · exact closed.map (closed.step .advance) _
  · exact closed.bind hexpr fun _ =>
      closed.bind closed.optionalAlias fun _ =>
      closed.spanned t.span.start _

include hexpr in
theorem projection : K _ (projection expr) (projection expr') :=
  closed.next .start fun begin =>
  closed.next .consume fun _ =>
  closed.bind (closed.commaSeparated (closed.projectionItem hexpr)) fun _ =>
  closed.spanned begin _

include hexpr in
theorem withClause : K _ (withClause expr begin) (withClause expr' begin) :=
  closed.bind (closed.projection hexpr) fun _ =>
  closed.bind (closed.optionalWhere hexpr) fun _ =>
  closed.spanned begin _

include hexpr in
theorem returnClause : K _ (returnClause expr begin) (returnClause expr' begin) :=
  closed.bind (closed.projection hexpr) fun _ => closed.spanned begin _

include hexpr in
theorem unwindClause : K _ (unwindClause expr begin) (unwindClause expr' begin) :=
  closed.bind hexpr fun _ =>
  closed.next .expect fun _ =>
  closed.next .variableName fun _ =>
  closed.spanned begin _

theorem sortDirection : K _ sortDirection sortDirection := by
  apply closed.next .current
  intro t
  split
  case h_5 => exact closed.step (.pure _)
  all_goals exact closed.map (closed.step .advance) _

include hexpr in
theorem sortItem : K _ (sortItem expr) (sortItem expr') :=
  closed.next .start fun begin =>
  closed.bind hexpr fun _ =>
  closed.bind closed.sortDirection fun _ =>
  closed.spanned begin _

include hexpr in
theorem orderClause : K _ (orderClause expr begin) (orderClause expr' begin) :=
  closed.next .expect fun _ =>
  closed.bind (closed.commaSeparated (closed.sortItem hexpr)) fun _ =>
  closed.spanned begin _

include hexpr in
theorem skipClause : K _ (skipClause expr begin) (skipClause expr' begin) :=
  closed.bind hexpr fun _ => closed.spanned begin _

include hexpr in
theorem limitClause : K _ (limitClause expr begin) (limitClause expr' begin) :=
  closed.bind hexpr fun _ => closed.spanned begin _

theorem procedureName : K _ procedureName procedureName :=
  closed.next .symbolicName fun _ =>
  closed.map (closed.many (closed.behind (closed.step .symbolicName))) _

include hexpr in
theorem procedureArguments : K _ (procedureArguments expr) (procedureArguments expr') :=
  closed.bind (closed.commaSeparatedUntil hexpr) fun _ => closed.map (closed.step .expect) _

theorem yieldItem : K _ yieldItem yieldItem :=
  closed.next .start fun begin =>
  closed.next .variableName fun _ =>
  closed.bind closed.optionalAlias fun _ =>
  closed.spanned begin _

include hexpr in
theorem callClause : K _ (callClause expr begin) (callClause expr' begin) :=
  closed.bind closed.procedureName fun _ =>
  closed.bind (closed.behind (closed.procedureArguments hexpr)) fun _ =>
  closed.bind (closed.behind (closed.commaSeparated closed.yieldItem)) fun _ =>
  closed.bind (closed.optionalWhere hexpr) fun _ =>
  closed.spanned begin _

include hexpr in
/-- Whether a word starts a clause does not depend on how expressions are read. -/
theorem clauseBehind (word : Keyword) (begin : Nat) :
    (clauseBehind expr word begin = none ∧ clauseBehind expr' word begin = none)
      ∨ ∃ rest rest', clauseBehind expr word begin = some rest
        ∧ clauseBehind expr' word begin = some rest' ∧ K _ rest rest' := by
  unfold Grammar.clauseBehind
  split
  case h_1 => exact .inr ⟨_, _, rfl, rfl, closed.matchClause hexpr⟩
  case h_2 => exact .inr ⟨_, _, rfl, rfl, closed.qualifiedMatch hexpr⟩
  case h_3 => exact .inr ⟨_, _, rfl, rfl, closed.qualifiedMatch hexpr⟩
  case h_4 => exact .inr ⟨_, _, rfl, rfl, closed.createClause hexpr⟩
  case h_5 => exact .inr ⟨_, _, rfl, rfl, closed.mergeClause hexpr⟩
  case h_6 => exact .inr ⟨_, _, rfl, rfl, closed.setClause hexpr⟩
  case h_7 => exact .inr ⟨_, _, rfl, rfl, closed.deleteClause hexpr⟩
  case h_8 => exact .inr ⟨_, _, rfl, rfl, closed.detachClause hexpr⟩
  case h_9 => exact .inr ⟨_, _, rfl, rfl, closed.removeClause⟩
  case h_10 => exact .inr ⟨_, _, rfl, rfl, closed.withClause hexpr⟩
  case h_11 => exact .inr ⟨_, _, rfl, rfl, closed.unwindClause hexpr⟩
  case h_12 => exact .inr ⟨_, _, rfl, rfl, closed.returnClause hexpr⟩
  case h_13 => exact .inr ⟨_, _, rfl, rfl, closed.orderClause hexpr⟩
  case h_14 => exact .inr ⟨_, _, rfl, rfl, closed.skipClause hexpr⟩
  case h_15 => exact .inr ⟨_, _, rfl, rfl, closed.limitClause hexpr⟩
  case h_16 => exact .inr ⟨_, _, rfl, rfl, closed.callClause hexpr⟩
  case h_17 => exact .inl ⟨rfl, rfl⟩

include hexpr in
theorem clause : K _ (clause expr) (clause expr') := by
  apply closed.next .current
  intro t
  split
  · next word _ =>
    rcases closed.clauseBehind hexpr word t.span.start with
      ⟨hnone, hnone'⟩ | ⟨rest, rest', hrest, hrest', hK⟩
    · rw [hnone, hnone']
      exact closed.step (.pure none)
    · rw [hrest, hrest']
      exact closed.next .advance fun _ => closed.map hK _
  · exact closed.step (.pure none)

end Clauses

/-! ## Operators -/

section Operators

theorem checkStacks (st : Stacks) : K _ (checkStacks config st) (checkStacks config st) := by
  unfold Grammar.checkStacks
  split
  · exact closed.step .tooDeep
  · exact closed.step (.pure ())

theorem shift (role : Pending.Role) (level : Level) (st : Stacks) :
    K _ (shift role level st) (shift role level st) :=
  closed.next .current fun _ => closed.map (closed.step .advance) _

theorem shiftPrefix (st : Stacks) : K _ (shiftPrefix st) (shiftPrefix st) := by
  apply closed.next .current
  intro t
  split
  · exact closed.map (closed.shift _ _ _) _
  · exact closed.step (.pure _)

theorem applyNullCheck (st : Stacks) :
    K _ (applyNullCheck config st) (applyNullCheck config st) := by
  apply closed.next .current
  intro t
  split
  · exact closed.bind (closed.checkStacks _) fun _ => closed.map (closed.step .advance) _
  · exact closed.step (.pure _)

variable (chain : ∀ level st, K _ (checkChain level st) (checkChain level st))

include chain

theorem shiftInfix (st : Stacks) : K _ (shiftInfix config st) (shiftInfix config st) := by
  apply closed.next .current
  intro t
  split
  · exact closed.bind (closed.checkStacks _) fun _ =>
      closed.bind (chain _ _) fun _ => closed.map (closed.shift _ _ _) _
  · exact closed.step (.pure _)

variable {operand operand' : Parser Operand} (hoperand : K _ operand operand')

include hoperand

theorem round (st : Stacks) : K _ (round config operand st) (round config operand' st) :=
  closed.bind (closed.iterate closed.shiftPrefix _) fun _ =>
  closed.bind hoperand fun _ =>
  closed.bind (closed.iterate closed.applyNullCheck _) fun _ => closed.shiftInfix chain _

/-- All that is left to show of operators is that two comparisons in a row are refused alike. -/
theorem operators : K _ (operators config operand) (operators config operand') := by
  apply closed.bind (closed.iterate (closed.round chain hoperand) _)
  intro reached
  apply closed.bind (closed.checkStacks _)
  intro _
  split
  · exact closed.step (.pure _)
  · exact closed.recover

end Operators

/-! ## Expressions and queries -/

section Over

theorem version : K _ version version := by
  apply closed.next .consume
  intro due
  split
  · apply closed.next .current
    intro t
    split
    · exact closed.map (closed.step .advance) _
    · exact closed.map (closed.step .advance) _
    · exact closed.step (.fail trivial)
  · exact closed.step (.pure none)

theorem endOfQuery : K _ endOfQuery endOfQuery := by
  apply closed.next .current
  intro t
  split
  · exact closed.step (.pure ())
  · exact closed.step (.fail trivial)

include hexpr

theorem singleQueryOver : K _ (singleQueryOver expr) (singleQueryOver expr') := by
  apply closed.next .start
  intro begin
  apply closed.bind (closed.many (closed.clause hexpr))
  intro clauses
  split
  · exact closed.step (.fail trivial)
  · exact closed.spanned begin _

theorem joinPartOver {left : Joined} :
    K _ (joinPartOver config expr left) (joinPartOver config expr' left) := by
  apply closed.next .consume
  intro due
  split
  · have hpart : K _ (unionPartOver config expr left) (unionPartOver config expr' left) :=
      closed.next .checkHeight fun _ =>
      closed.next .consume fun _ =>
      closed.map (closed.singleQueryOver hexpr) _
    exact closed.map hpart _
  · exact closed.step (.pure _)

theorem queryBodyOver : K _ (queryBodyOver config expr) (queryBodyOver config expr') :=
  closed.bind (closed.singleQueryOver hexpr) fun _ =>
  closed.map (closed.iterate (fun _ => closed.joinPartOver hexpr) _) _

theorem queryOver : K _ (queryOver config expr) (queryOver config expr') :=
  closed.next .start fun begin =>
  closed.bind closed.version fun _ =>
  closed.bind (closed.queryBodyOver hexpr) fun _ =>
  closed.bind closed.endOfQuery fun _ =>
  closed.spanned begin _

end Over

section Queries

variable (operators : ∀ {operand operand' : Parser Operand}, K _ operand operand' →
  K _ (Grammar.operators config operand) (Grammar.operators config operand'))

include operators

theorem expressionWithin (room : Nat) :
    K _ (expressionWithin config room) (expressionWithin config room) := by
  induction room with
  | zero => exact closed.step .tooDeep
  | succ room ih => exact closed.nested (operators (closed.operand ih))

theorem expression : K _ (expression config) (expression config) :=
  closed.expressionWithin operators config.maxDepth

theorem singleQuery : K _ (singleQuery config) (singleQuery config) :=
  closed.singleQueryOver (closed.expression operators)

theorem joinPart {left : Joined} : K _ (joinPart config left) (joinPart config left) :=
  closed.joinPartOver (closed.expression operators)

theorem queryBody : K _ (queryBody config) (queryBody config) :=
  closed.queryBodyOver (closed.expression operators)

/-- A closed property of expressions holds of queries. -/
theorem query : K _ (query config) (query config) :=
  closed.queryOver (closed.expression operators)

end Queries

end Closed

end Cypher.Grammar
