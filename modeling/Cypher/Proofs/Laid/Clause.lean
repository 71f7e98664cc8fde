import Cypher.Grammar.Clause
import Cypher.Proofs.Laid.Operand

/-!
# Laying out clauses

A clause begins with its first word, which is a token of its own, so its nodes
are read from a fresh place. Items that begin with an expression need one as
well, and stand behind that word or a comma.
-/

namespace Cypher.Grammar

variable {tokens : List Token} {expr : Parser Expression} {s₀ s : State} {l : List Outline}

theorem lays_optionalAlias : Lays tokens false optionalAlias fun _ => [] := by
  have hname : Lays tokens false (variableName .alias) fun _ => [] :=
    fun _ h => h.variableName.mono fun _ _ h => h.forget
  intro s h
  exact (hname.weaken.behind.after h).mono fun _ _ h => h.of_eq (by simp)

section Clauses

variable (hexpr : Lays tokens true expr fun e => [e.outline])

include hexpr

/-! ## `MATCH`, `CREATE` and `MERGE` -/

theorem Since.matchClause (h : Since tokens true true s₀ [] s) (kind : MatchKind) :
    Leads (matchClause expr kind s₀.current.span.start) s fun c =>
      Since tokens false false s₀ [c.outline] := by
  refine ((lays_patternList hexpr).weaken.after h).bind fun patterns s h => ?_
  refine ((lays_optionalWhere hexpr).after h).bind fun filter s h => ?_
  exact Leads.spanHere (Leads.pure h.close)

theorem Since.qualifiedMatch (h : Since tokens true true s₀ [] s) (kind : MatchKind) :
    Leads (qualifiedMatch expr kind s₀.current.span.start) s fun c =>
      Since tokens false false s₀ [c.outline] :=
  h.expect.bind fun _ _ h => h.matchClause hexpr kind

theorem Since.createClause (h : Since tokens true true s₀ [] s) :
    Leads (createClause expr s₀.current.span.start) s fun c =>
      Since tokens false false s₀ [c.outline] := by
  refine ((lays_patternList hexpr).weaken.after h).bind fun patterns s h => ?_
  exact Leads.spanHere (Leads.pure h.close)

omit hexpr in
/-- The sign of an assignment leads to a fresh place. -/
theorem Since.assignment {b f : Bool} (h : Since tokens b f s₀ l s) :
    Leads assignment s fun _ => Since tokens true true s₀ l := by
  refine Leads.consume (fun hdue => Leads.pure (h.pass hdue)) fun _ => ?_
  exact Leads.consume (fun hdue => Leads.pure (h.pass hdue)) fun _ => Leads.fail

theorem Since.setProperty (h : Since tokens true true s₀ [] s) {name : String} :
    Leads (setProperty expr name s₀.current.span.start) s fun i =>
      Since tokens false false s₀ [i.outline] := by
  refine Leads.advance ?_
  refine h.skip.symbolicName.bind fun key s h => Leads.spanHere ?_
  refine h.close.assignment.bind fun how s h => ?_
  refine (hexpr.after h).bind fun value s h => Leads.spanHere (Leads.pure ?_)
  exact h.close

omit hexpr in
theorem Since.setLabels (h : Since tokens true true s₀ [] s) {name : String} :
    Leads (setLabels name s₀.current.span.start) s fun i =>
      Since tokens false false s₀ [i.outline] := by
  refine (lays_labelList.weaken.after h).bind fun labels s h => Leads.spanHere (Leads.pure ?_)
  exact h.close

theorem Since.setVariable (h : Since tokens true true s₀ [] s) {name : String} :
    Leads (setVariable expr name s₀.current.span.start) s fun i =>
      Since tokens false false s₀ [i.outline] := by
  refine h.assignment.bind fun how s h => ?_
  refine (hexpr.after h).bind fun value s h => Leads.spanHere (Leads.pure ?_)
  exact h.close

theorem lays_setItem : Lays tokens false (setItem expr) fun i => [i.outline] := by
  intro s h
  refine Leads.startHere ?_
  refine h.variableName.bind fun name s h => Leads.current ?_
  split
  · exact h.setProperty hexpr
  · exact h.setLabels
  · exact h.setVariable hexpr

theorem lays_setItems : Lays tokens false (setItems expr) (·.map SetItem.outline) :=
  fun s h => ((lays_setItem hexpr).commaSeparated s h).mono fun _ _ h =>
    h.of_eq List.map_eq_flatMap.symm

omit hexpr in
theorem Since.mergeTrigger {b f : Bool} (h : Since tokens b f s₀ l s) :
    Leads mergeTrigger s fun _ => Since tokens true true s₀ l := by
  refine Leads.consume (fun hdue => Leads.pure (h.pass hdue)) fun _ => ?_
  exact Leads.consume (fun hdue => Leads.pure (h.pass hdue)) fun _ => Leads.fail

theorem lays_mergeAction :
    Lays tokens false (mergeAction expr) (·.toList.flatMap fun a => [a.outline]) := by
  intro s h
  refine Leads.startHere (Leads.consume (fun hdue => ?_) fun _ => Leads.pure h)
  refine (h.pass hdue).mergeTrigger.bind fun trigger s h => ?_
  refine h.expect.bind fun _ s h => ?_
  refine ((lays_setItems hexpr).weaken.after h).bind fun items s h => ?_
  exact Leads.spanHere (Leads.pure h.close)

theorem Since.mergeClause (h : Since tokens true true s₀ [] s) :
    Leads (mergeClause expr s₀.current.span.start) s fun c =>
      Since tokens false false s₀ [c.outline] := by
  refine ((lays_patternList hexpr).weaken.after h).bind fun patterns s h => ?_
  refine ((lays_mergeAction hexpr).many.after h).bind fun actions s h => ?_
  refine Leads.spanHere (Leads.pure ?_)
  exact h.close.of_eq
    (by simp [Clause.outline, Clause.outlines, Clause.span, List.map_eq_flatMap])

/-! ## `SET`, `DELETE` and `REMOVE` -/

theorem Since.setClause (h : Since tokens true true s₀ [] s) :
    Leads (setClause expr s₀.current.span.start) s fun c =>
      Since tokens false false s₀ [c.outline] := by
  refine ((lays_setItems hexpr).weaken.after h).bind fun items s h => ?_
  exact Leads.spanHere (Leads.pure h.close)

theorem Since.deleteClause (h : Since tokens true true s₀ [] s) (detach : Bool) :
    Leads (deleteClause expr detach s₀.current.span.start) s fun c =>
      Since tokens false false s₀ [c.outline] := by
  refine (hexpr.commaSeparated.after h).bind fun targets s h => Leads.spanHere (Leads.pure ?_)
  exact h.close.of_eq
    (by simp [Clause.outline, Clause.outlines, Clause.span, List.map_eq_flatMap])

theorem Since.detachClause (h : Since tokens true true s₀ [] s) :
    Leads (detachClause expr s₀.current.span.start) s fun c =>
      Since tokens false false s₀ [c.outline] :=
  h.expect.bind fun _ _ h => h.deleteClause hexpr true

omit hexpr in
theorem lays_removeItem : Lays tokens false removeItem fun i => [i.outline] := by
  intro s h
  refine Leads.startHere ?_
  refine h.variableName.bind fun name s h => ?_
  refine Leads.consume (fun hdue => ?_) fun _ => ?_
  · refine (h.pass hdue).symbolicName.bind fun key s h => Leads.spanHere (Leads.pure ?_)
    exact h.close
  · refine (lays_labelList.weaken.after h).bind fun labels s h => Leads.spanHere (Leads.pure ?_)
    exact h.close

omit hexpr in
theorem Since.removeClause (h : Since tokens true true s₀ [] s) :
    Leads (removeClause s₀.current.span.start) s fun c =>
      Since tokens false false s₀ [c.outline] := by
  refine (lays_removeItem.commaSeparated.weaken.after h).bind fun items s h =>
    Leads.spanHere (Leads.pure ?_)
  exact h.close.of_eq
    (by simp [Clause.outline, Clause.outlines, Clause.span, List.map_eq_flatMap])

/-! ## `WITH`, `RETURN` and `UNWIND` -/

theorem lays_projectionItem : Lays tokens true (projectionItem expr) fun i => [i.outline] := by
  intro s h
  refine Leads.current ?_
  split
  · next hdue => exact Leads.advance (Leads.pure (h.leaf (by simp [hdue])).forget)
  · refine (hexpr s h).bind fun value s h => ?_
    refine (lays_optionalAlias.after h).bind fun name s h => Leads.spanHere (Leads.pure ?_)
    exact h.wrap (.inr (by simp))

theorem lays_projection : Lays tokens true (projection expr) fun p => [p.outline] := by
  intro s₀ h
  refine Leads.startHere ?_
  refine h.consume.bind fun distinct s h => ?_
  have hitems := Leads.and (Leads.commaSeparated_ne_nil (projectionItem expr) s)
    ((lays_projectionItem hexpr).commaSeparated.after h)
  refine hitems.bind fun items s h => Leads.spanHere (Leads.pure ?_)
  have hlaid : Since tokens false false s₀ (items.map ProjectionItem.outline) s :=
    h.2.of_eq List.map_eq_flatMap.symm
  exact hlaid.wrap (.inr fun hnone => h.1 (List.map_eq_nil_iff.1 hnone))

theorem Since.withClause (h : Since tokens true true s₀ [] s) :
    Leads (withClause expr s₀.current.span.start) s fun c =>
      Since tokens false false s₀ [c.outline] := by
  refine ((lays_projection hexpr).after h).bind fun handed s h => ?_
  refine ((lays_optionalWhere hexpr).after h).bind fun filter s h => ?_
  exact Leads.spanHere (Leads.pure h.close)

theorem Since.returnClause (h : Since tokens true true s₀ [] s) :
    Leads (returnClause expr s₀.current.span.start) s fun c =>
      Since tokens false false s₀ [c.outline] := by
  refine ((lays_projection hexpr).after h).bind fun handed s h => ?_
  exact Leads.spanHere (Leads.pure h.close)

theorem Since.unwindClause (h : Since tokens true true s₀ [] s) :
    Leads (unwindClause expr s₀.current.span.start) s fun c =>
      Since tokens false false s₀ [c.outline] := by
  refine (hexpr.after h).bind fun source s h => ?_
  refine h.expect.bind fun _ s h => ?_
  refine h.variableName.bind fun name s h => ?_
  exact Leads.spanHere (Leads.pure h.close)

/-! ## `ORDER BY`, `SKIP` and `LIMIT` -/

omit hexpr in
theorem lays_sortDirection : Lays tokens false sortDirection fun _ => [] := by
  intro s h
  refine Leads.current ?_
  split
  · exact Leads.advance (Leads.pure h.skip)
  · exact Leads.advance (Leads.pure h.skip)
  · exact Leads.advance (Leads.pure h.skip)
  · exact Leads.advance (Leads.pure h.skip)
  · exact Leads.pure h

theorem lays_sortItem : Lays tokens true (sortItem expr) fun i => [i.outline] := by
  intro s h
  refine Leads.startHere ?_
  refine (hexpr s h).bind fun key s h => ?_
  refine (lays_sortDirection.after h).bind fun direction s h => Leads.spanHere (Leads.pure ?_)
  exact h.wrap (.inr (by simp))

theorem Since.orderClause (h : Since tokens true true s₀ [] s) :
    Leads (orderClause expr s₀.current.span.start) s fun c =>
      Since tokens false false s₀ [c.outline] := by
  refine h.expect.bind fun _ s h => ?_
  refine ((lays_sortItem hexpr).commaSeparated.after h).bind fun items s h =>
    Leads.spanHere (Leads.pure ?_)
  exact h.close.of_eq
    (by simp [Clause.outline, Clause.outlines, Clause.span, List.map_eq_flatMap])

theorem Since.skipClause (h : Since tokens true true s₀ [] s) :
    Leads (skipClause expr s₀.current.span.start) s fun c =>
      Since tokens false false s₀ [c.outline] := by
  refine (hexpr.after h).bind fun count s h => ?_
  exact Leads.spanHere (Leads.pure h.close)

theorem Since.limitClause (h : Since tokens true true s₀ [] s) :
    Leads (limitClause expr s₀.current.span.start) s fun c =>
      Since tokens false false s₀ [c.outline] := by
  refine (hexpr.after h).bind fun count s h => ?_
  exact Leads.spanHere (Leads.pure h.close)

/-! ## `CALL` -/

omit hexpr in
theorem lays_procedureName : Lays tokens false procedureName fun _ => [] := by
  intro s h
  refine h.symbolicName.bind fun first s h => ?_
  exact (lays_dottedNames.weaken.after h).bind fun others s h => Leads.pure h.forget

theorem lays_procedureArguments :
    Lays tokens true (procedureArguments expr) (·.map Expression.outline) := by
  intro s h
  refine (hexpr.commaSeparatedUntil s h).bind fun arguments s h => ?_
  refine h.expect.bind fun _ s h => Leads.pure ?_
  exact h.forget.of_eq List.map_eq_flatMap.symm

omit hexpr in
theorem lays_yieldItem : Lays tokens false yieldItem fun i => [i.outline] := by
  intro s h
  refine Leads.startHere ?_
  refine h.variableName.bind fun field s h => ?_
  refine (lays_optionalAlias.weaken.after h).bind fun name s h => Leads.spanHere (Leads.pure ?_)
  exact h.close

theorem Since.callClause (h : Since tokens true true s₀ [] s) :
    Leads (callClause expr s₀.current.span.start) s fun c =>
      Since tokens false false s₀ [c.outline] := by
  refine (lays_procedureName.weaken.after h).bind fun procedure s h => ?_
  refine ((lays_procedureArguments hexpr).behind.after h).bind fun arguments s h => ?_
  refine (lays_yieldItem.commaSeparated.weaken.behind.after h).bind fun fields s h => ?_
  refine ((lays_optionalWhere hexpr).after h).bind fun filter s h => Leads.spanHere (Leads.pure ?_)
  refine h.close.of_eq ?_
  cases arguments <;> cases fields <;>
    simp [Clause.outline, Clause.outlines, Clause.span, List.map_eq_flatMap]

/-! ## All clauses -/

/-- Behind its first word every clause is laid out. -/
theorem Since.clauseBehind {word : Keyword} {rest : Parser Clause}
    (hrest : clauseBehind expr word s₀.current.span.start = some rest)
    (h : Since tokens true true s₀ [] s) :
    Leads rest s fun c => Since tokens false false s₀ [c.outline] := by
  unfold Grammar.clauseBehind at hrest
  split at hrest <;> cases hrest
  · exact h.matchClause hexpr _
  · exact h.qualifiedMatch hexpr _
  · exact h.qualifiedMatch hexpr _
  · exact h.createClause hexpr
  · exact h.mergeClause hexpr
  · exact h.setClause hexpr
  · exact h.deleteClause hexpr _
  · exact h.detachClause hexpr
  · exact h.removeClause
  · exact h.withClause hexpr
  · exact h.unwindClause hexpr
  · exact h.returnClause hexpr
  · exact h.orderClause hexpr
  · exact h.skipClause hexpr
  · exact h.limitClause hexpr
  · exact h.callClause hexpr

theorem lays_clause :
    Lays tokens false (clause expr) (·.toList.flatMap fun c => [c.outline]) := by
  intro s h
  refine Leads.current ?_
  split
  · next hdue =>
    split
    · next rest hrest =>
      refine Leads.advance ?_
      exact ((h.pass hdue).clauseBehind hexpr hrest).bind fun c s h => Leads.pure h
    · exact Leads.pure h
  · exact Leads.pure h

end Clauses

end Cypher.Grammar
