import Cypher.Grammar.Clause
import Cypher.Proofs.Compared.Operand

/-!
# Comparing clauses

The first word of a clause tells its form, and what follows is read by the
same production on both sides.
-/

namespace Cypher.Grammar.Comparison.Agrees

variable {c : Comparison} {config config' : Config} (law : c.Lawful config config')
  {expr expr' : Parser Expression}
  (hexpr : c.Agrees expr expr' (Expression.recast c.view)) {begin begin' : Nat}
  (hbegin : c.view.offset begin = c.view.offset begin')

include law

theorem optionalAlias : c.Agrees optionalAlias optionalAlias id := by
  apply ((variableName law).behind law).mono
  intro o o' ho
  rwa [Option.map_id_fun] at ho

/-! ## `MATCH`, `CREATE` and `MERGE` -/

include hexpr hbegin in
theorem matchClause {kind : MatchKind} : c.Agrees (matchClause expr kind begin)
    (matchClause expr' kind begin') (Clause.recast c.view) := by
  apply (patternList law hexpr).bind
  intro patterns patterns' hpatterns
  apply (optionalWhere law hexpr).bind
  intro filter filter' hfilter
  apply (spanFrom law hbegin).map
  intro s s' hs
  simp only [Clause.recast, hpatterns, hfilter, hs]

include hexpr hbegin in
theorem qualifiedMatch {kind : MatchKind} : c.Agrees (qualifiedMatch expr kind begin)
    (qualifiedMatch expr' kind begin') (Clause.recast c.view) := by
  apply (expect law).bind
  intro _ _ _
  exact matchClause law hexpr hbegin

include hexpr hbegin in
theorem createClause : c.Agrees (createClause expr begin) (createClause expr' begin')
    (Clause.recast c.view) := by
  apply (patternList law hexpr).bind
  intro patterns patterns' hpatterns
  apply (spanFrom law hbegin).map
  intro s s' hs
  simp only [Clause.recast, hpatterns, hs]

theorem assignment : c.Agrees assignment assignment id := by
  apply (consume law).bind
  rintro due _ rfl
  cases due with
  | true => exact pure rfl
  | false =>
    apply (consume law).bind
    rintro due _ rfl
    cases due with
    | true => exact pure rfl
    | false => exact fail_same law trivial

include hexpr hbegin in
theorem setProperty {name : String} : c.Agrees (setProperty expr name begin)
    (setProperty expr' name begin') (SetItem.recast c.view) := by
  apply (advance law).bind
  intro _ _ _
  apply (symbolicName law).bind
  intro key key' hkey
  apply (spanFrom law hbegin).bind
  intro target target' htarget
  apply (assignment law).bind
  rintro how _ rfl
  apply hexpr.bind
  intro value value' hvalue
  apply (spanFrom law hbegin).map
  intro s s' hs
  simp only [SetItem.recast, PropertyPath.recast, hkey, htarget, hvalue, hs, id]

include hbegin in
theorem setLabels {name : String} :
    c.Agrees (setLabels name begin) (setLabels name begin') (SetItem.recast c.view) := by
  apply (labelList law).bind
  intro labels labels' hlabels
  apply (spanFrom law hbegin).map
  intro s s' hs
  simp only [SetItem.recast, hlabels, hs]

include hexpr hbegin in
theorem setVariable {name : String} : c.Agrees (setVariable expr name begin)
    (setVariable expr' name begin') (SetItem.recast c.view) := by
  apply (assignment law).bind
  rintro how _ rfl
  apply hexpr.bind
  intro value value' hvalue
  apply (spanFrom law hbegin).map
  intro s s' hs
  simp only [SetItem.recast, hvalue, hs, id]

include hexpr in
theorem setItem : c.Agrees (setItem expr) (setItem expr') (SetItem.recast c.view) := by
  apply (start law).bind
  intro begin begin' hbegin
  apply (variableName law).bind
  rintro name _ rfl
  apply (current law).bind
  intro t t' ht
  rw [kind_eq ht]
  split
  · exact setProperty law hexpr hbegin
  · exact setLabels law hbegin
  · exact setVariable law hexpr hbegin

include hexpr in
theorem setItems :
    c.Agrees (setItems expr) (setItems expr') (List.map (SetItem.recast c.view)) :=
  (setItem law hexpr).commaSeparated law

theorem mergeTrigger : c.Agrees mergeTrigger mergeTrigger id := by
  apply (consume law).bind
  rintro due _ rfl
  cases due with
  | true => exact pure rfl
  | false =>
    apply (consume law).bind
    rintro due _ rfl
    cases due with
    | true => exact pure rfl
    | false => exact fail_same law trivial

include hexpr in
theorem mergeAction : c.Agrees (mergeAction expr) (mergeAction expr')
    (Option.map (MergeAction.recast c.view)) := by
  apply (start law).bind
  intro begin begin' hbegin
  apply (consume law).bind
  rintro due _ rfl
  cases due with
  | true =>
    apply (mergeTrigger law).bind
    rintro trigger _ rfl
    apply (expect law).bind
    intro _ _ _
    apply (setItems law hexpr).bind
    intro items items' hitems
    apply (spanFrom law hbegin).map
    intro s s' hs
    simp only [Option.map_some, MergeAction.recast, hitems, hs, id]
  | false => exact pure rfl

include hexpr hbegin in
theorem mergeClause : c.Agrees (mergeClause expr begin) (mergeClause expr' begin')
    (Clause.recast c.view) := by
  apply (patternList law hexpr).bind
  intro patterns patterns' hpatterns
  apply ((mergeAction law hexpr).many law).bind
  intro actions actions' hactions
  apply (spanFrom law hbegin).map
  intro s s' hs
  simp only [Clause.recast, hpatterns, hactions, hs]

/-! ## `SET`, `DELETE` and `REMOVE` -/

include hexpr hbegin in
theorem setClause : c.Agrees (setClause expr begin) (setClause expr' begin')
    (Clause.recast c.view) := by
  apply (setItems law hexpr).bind
  intro items items' hitems
  apply (spanFrom law hbegin).map
  intro s s' hs
  simp only [Clause.recast, hitems, hs]

include hexpr hbegin in
theorem deleteClause {detach : Bool} : c.Agrees (deleteClause expr detach begin)
    (deleteClause expr' detach begin') (Clause.recast c.view) := by
  apply (hexpr.commaSeparated law).bind
  intro targets targets' htargets
  apply (spanFrom law hbegin).map
  intro s s' hs
  simp only [Clause.recast, htargets, hs]

include hexpr hbegin in
theorem detachClause : c.Agrees (detachClause expr begin) (detachClause expr' begin')
    (Clause.recast c.view) := by
  apply (expect law).bind
  intro _ _ _
  exact deleteClause law hexpr hbegin

include hbegin in
theorem removeTail {name : String} :
    c.Agrees (removeTail name begin) (removeTail name begin') (RemoveItem.recast c.view) := by
  apply (consume law).bind
  rintro due _ rfl
  cases due with
  | true =>
    apply (symbolicName law).bind
    intro key key' hkey
    apply (spanFrom law hbegin).map
    intro s s' hs
    simp only [RemoveItem.recast, PropertyPath.recast, hkey, hs]
  | false =>
    apply (labelList law).bind
    intro labels labels' hlabels
    apply (spanFrom law hbegin).map
    intro s s' hs
    simp only [RemoveItem.recast, hlabels, hs]

theorem removeItem : c.Agrees removeItem removeItem (RemoveItem.recast c.view) := by
  apply (start law).bind
  intro begin begin' hbegin
  apply (variableName law).bind
  rintro name _ rfl
  exact removeTail law hbegin

include hbegin in
theorem removeClause :
    c.Agrees (removeClause begin) (removeClause begin') (Clause.recast c.view) := by
  apply ((removeItem law).commaSeparated law).bind
  intro items items' hitems
  apply (spanFrom law hbegin).map
  intro s s' hs
  simp only [Clause.recast, hitems, hs]

/-! ## `WITH`, `RETURN` and `UNWIND` -/

include hexpr hbegin in
theorem expressionItem : c.Agrees (expressionItem expr begin) (expressionItem expr' begin')
    (ProjectionItem.recast c.view) := by
  apply hexpr.bind
  intro value value' hvalue
  apply (optionalAlias law).bind
  rintro name _ rfl
  apply (spanFrom law hbegin).map
  intro s s' hs
  simp only [ProjectionItem.recast, hvalue, hs, id]

include hexpr in
theorem projectionItem : c.Agrees (projectionItem expr) (projectionItem expr')
    (ProjectionItem.recast c.view) := by
  apply (current law).bind
  intro t t' ht
  rw [kind_eq ht]
  split
  · apply (advance law).map
    intro _ _ _
    simp only [ProjectionItem.recast, span_eq ht]
  · exact expressionItem law hexpr (start_eq ht)

include hexpr in
theorem projection :
    c.Agrees (projection expr) (projection expr') (Projection.recast c.view) := by
  apply (start law).bind
  intro begin begin' hbegin
  apply (consume law).bind
  rintro distinct _ rfl
  apply ((projectionItem law hexpr).commaSeparated law).bind
  intro items items' hitems
  apply (spanFrom law hbegin).map
  intro s s' hs
  simp only [Projection.recast, hitems, hs, id]

include hexpr hbegin in
theorem withClause : c.Agrees (withClause expr begin) (withClause expr' begin')
    (Clause.recast c.view) := by
  apply (projection law hexpr).bind
  intro handed handed' hhanded
  apply (optionalWhere law hexpr).bind
  intro filter filter' hfilter
  apply (spanFrom law hbegin).map
  intro s s' hs
  simp only [Clause.recast, hhanded, hfilter, hs]

include hexpr hbegin in
theorem returnClause : c.Agrees (returnClause expr begin) (returnClause expr' begin')
    (Clause.recast c.view) := by
  apply (projection law hexpr).bind
  intro handed handed' hhanded
  apply (spanFrom law hbegin).map
  intro s s' hs
  simp only [Clause.recast, hhanded, hs]

include hexpr hbegin in
theorem unwindClause : c.Agrees (unwindClause expr begin) (unwindClause expr' begin')
    (Clause.recast c.view) := by
  apply hexpr.bind
  intro source source' hsource
  apply (expect law).bind
  intro _ _ _
  apply (variableName law).bind
  rintro name _ rfl
  apply (spanFrom law hbegin).map
  intro s s' hs
  simp only [Clause.recast, hsource, hs, id]

/-! ## `ORDER BY`, `SKIP` and `LIMIT` -/

theorem sortDirection : c.Agrees sortDirection sortDirection id := by
  apply (current law).bind
  intro t t' ht
  rw [kind_eq ht]
  split
  · exact (advance law).map fun _ _ _ => rfl
  · exact (advance law).map fun _ _ _ => rfl
  · exact (advance law).map fun _ _ _ => rfl
  · exact (advance law).map fun _ _ _ => rfl
  · exact pure rfl

include hexpr in
theorem sortItem : c.Agrees (sortItem expr) (sortItem expr') (SortItem.recast c.view) := by
  apply (start law).bind
  intro begin begin' hbegin
  apply hexpr.bind
  intro key key' hkey
  apply (sortDirection law).bind
  rintro direction _ rfl
  apply (spanFrom law hbegin).map
  intro s s' hs
  simp only [SortItem.recast, hkey, hs, id]

include hexpr hbegin in
theorem orderClause : c.Agrees (orderClause expr begin) (orderClause expr' begin')
    (Clause.recast c.view) := by
  apply (expect law).bind
  intro _ _ _
  apply ((sortItem law hexpr).commaSeparated law).bind
  intro items items' hitems
  apply (spanFrom law hbegin).map
  intro s s' hs
  simp only [Clause.recast, hitems, hs]

include hexpr hbegin in
theorem skipClause : c.Agrees (skipClause expr begin) (skipClause expr' begin')
    (Clause.recast c.view) := by
  apply hexpr.bind
  intro count count' hcount
  apply (spanFrom law hbegin).map
  intro s s' hs
  simp only [Clause.recast, hcount, hs]

include hexpr hbegin in
theorem limitClause : c.Agrees (limitClause expr begin) (limitClause expr' begin')
    (Clause.recast c.view) := by
  apply hexpr.bind
  intro count count' hcount
  apply (spanFrom law hbegin).map
  intro s s' hs
  simp only [Clause.recast, hcount, hs]

/-! ## `CALL` -/

theorem procedureName :
    c.Agrees procedureName procedureName (List.map c.view.spell) := by
  apply (symbolicName law).bind
  intro first first' hfirst
  apply (((symbolicName law).behind law).many law).map
  intro others others' hothers
  rw [List.map_cons, List.map_cons, hfirst, hothers]

include hexpr in
theorem procedureArguments : c.Agrees (procedureArguments expr) (procedureArguments expr')
    (List.map (Expression.recast c.view)) := by
  apply (hexpr.commaSeparatedUntil law).bind
  intro arguments arguments' harguments
  exact (expect law).map fun _ _ _ => harguments

theorem yieldItem : c.Agrees yieldItem yieldItem (YieldItem.recast c.view) := by
  apply (start law).bind
  intro begin begin' hbegin
  apply (variableName law).bind
  rintro field _ rfl
  apply (optionalAlias law).bind
  rintro name _ rfl
  apply (spanFrom law hbegin).map
  intro s s' hs
  simp only [YieldItem.recast, hs, id]

include hexpr hbegin in
theorem callClause : c.Agrees (callClause expr begin) (callClause expr' begin')
    (Clause.recast c.view) := by
  apply (procedureName law).bind
  intro procedure procedure' hprocedure
  apply ((procedureArguments law hexpr).behind law).bind
  intro arguments arguments' harguments
  apply (((yieldItem law).commaSeparated law).behind law).bind
  intro fields fields' hfields
  apply (optionalWhere law hexpr).bind
  intro filter filter' hfilter
  apply (spanFrom law hbegin).map
  intro s s' hs
  simp only [Clause.recast, hprocedure, harguments, hfields, hfilter, hs]

/-! ## All clauses -/

include hexpr hbegin in
/-- A word starts a clause on both sides or on neither. -/
theorem clauseBehind (word : Keyword) :
    (clauseBehind expr word begin = none ∧ clauseBehind expr' word begin' = none)
      ∨ ∃ p p', clauseBehind expr word begin = some p
        ∧ clauseBehind expr' word begin' = some p' ∧ c.Agrees p p' (Clause.recast c.view) := by
  cases word
  case MATCH => exact .inr ⟨_, _, rfl, rfl, matchClause law hexpr hbegin⟩
  case OPTIONAL => exact .inr ⟨_, _, rfl, rfl, qualifiedMatch law hexpr hbegin⟩
  case MANDATORY => exact .inr ⟨_, _, rfl, rfl, qualifiedMatch law hexpr hbegin⟩
  case CREATE => exact .inr ⟨_, _, rfl, rfl, createClause law hexpr hbegin⟩
  case MERGE => exact .inr ⟨_, _, rfl, rfl, mergeClause law hexpr hbegin⟩
  case SET => exact .inr ⟨_, _, rfl, rfl, setClause law hexpr hbegin⟩
  case DELETE => exact .inr ⟨_, _, rfl, rfl, deleteClause law hexpr hbegin⟩
  case DETACH => exact .inr ⟨_, _, rfl, rfl, detachClause law hexpr hbegin⟩
  case REMOVE => exact .inr ⟨_, _, rfl, rfl, removeClause law hbegin⟩
  case WITH => exact .inr ⟨_, _, rfl, rfl, withClause law hexpr hbegin⟩
  case UNWIND => exact .inr ⟨_, _, rfl, rfl, unwindClause law hexpr hbegin⟩
  case RETURN => exact .inr ⟨_, _, rfl, rfl, returnClause law hexpr hbegin⟩
  case ORDER => exact .inr ⟨_, _, rfl, rfl, orderClause law hexpr hbegin⟩
  case SKIP => exact .inr ⟨_, _, rfl, rfl, skipClause law hexpr hbegin⟩
  case LIMIT => exact .inr ⟨_, _, rfl, rfl, limitClause law hexpr hbegin⟩
  case CALL => exact .inr ⟨_, _, rfl, rfl, callClause law hexpr hbegin⟩
  all_goals exact .inl ⟨rfl, rfl⟩

include hexpr in
theorem clause :
    c.Agrees (clause expr) (clause expr') (Option.map (Clause.recast c.view)) := by
  apply (current law).bind
  intro t t' ht
  rw [kind_eq ht]
  split
  · next word hword =>
    rcases clauseBehind law hexpr (start_eq ht) word with ⟨hnone, hnone'⟩ | ⟨p, p', hp, hp', h⟩
    · rw [hnone, hnone']
      exact pure rfl
    · rw [hp, hp']
      apply (advance law).bind
      intro _ _ _
      exact h.map fun _ _ hc => congrArg some hc
  · exact pure rfl

end Cypher.Grammar.Comparison.Agrees
