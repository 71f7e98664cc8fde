import Cypher.Grammar.Clause
import Cypher.Proofs.Ensured.Operand

/-!
# What reading a clause ensures

A clause adds no height to the expressions in it and takes none away. Where
the grammar asks for items it takes at least one, so every clause that is
read is well-formed, whatever is wrong with the expressions in it.
-/

namespace Cypher.Grammar

variable {clean : Prop} {expr : Parser Expression} {V : Expression → Prop} {begin : Nat}

/-- The clause can be written and read but for its expressions, and these
have the property. -/
def Upholds (V : Expression → Prop) (c : Clause) : Prop :=
  c.Formed ∧ ∀ e ∈ c.values, V e

/-- The same of a change: it is well-formed, and so is what it assigns. -/
def ItemUpholds (V : Expression → Prop) (i : SetItem) : Prop :=
  i.Formed ∧ ∀ e ∈ i.value?, V e

theorem ItemUpholds.values {items : List SetItem} (h : ∀ i ∈ items, ItemUpholds V i) :
    ∀ e ∈ items.filterMap SetItem.value?, V e := by
  intro e he
  obtain ⟨i, hi, hvalue⟩ := List.mem_filterMap.1 he
  exact (h i hi).2 e hvalue

theorem forall_mem_patternValues {ps : List Pattern}
    (h : ∀ p ∈ ps, p.Formed ∧ ∀ e ∈ p.values, V e) : ∀ e ∈ ps.flatMap Pattern.values, V e := by
  intro e he
  obtain ⟨p, hp, hmem⟩ := List.mem_flatMap.1 he
  exact (h p hp).2 e hmem

theorem ensures_optionalAlias : Ensures clean optionalAlias fun _ => True :=
  Ensures.variableName.behind.mono fun _ _ => trivial

/-! ## `MATCH`, `CREATE` and `MERGE` -/

section Clauses

variable (hexpr : Ensures clean expr V)

include hexpr

theorem ensures_matchClause {kind : MatchKind} :
    Ensures clean (matchClause expr kind begin) (Upholds V) := by
  unfold matchClause
  refine (ensures_patternList hexpr).bind fun patterns => ?_
  refine (ensures_optionalWhere hexpr).bind fun filter => ?_
  refine .map .spanFrom fun s _ hfilter hpatterns => ?_
  exact ⟨⟨hpatterns.1, fun p hp => (hpatterns.2 p hp).1⟩,
    List.forall_mem_append.2 ⟨forall_mem_patternValues hpatterns.2, hfilter⟩⟩

theorem ensures_qualifiedMatch {kind : MatchKind} :
    Ensures clean (qualifiedMatch expr kind begin) (Upholds V) := by
  unfold qualifiedMatch
  exact .next .expect fun _ => ensures_matchClause hexpr

theorem ensures_createClause : Ensures clean (createClause expr begin) (Upholds V) := by
  unfold createClause
  refine (ensures_patternList hexpr).bind fun patterns => ?_
  refine .map .spanFrom fun s _ hpatterns => ?_
  refine ⟨⟨hpatterns.1, fun p hp => (hpatterns.2 p hp).1⟩, ?_⟩
  rw [Clause.values, Clause.expressions, List.append_nil]
  exact forall_mem_patternValues hpatterns.2

omit hexpr in
theorem ensures_assignment : Ensures clean assignment fun _ => True := by
  unfold assignment
  refine .next .consume fun due => ?_
  split
  · exact .pure trivial
  · refine .next .consume fun due => ?_
    split
    · exact .pure trivial
    · exact .fail

theorem ensures_setProperty {name : String} :
    Ensures clean (setProperty expr name begin) (ItemUpholds V) := by
  unfold setProperty
  refine .next .advance fun _ => ?_
  refine .next .symbolicName fun key => ?_
  refine .next .spanFrom fun span => ?_
  refine ensures_assignment.next fun how => ?_
  refine hexpr.bind fun value => ?_
  exact .map .spanFrom fun s _ hvalue => ⟨trivial, fun e he => Option.some.inj he ▸ hvalue⟩

omit hexpr in
theorem ensures_setLabels {name : String} :
    Ensures clean (setLabels name begin) (ItemUpholds V) := by
  unfold setLabels
  refine .bind .labelList fun labels => ?_
  exact .map .spanFrom fun s _ hlabels => ⟨hlabels, nofun⟩

theorem ensures_setVariable {name : String} :
    Ensures clean (setVariable expr name begin) (ItemUpholds V) := by
  unfold setVariable
  refine ensures_assignment.next fun how => ?_
  refine hexpr.bind fun value => ?_
  exact .map .spanFrom fun s _ hvalue => ⟨trivial, fun e he => Option.some.inj he ▸ hvalue⟩

theorem ensures_setItem : Ensures clean (setItem expr) (ItemUpholds V) := by
  unfold setItem
  refine .next .start fun begin => ?_
  refine .next .variableName fun name => ?_
  refine .next .current fun t => ?_
  split
  · exact ensures_setProperty hexpr
  · exact ensures_setLabels
  · exact ensures_setVariable hexpr

theorem ensures_setItems :
    Ensures clean (setItems expr) fun is => is ≠ [] ∧ ∀ i ∈ is, ItemUpholds V i :=
  (ensures_setItem hexpr).commaSeparated

omit hexpr in
theorem ensures_mergeTrigger : Ensures clean mergeTrigger fun _ => True := by
  unfold mergeTrigger
  refine .next .consume fun due => ?_
  split
  · exact .pure trivial
  · refine .next .consume fun due => ?_
    split
    · exact .pure trivial
    · exact .fail

theorem ensures_mergeAction :
    Ensures clean (mergeAction expr) fun o =>
      ∀ a ∈ o, a.items ≠ [] ∧ ∀ i ∈ a.items, ItemUpholds V i := by
  unfold mergeAction
  refine .next .start fun begin => ?_
  refine .next .consume fun due => ?_
  split
  · refine ensures_mergeTrigger.next fun trigger => ?_
    refine .next .expect fun _ => ?_
    refine (ensures_setItems hexpr).bind fun items => ?_
    exact .map .spanFrom fun s _ hitems a ha => by cases ha; exact hitems
  · exact .pure nofun

theorem ensures_mergeClause : Ensures clean (mergeClause expr begin) (Upholds V) := by
  unfold mergeClause
  refine (ensures_patternList hexpr).bind fun patterns => ?_
  refine (ensures_mergeAction hexpr).many.bind fun actions => ?_
  refine .map .spanFrom fun s _ hactions hpatterns => ?_
  refine ⟨⟨⟨hpatterns.1, fun p hp => (hpatterns.2 p hp).1⟩, fun a ha =>
    ⟨(hactions a ha).1, fun i hi => ((hactions a ha).2 i hi).1⟩⟩, ?_⟩
  refine List.forall_mem_append.2 ⟨forall_mem_patternValues hpatterns.2, fun e he => ?_⟩
  obtain ⟨a, ha, hmem⟩ := List.mem_flatMap.1 he
  exact ItemUpholds.values (hactions a ha).2 e hmem

/-! ## `SET`, `DELETE` and `REMOVE` -/

theorem ensures_setClause : Ensures clean (setClause expr begin) (Upholds V) := by
  unfold setClause
  refine (ensures_setItems hexpr).bind fun items => ?_
  exact .map .spanFrom fun s _ hitems =>
    ⟨⟨hitems.1, fun i hi => (hitems.2 i hi).1⟩, ItemUpholds.values hitems.2⟩

theorem ensures_deleteClause {detach : Bool} :
    Ensures clean (deleteClause expr detach begin) (Upholds V) := by
  unfold deleteClause
  refine hexpr.commaSeparated.bind fun targets => ?_
  exact .map .spanFrom fun s _ htargets => htargets

theorem ensures_detachClause : Ensures clean (detachClause expr begin) (Upholds V) := by
  unfold detachClause
  exact .next .expect fun _ => ensures_deleteClause hexpr

omit hexpr in
theorem ensures_removeItem : Ensures clean removeItem RemoveItem.Formed := by
  unfold removeItem
  refine .next .start fun begin => ?_
  refine .next .variableName fun name => ?_
  unfold removeTail
  refine .next .consume fun due => ?_
  split
  · refine .next .symbolicName fun key => ?_
    exact .map .spanFrom fun s _ => trivial
  · refine .bind .labelList fun labels => ?_
    exact .map .spanFrom fun s _ hlabels => hlabels

omit hexpr in
theorem ensures_removeClause : Ensures clean (removeClause begin) (Upholds V) := by
  unfold removeClause
  refine ensures_removeItem.commaSeparated.bind fun items => ?_
  exact .map .spanFrom fun s _ hitems => ⟨hitems, List.forall_mem_nil _⟩

/-! ## `WITH`, `RETURN` and `UNWIND` -/

theorem ensures_projectionItem :
    Ensures clean (projectionItem expr) fun i => ∀ e ∈ i.value?, V e := by
  unfold projectionItem
  refine .next .current fun t => ?_
  split
  · exact .map .advance fun _ _ => nofun
  · unfold expressionItem
    refine hexpr.bind fun value => ?_
    refine ensures_optionalAlias.next fun name => ?_
    exact .map .spanFrom fun s _ hvalue e he => Option.some.inj he ▸ hvalue

theorem ensures_projection :
    Ensures clean (projection expr) fun p => p.items ≠ [] ∧ ∀ e ∈ p.values, V e := by
  unfold projection
  refine .next .start fun begin => ?_
  refine .next .consume fun distinct => ?_
  refine (ensures_projectionItem hexpr).commaSeparated.bind fun items => ?_
  refine .map .spanFrom fun s _ hitems => ⟨hitems.1, fun e he => ?_⟩
  obtain ⟨i, hi, hvalue⟩ := List.mem_filterMap.1 he
  exact hitems.2 i hi e hvalue

theorem ensures_withClause : Ensures clean (withClause expr begin) (Upholds V) := by
  unfold withClause
  refine (ensures_projection hexpr).bind fun handed => ?_
  refine (ensures_optionalWhere hexpr).bind fun filter => ?_
  refine .map .spanFrom fun s _ hfilter hhanded => ⟨hhanded.1, ?_⟩
  show ∀ e ∈ handed.values ++ filter.toList, V e
  exact List.forall_mem_append.2 ⟨hhanded.2, hfilter⟩

theorem ensures_returnClause : Ensures clean (returnClause expr begin) (Upholds V) := by
  unfold returnClause
  refine (ensures_projection hexpr).bind fun handed => ?_
  exact .map .spanFrom fun s _ hhanded => hhanded

theorem ensures_unwindClause : Ensures clean (unwindClause expr begin) (Upholds V) := by
  unfold unwindClause
  refine hexpr.bind fun source => ?_
  refine .next .expect fun _ => ?_
  refine .next .variableName fun name => ?_
  exact .map .spanFrom fun s _ hsource => ⟨trivial, List.forall_mem_singleton.2 hsource⟩

/-! ## `ORDER BY`, `SKIP` and `LIMIT` -/

omit hexpr in
theorem ensures_sortDirection : Ensures clean sortDirection fun _ => True := by
  unfold sortDirection
  refine .next .current fun t => ?_
  split
  · exact .map .advance fun _ _ => trivial
  · exact .map .advance fun _ _ => trivial
  · exact .map .advance fun _ _ => trivial
  · exact .map .advance fun _ _ => trivial
  · exact .pure trivial

theorem ensures_sortItem : Ensures clean (sortItem expr) fun i => V i.key := by
  unfold sortItem
  refine .next .start fun begin => ?_
  refine hexpr.bind fun key => ?_
  refine ensures_sortDirection.next fun direction => ?_
  exact .map .spanFrom fun s _ hkey => hkey

theorem ensures_orderClause : Ensures clean (orderClause expr begin) (Upholds V) := by
  unfold orderClause
  refine .next .expect fun _ => ?_
  refine (ensures_sortItem hexpr).commaSeparated.bind fun items => ?_
  exact .map .spanFrom fun s _ hitems => ⟨hitems.1, List.forall_mem_map.2 hitems.2⟩

theorem ensures_skipClause : Ensures clean (skipClause expr begin) (Upholds V) := by
  unfold skipClause
  refine hexpr.bind fun count => ?_
  exact .map .spanFrom fun s _ hcount => ⟨trivial, List.forall_mem_singleton.2 hcount⟩

theorem ensures_limitClause : Ensures clean (limitClause expr begin) (Upholds V) := by
  unfold limitClause
  refine hexpr.bind fun count => ?_
  exact .map .spanFrom fun s _ hcount => ⟨trivial, List.forall_mem_singleton.2 hcount⟩

/-! ## `CALL` -/

omit hexpr in
theorem ensures_procedureName : Ensures clean procedureName (· ≠ []) := by
  unfold procedureName
  refine .next .symbolicName fun first => ?_
  exact .map Ensures.symbolicName.behind.many fun others _ => List.cons_ne_nil _ _

theorem ensures_procedureArguments :
    Ensures clean (procedureArguments expr) fun es => ∀ e ∈ es, V e := by
  unfold procedureArguments
  refine hexpr.commaSeparatedUntil.bind fun arguments => ?_
  exact .map .expect fun _ _ harguments => harguments

omit hexpr in
theorem ensures_yieldItem : Ensures clean yieldItem fun _ => True := by
  unfold yieldItem
  refine .next .start fun begin => ?_
  refine .next .variableName fun field => ?_
  refine ensures_optionalAlias.next fun name => ?_
  exact .map .spanFrom fun s _ => trivial

theorem ensures_callClause : Ensures clean (callClause expr begin) (Upholds V) := by
  unfold callClause
  refine ensures_procedureName.bind fun procedure => ?_
  refine (ensures_procedureArguments hexpr).behind.bind fun arguments => ?_
  refine ensures_yieldItem.commaSeparated.behind.bind fun fields => ?_
  refine (ensures_optionalWhere hexpr).bind fun filter => ?_
  refine .map .spanFrom fun s _ hfilter hfields harguments hprocedure => ?_
  refine ⟨⟨hprocedure, fun hempty => (hfields [] hempty).1 rfl⟩, ?_⟩
  show ∀ e ∈ arguments.getD [] ++ filter.toList, V e
  refine List.forall_mem_append.2 ⟨?_, hfilter⟩
  cases arguments with
  | none => exact List.forall_mem_nil _
  | some es => exact harguments es rfl

/-! ## All clauses -/

/-- Every clause is well-formed behind its first word. -/
theorem ensures_clauseBehind {word : Keyword} {rest : Parser Clause}
    (h : clauseBehind expr word begin = some rest) : Ensures clean rest (Upholds V) := by
  unfold clauseBehind at h
  split at h <;> cases h
  · exact ensures_matchClause hexpr
  · exact ensures_qualifiedMatch hexpr
  · exact ensures_qualifiedMatch hexpr
  · exact ensures_createClause hexpr
  · exact ensures_mergeClause hexpr
  · exact ensures_setClause hexpr
  · exact ensures_deleteClause hexpr
  · exact ensures_detachClause hexpr
  · exact ensures_removeClause
  · exact ensures_withClause hexpr
  · exact ensures_unwindClause hexpr
  · exact ensures_returnClause hexpr
  · exact ensures_orderClause hexpr
  · exact ensures_skipClause hexpr
  · exact ensures_limitClause hexpr
  · exact ensures_callClause hexpr

theorem ensures_clause : Ensures clean (clause expr) fun o => ∀ c ∈ o, Upholds V c := by
  unfold clause
  refine .next .current fun t => ?_
  split
  · split
    · next rest hrest =>
      refine .next .advance fun _ => ?_
      refine (ensures_clauseBehind hexpr hrest).map fun c hc c' hc' => ?_
      exact Option.some.inj hc' ▸ hc
    · exact .pure nofun
  · exact .pure nofun

end Clauses

end Cypher.Grammar
