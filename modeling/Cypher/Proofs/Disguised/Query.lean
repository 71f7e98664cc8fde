import Cypher.Proofs.Disguised.Operators
import Cypher.Proofs.Leaves.Query

/-!
# Queries with names in disguise

The words of a clause are told from names, and behind a name no word is asked for
that a disguised name could be: a name in disguise stands where a name is due.
-/

namespace Cypher.Grammar

open Token (Kind)

variable {f : Token → Token} {config : Config} {expr : Parser Expression}
  {brackets : List Bracket} {modes : List Mode} {begin : Nat} {name : String}

theorem blind_optionalAlias : Blind f optionalAlias brackets [.value, .call] :=
  (blind_variableName (by simp [Plain])).behind (.inr (by simp [Plain])) (.plain rfl (by simp))

/-! ## `MATCH`, `CREATE` and `MERGE` -/

section Clauses

variable (hexpr : Steady f expr)

include hexpr

theorem blind_matchClause (kind : MatchKind) :
    Blind f (matchClause expr kind begin) [] [.value] :=
  (blind_patternList hexpr (by simp)).bind (covers_patternList hexpr.covers (by simp)) fun _ =>
    ((blind_optionalWhere hexpr (by simp)).bind (covers_optionalWhere hexpr.covers (by simp))
      fun _ => .spanFrom fun _ => .pure _).mono (by simp)

theorem blind_qualifiedMatch (kind : MatchKind) :
    Blind f (qualifiedMatch expr kind begin) [] [.value] :=
  .expectWord (.plain rfl (by simp)) (blind_matchClause hexpr kind)

theorem blind_createClause : Blind f (createClause expr begin) [] [.value] :=
  (blind_patternList hexpr (by simp)).bind (covers_patternList hexpr.covers (by simp)) fun _ =>
    .spanFrom fun _ => .pure _

omit hexpr in
theorem blind_assignment : Blind f assignment brackets [.value, .call] :=
  .consume (.operator (.inl (by simp)) (by simp)) (.inl rfl) (.pure _)
    (.consume (.operator (.inl (by simp)) (by simp)) (.inl rfl) (.pure _) .fail)

/-- An assigned value, and what is made of it. -/
theorem blind_assigned {β : Type} {make : Assignment → Expression → Span → β} :
    Blind f (assignment >>= fun how => expr >>= fun value => spanFrom begin >>= fun span =>
      pure (make how value span)) [] [.value, .call] :=
  blind_assignment.bind covers_assignment fun _ =>
    (hexpr.blind (by simp)).bind (hexpr.covers (by simp)) fun _ => .spanFrom fun _ => .pure _

theorem alike_setProperty {o : Outlook} {read : List Leaf} {s : State} (hf : Disguise f o.tokens)
    (hdue : s.current.kind = .punctuation .dot) (h : At o read [] modes s) :
    Alike f (setProperty expr name begin) s := by
  refine .advance ?_
  refine (Alike.symbolicName hf).bind (covers_symbolicName _ (h.advance_nil (.dot hdue)))
    fun key s h => .spanFrom hf fun span => ?_
  exact blind_assigned hexpr hf (h.mono (by simp))

omit hexpr in
theorem blind_setLabels : Blind f (setLabels name begin) [] [.value, .call] :=
  blind_labelList.bind covers_labelList fun _ => .spanFrom fun _ => .pure _

theorem blind_setVariable : Blind f (setVariable expr name begin) [] [.value, .call] :=
  blind_assigned hexpr

theorem blind_setItem : Blind f (setItem expr) [] [.value] := by
  refine .start fun begin => (blind_variableName (by simp [Plain])).bind
    (covers_variableName (by simp) _) fun name => ?_
  refine .current (by simp [Plain]) fun o read s hf h => ?_
  split
  · next hdue => exact alike_setProperty hexpr hf hdue h
  · exact blind_setLabels hf (h.mono (by simp))
  · exact blind_setVariable hexpr hf (h.mono (by simp))

theorem blind_setItems : Blind f (setItems expr) [] [.value] :=
  .commaSeparated (.comma (by simp)) (covers_setItem hexpr.covers) (blind_setItem hexpr)

omit hexpr in
theorem blind_mergeTrigger : Blind f mergeTrigger brackets [.value] :=
  .consume (.plain rfl (by simp)) (.inr (by simp [Plain])) (.pure _)
    (.consume (.plain rfl (by simp)) (.inr (by simp [Plain])) (.pure _) .fail)

theorem blind_mergeAction : Blind f (mergeAction expr) [] [.value, .call] := by
  refine .start fun begin =>
    .consume (.plain rfl (by simp)) (.inr (by simp [Plain])) ?_ (.pure _)
  refine blind_mergeTrigger.bind covers_mergeTrigger fun trigger => ?_
  refine .expectWord (.plain rfl (by simp)) ?_
  exact (blind_setItems hexpr).bind (covers_setItems hexpr.covers) fun _ =>
    .spanFrom fun _ => .pure _

theorem blind_mergeClause : Blind f (mergeClause expr begin) [] [.value] :=
  (blind_patternList hexpr (by simp)).bind (covers_patternList hexpr.covers (by simp)) fun _ =>
    ((Blind.many (covers_mergeAction hexpr.covers) (blind_mergeAction hexpr)).bind
      (covers_mergeAction hexpr.covers).many fun _ => .spanFrom fun _ => .pure _).mono (by simp)

/-! ## `SET`, `DELETE` and `REMOVE` -/

theorem blind_setClause : Blind f (setClause expr begin) [] [.value] :=
  (blind_setItems hexpr).bind (covers_setItems hexpr.covers) fun _ => .spanFrom fun _ => .pure _

theorem blind_deleteClause (detach : Bool) : Blind f (deleteClause expr detach begin) [] [.value] :=
  (Blind.commaSeparated (.comma (by simp)) (hexpr.covers (by simp)) (hexpr.blind (by simp))).bind
    ((hexpr.covers (by simp)).commaSeparated (.comma (by simp))) fun _ => .spanFrom fun _ => .pure _

theorem blind_detachClause : Blind f (detachClause expr begin) [] [.value] :=
  .expectWord (.plain rfl (by simp)) (blind_deleteClause hexpr true)

omit hexpr in
theorem blind_removeTail : Blind f (removeTail name begin) [] [.value, .call] := by
  refine .consume .dot (.inl rfl) ?_ ?_
  · exact blind_symbolicName.bind (covers_symbolicName _) fun _ => .spanFrom fun _ => .pure _
  · exact blind_labelList.bind covers_labelList fun _ => .spanFrom fun _ => .pure _

omit hexpr in
theorem blind_removeItem : Blind f removeItem [] [.value] :=
  .start fun _ => (blind_variableName (by simp [Plain])).bind (covers_variableName (by simp) _)
    fun _ => blind_removeTail.mono (by simp)

omit hexpr in
theorem blind_removeClause : Blind f (removeClause begin) [] [.value] :=
  (Blind.commaSeparated (.comma (by simp)) covers_removeItem blind_removeItem).bind
    (covers_removeItem.commaSeparated (.comma (by simp))) fun _ => .spanFrom fun _ => .pure _

/-! ## `WITH`, `RETURN` and `UNWIND` -/

theorem blind_expressionItem : Blind f (expressionItem expr begin) [] [.value] :=
  (hexpr.blind (by simp)).bind (hexpr.covers (by simp)) fun _ =>
    blind_optionalAlias.bind covers_optionalAlias fun _ => .spanFrom fun _ => .pure _

theorem blind_projectionItem : Blind f (projectionItem expr) [] [.value] := by
  refine .current (by simp [Plain]) fun o read s hf h => ?_
  split
  · exact .advance (.pure _)
  · exact blind_expressionItem hexpr hf h

theorem blind_projection : Blind f (projection expr) [] [.value] := by
  have hitems (distinct : Bool) (begin : Nat) :
      Blind f (commaSeparated (projectionItem expr) >>= fun items =>
        spanFrom begin >>= fun span => pure (⟨distinct, items, span⟩ : Projection)) [] [.value] :=
    (Blind.commaSeparated (.comma (by simp)) (covers_projectionItem hexpr.covers)
      (blind_projectionItem hexpr)).bind
      ((covers_projectionItem hexpr.covers).commaSeparated (.comma (by simp))) fun _ =>
        .spanFrom fun _ => .pure _
  refine .start fun begin => ?_
  exact .consume (.plain rfl (by simp)) (.inr (by simp [Plain])) (hitems true begin)
    (hitems false begin)

theorem blind_withClause : Blind f (withClause expr begin) [] [.value] :=
  (blind_projection hexpr).bind (covers_projection hexpr.covers) fun _ =>
    (blind_optionalWhere hexpr (by simp)).bind (covers_optionalWhere hexpr.covers (by simp))
      fun _ => .spanFrom fun _ => .pure _

theorem blind_returnClause : Blind f (returnClause expr begin) [] [.value] :=
  (blind_projection hexpr).bind (covers_projection hexpr.covers) fun _ =>
    .spanFrom fun _ => .pure _

theorem blind_unwindClause : Blind f (unwindClause expr begin) [] [.value] := by
  refine (hexpr.blind (by simp)).bind (hexpr.covers (by simp)) fun source => ?_
  refine .expectWord (.plain rfl (by simp)) ?_
  exact (blind_variableName (by simp [Plain])).bind (covers_variableName (by simp) _) fun _ =>
    .spanFrom fun _ => .pure _

/-! ## `ORDER BY`, `SKIP` and `LIMIT` -/

omit hexpr in
theorem blind_sortDirection : Blind f sortDirection brackets [.value, .call] := by
  refine .current (by simp [Plain]) fun o read s hf h => ?_
  split
  · exact .advance (.pure _)
  · exact .advance (.pure _)
  · exact .advance (.pure _)
  · exact .advance (.pure _)
  · exact .pure _

theorem blind_sortItem : Blind f (sortItem expr) [] [.value] :=
  .start fun _ => (hexpr.blind (by simp)).bind (hexpr.covers (by simp)) fun _ =>
    blind_sortDirection.bind covers_sortDirection fun _ => .spanFrom fun _ => .pure _

theorem blind_orderClause : Blind f (orderClause expr begin) [] [.value] := by
  refine .expectWord (.plain rfl (by simp)) ?_
  exact (Blind.commaSeparated (.comma (by simp)) (covers_sortItem hexpr.covers)
    (blind_sortItem hexpr)).bind ((covers_sortItem hexpr.covers).commaSeparated (.comma (by simp)))
      fun _ => .spanFrom fun _ => .pure _

theorem blind_skipClause : Blind f (skipClause expr begin) [] [.value] :=
  (hexpr.blind (by simp)).bind (hexpr.covers (by simp)) fun _ => .spanFrom fun _ => .pure _

theorem blind_limitClause : Blind f (limitClause expr begin) [] [.value] :=
  (hexpr.blind (by simp)).bind (hexpr.covers (by simp)) fun _ => .spanFrom fun _ => .pure _

/-! ## `CALL` -/

omit hexpr in
theorem blind_procedureName : Blind f procedureName brackets [.name] :=
  blind_symbolicName.bind (covers_symbolicName _) fun _ => blind_dottedNames.map

theorem blind_procedureArguments :
    Blind f (behind (.punctuation .lparen) (procedureArguments expr)) brackets [.call] := by
  intro o read s hf h
  refine .consume (h.kind_iff hf (.inl rfl)) (fun hdue => ?_) fun _ => .pure _
  exact (alike_arguments hexpr hf h hdue fun _ _ => .pure _).map

omit hexpr in
theorem blind_yieldItem : Blind f yieldItem [] [.value] :=
  .start fun _ => (blind_variableName (by simp [Plain])).bind (covers_variableName (by simp) _)
    fun _ => (blind_optionalAlias.bind covers_optionalAlias fun _ =>
      .spanFrom fun _ => .pure _).mono (by simp)

/-- The parts of the name of a procedure may be in disguise, the fields may not. -/
theorem blind_callClause : Blind f (callClause expr begin) [] [.name] := by
  have hyield : Covers (behind (.keyword .YIELD) (commaSeparated yieldItem)) _ []
      [.value, .call] [.value, .call, .value, .call] :=
    .behind (.plain rfl (by simp)) (covers_yieldItem.commaSeparated (.comma (by simp)))
  have hfields : Blind f (behind (.keyword .YIELD) (commaSeparated yieldItem)) [] [.value, .call] :=
    (Blind.commaSeparated (.comma (by simp)) covers_yieldItem blind_yieldItem).behind
      (.inr (by simp [Plain])) (.plain rfl (by simp))
  intro o read s hf h
  refine (blind_procedureName hf h).bind (covers_procedureName h) fun procedure s h => ?_
  refine (blind_procedureArguments hexpr hf h).bind (leads_procedureArguments hexpr.covers h)
    fun arguments s h => ?_
  refine (hfields hf h).bind (hyield h) fun fields s h => ?_
  exact (blind_optionalWhere hexpr (by simp) hf (h.mono (by simp))).andThen fun _ _ =>
    .spanFrom hf fun _ => .pure _

/-! ## All clauses -/

theorem alike_clauseBehind {word : Keyword} {rest : Parser Clause} {o : Outlook} {read : List Leaf}
    {s : State} (hf : Disguise f o.tokens) (hrest : clauseBehind expr word begin = some rest)
    (hdue : s.current.kind = .keyword word) (h : At o read [] [.value, .call] s) :
    Alike f rest s.advance := by
  unfold clauseBehind at hrest
  split at hrest
  case h_17 => cases hrest
  all_goals cases hrest
  · exact blind_matchClause hexpr _ hf (h.passWord rfl hdue)
  · exact blind_qualifiedMatch hexpr _ hf (h.passWord rfl hdue)
  · exact blind_qualifiedMatch hexpr _ hf (h.passWord rfl hdue)
  · exact blind_createClause hexpr hf (h.passWord rfl hdue)
  · exact blind_mergeClause hexpr hf (h.passWord rfl hdue)
  · exact blind_setClause hexpr hf (h.passWord rfl hdue)
  · exact blind_deleteClause hexpr _ hf (h.passWord rfl hdue)
  · exact blind_detachClause hexpr hf (h.passWord rfl hdue)
  · exact blind_removeClause hf (h.passWord rfl hdue)
  · exact blind_withClause hexpr hf (h.passWord rfl hdue)
  · exact blind_unwindClause hexpr hf (h.passWord rfl hdue)
  · exact blind_returnClause hexpr hf (h.passWord rfl hdue)
  · exact blind_orderClause hexpr hf (h.passWord rfl hdue)
  · exact blind_skipClause hexpr hf (h.passWord rfl hdue)
  · exact blind_limitClause hexpr hf (h.passWord rfl hdue)
  · have hpasses : Passes s.current [] [.value, .call] [] [] .name :=
      .keyword (by simp) hdue fun m hname hentry => by
        simp [Scan.passKeyword, Scan.toMode, hname, hentry]
    exact blind_callClause hexpr hf (h.advance_nil hpasses)

theorem blind_clause : Blind f (clause expr) [] [.value, .call] := by
  refine .current (by simp [Plain]) fun o read s hf h => ?_
  split
  · next word hdue =>
    split
    · next rest hrest => exact .advance (alike_clauseBehind hexpr hf hrest hdue h).map
    · exact .pure _
  · exact .pure _

end Clauses

/-! ## Queries -/

theorem blind_version : Blind f version [] [.value] := by
  refine .consume (.plain rfl (by simp)) (.inr (by simp [Plain])) ?_ (.pure _)
  refine .current (by simp [Plain]) fun o read s hf h => ?_
  split
  · exact .advance (.pure _)
  · exact .advance (.pure _)
  · exact .fail

section Whole

variable (hrecover : config.recover = false)

include hrecover

theorem steady_expression : Steady f (expression config) := steady_expressionWithin hrecover _

theorem blind_singleQuery : Blind f (singleQuery config) [] [.value] := by
  have hclause := covers_clause (coversValues_expression hrecover)
  refine .start fun begin => ?_
  refine ((Blind.many hclause (blind_clause (steady_expression hrecover))).mono (by simp)).bind
    (hclause.many.mono (by simp) (List.Subset.refl _)) fun clauses => ?_
  split
  · exact .fail
  · exact .spanFrom fun _ => .pure _

theorem blind_joinPart {left : Joined} : Blind f (joinPart config left) [] [.value, .call] := by
  refine .consume (.plain rfl (by simp)) (.inr (by simp [Plain])) (.map (.checkHeight ?_)) (.pure _)
  exact .consume (.plain rfl (by simp)) (.inr (by simp [Plain]))
    (blind_singleQuery hrecover).map (blind_singleQuery hrecover).map

theorem blind_queryBody : Blind f (queryBody config) [] [.value] := by
  intro o read s hf h
  refine (blind_singleQuery hrecover hf h).bind (covers_singleQuery hrecover h) fun first s h => ?_
  have hwhole : Alike f (iterate (joinPart config) ⟨.single first, 1⟩) s := by
    refine .iterate (Q := fun j s => At o (read ++ j.body.leaves) [] [.value, .call] s) h
      (fun j s h => (leads_joinPart hrecover h).mono fun r s h j' hr => ?_)
      fun j s h => blind_joinPart hrecover hf h
    rw [hr] at h
    exact h
  exact hwhole.map

theorem blind_query : Blind f (query config) [] [.value] := by
  intro o read s hf h
  refine .start hf fun begin => (blind_version hf h).bind (covers_version h) fun header s h => ?_
  refine (blind_queryBody hrecover hf h).bind (covers_queryBody hrecover h) fun body s h => ?_
  have hend : Alike f endOfQuery s := by
    refine (Blind.current (by simp [Plain]) fun o read s hf h => ?_) hf h
    split
    · exact .pure ()
    · exact .fail
  exact hend.andThen fun _ _ => .spanFrom hf fun _ => .pure _

end Whole

end Cypher.Grammar
