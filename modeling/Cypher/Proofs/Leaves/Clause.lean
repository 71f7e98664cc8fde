import Cypher.Grammar.Clause
import Cypher.Proofs.Leaves.Operand

/-!
# The leaves of clauses

Between the parts of a clause no bracket is open. Every clause ends where an
expression or a name may end, and the word that starts the next one is no leaf.
-/

namespace Cypher.Grammar

open Token (Kind)

variable {expr : Parser Expression} {o : Outlook} {read : List Leaf} {brackets : List Bracket}
  {modes : List Mode} {s : State} {begin : Nat}

/-- Past a reserved word that is no leaf, where none is open to a name. -/
theorem At.passWord {word : Keyword} (h : At o read brackets [.value, .call] s)
    (hword : word.isPlain) (hdue : s.current.kind = .keyword word) :
    At o read brackets [.value] s.advance := h.advance_nil (.plain hword (by simp) hdue)

theorem covers_optionalAlias :
    Covers optionalAlias leavesOfName brackets [.value, .call] [.value, .call] := by
  intro o read s h
  refine (Covers.behind (.plain rfl (by simp)) (covers_variableName (by simp) _) h).mono
    fun name s h => ?_
  exact (h.mono (by simp)).of_eq (by cases name <;> rfl)

/-! ## `MATCH`, `CREATE` and `MERGE` -/

section Clauses

variable (hexpr : CoversValues expr)

include hexpr

theorem covers_matchClause (kind : MatchKind) :
    Covers (matchClause expr kind begin) Clause.leaves [] [.value] [.value, .call] := by
  intro o read s h
  refine (covers_patternList hexpr (by simp) h).bind fun patterns s h => ?_
  refine (covers_optionalWhere hexpr (by simp) (h.mono (by simp))).bind fun filter s h => ?_
  refine Leads.spanFrom fun span => Leads.pure ?_
  exact h.of_eq (by simp [Clause.leaves])

theorem covers_qualifiedMatch (kind : MatchKind) :
    Covers (qualifiedMatch expr kind begin) Clause.leaves [] [.value] [.value, .call] := by
  intro o read s h
  refine (h.expect (.plain rfl (by simp))).bind fun _ s h => ?_
  exact covers_matchClause hexpr kind h

theorem covers_createClause :
    Covers (createClause expr begin) Clause.leaves [] [.value] [.value, .call] := by
  intro o read s h
  refine (covers_patternList hexpr (by simp) h).bind fun patterns s h => ?_
  exact Leads.spanFrom fun span => Leads.pure (h.mono (by simp))

omit hexpr in
theorem covers_assignment :
    Covers assignment (fun _ => []) brackets [.value, .call] [.value] := by
  intro o read s h
  refine Leads.consume (fun hdue => Leads.pure ?_) fun _ => Leads.consume
    (fun hdue => Leads.pure ?_) fun _ => Leads.fail
  · exact h.advance (.operator (.inl (by simp)) (by simp) hdue)
  · exact h.advance (.operator (.inl (by simp)) (by simp) hdue)

theorem leads_setProperty {name : String} (hdue : s.current.kind = .punctuation .dot)
    (h : At o (read ++ [.name name]) [] modes s) :
    Leads (setProperty expr name begin) s fun i =>
      At o (read ++ i.leaves) [] [.value, .call] := by
  refine Leads.advance ?_
  refine (covers_symbolicName _ (h.advance_nil (.dot hdue))).bind fun key s h => ?_
  refine Leads.spanFrom fun span => ?_
  refine (covers_assignment (h.mono (by simp))).bind fun how s h => ?_
  refine (hexpr (by simp) h).bind fun value s h => ?_
  refine Leads.spanFrom fun span => Leads.pure ?_
  exact h.of_eq (by simp [SetItem.leaves, PropertyPath.leaves])

omit hexpr in
theorem leads_setLabels {name : String} (h : At o (read ++ [.name name]) [] [.value, .call] s) :
    Leads (setLabels name begin) s fun i => At o (read ++ i.leaves) [] [.value, .call] := by
  refine (covers_labelList h).bind fun labels s h => ?_
  refine Leads.spanFrom fun span => Leads.pure ?_
  exact h.of_eq (by simp [SetItem.leaves])

theorem leads_setVariable {name : String} (h : At o (read ++ [.name name]) [] [.value, .call] s) :
    Leads (setVariable expr name begin) s fun i =>
      At o (read ++ i.leaves) [] [.value, .call] := by
  refine (covers_assignment h).bind fun how s h => ?_
  refine (hexpr (by simp) h).bind fun value s h => ?_
  refine Leads.spanFrom fun span => Leads.pure ?_
  exact h.of_eq (by simp [SetItem.leaves])

theorem covers_setItem :
    Covers (setItem expr) SetItem.leaves [] [.value] [.value, .call] := by
  intro o read s h
  refine Leads.start fun begin => ?_
  refine (covers_variableName (by simp) _ h).bind fun name s h => Leads.current ?_
  split
  · next hdue => exact leads_setProperty hexpr hdue h
  · exact leads_setLabels (h.mono (by simp))
  · exact leads_setVariable hexpr (h.mono (by simp))

theorem covers_setItems :
    Covers (setItems expr) (·.flatMap SetItem.leaves) [] [.value] [.value, .call] :=
  (covers_setItem hexpr).commaSeparated (.comma (by simp))

omit hexpr in
theorem covers_mergeTrigger :
    Covers mergeTrigger (fun _ => []) brackets [.value] [.value] := by
  intro o read s h
  refine Leads.consume (fun hdue => Leads.pure ?_) fun _ => Leads.consume
    (fun hdue => Leads.pure ?_) fun _ => Leads.fail
  · exact h.advance (.plain rfl (by simp) hdue)
  · exact h.advance (.plain rfl (by simp) hdue)

theorem covers_mergeAction :
    Covers (mergeAction expr) (·.toList.flatMap MergeAction.leaves) [] [.value, .call]
      [.value, .call] := by
  intro o read s h
  refine Leads.start fun begin => Leads.consume (fun hdue => ?_) fun _ => ?_
  · refine (covers_mergeTrigger (h.passWord rfl hdue)).bind fun trigger s h => ?_
    refine (h.expect (.plain rfl (by simp))).bind fun _ s h => ?_
    refine (covers_setItems hexpr h).bind fun items s h => ?_
    refine Leads.spanFrom fun span => Leads.pure ?_
    exact h.of_eq (by simp [MergeAction.leaves])
  · exact Leads.pure (h.of_eq (List.append_nil read).symm)

theorem covers_mergeClause :
    Covers (mergeClause expr begin) Clause.leaves [] [.value] [.value, .call] := by
  intro o read s h
  refine (covers_patternList hexpr (by simp) h).bind fun patterns s h => ?_
  refine ((covers_mergeAction hexpr).many (h.mono (by simp))).bind fun actions s h => ?_
  refine Leads.spanFrom fun span => Leads.pure ?_
  exact h.of_eq (by simp [Clause.leaves])

/-! ## `SET`, `DELETE` and `REMOVE` -/

theorem covers_setClause :
    Covers (setClause expr begin) Clause.leaves [] [.value] [.value, .call] := by
  intro o read s h
  refine (covers_setItems hexpr h).bind fun items s h => ?_
  exact Leads.spanFrom fun span => Leads.pure h

theorem covers_deleteClause (detach : Bool) :
    Covers (deleteClause expr detach begin) Clause.leaves [] [.value] [.value, .call] := by
  intro o read s h
  refine ((hexpr (by simp)).commaSeparated (.comma (by simp)) h).bind fun targets s h => ?_
  exact Leads.spanFrom fun span => Leads.pure h

theorem covers_detachClause :
    Covers (detachClause expr begin) Clause.leaves [] [.value] [.value, .call] := by
  intro o read s h
  refine (h.expect (.plain rfl (by simp))).bind fun _ s h => ?_
  exact covers_deleteClause hexpr true h

omit hexpr in
theorem leads_removeTail {name : String} (h : At o (read ++ [.name name]) [] [.value, .call] s) :
    Leads (removeTail name begin) s fun i => At o (read ++ i.leaves) [] [.value, .call] := by
  refine Leads.consume (fun hdue => ?_) fun _ => ?_
  · refine (covers_symbolicName _ (h.advance_nil (.dot hdue))).bind fun key s h => ?_
    refine Leads.spanFrom fun span => Leads.pure ?_
    exact (h.mono (by simp)).of_eq (by simp [RemoveItem.leaves, PropertyPath.leaves])
  · refine (covers_labelList h).bind fun labels s h => ?_
    refine Leads.spanFrom fun span => Leads.pure ?_
    exact h.of_eq (by simp [RemoveItem.leaves])

omit hexpr in
theorem covers_removeItem : Covers removeItem RemoveItem.leaves [] [.value] [.value, .call] := by
  intro o read s h
  refine Leads.start fun begin => ?_
  refine (covers_variableName (by simp) _ h).bind fun name s h => ?_
  exact leads_removeTail (h.mono (by simp))

omit hexpr in
theorem covers_removeClause :
    Covers (removeClause begin) Clause.leaves [] [.value] [.value, .call] := by
  intro o read s h
  refine (covers_removeItem.commaSeparated (.comma (by simp)) h).bind fun items s h => ?_
  exact Leads.spanFrom fun span => Leads.pure h

/-! ## `WITH`, `RETURN` and `UNWIND` -/

theorem covers_projectionItem :
    Covers (projectionItem expr) ProjectionItem.leaves [] [.value] [.value, .call] := by
  intro o read s h
  refine Leads.current ?_
  split
  · next hdue =>
    refine Leads.advance (Leads.pure ?_)
    exact (h.advance (.operator (.inl (by simp)) (by simp) hdue)).mono (by simp)
  · refine (hexpr (by simp) h).bind fun value s h => ?_
    refine (covers_optionalAlias h).bind fun name s h => ?_
    refine Leads.spanFrom fun span => Leads.pure ?_
    exact h.of_eq (by simp [ProjectionItem.leaves])

theorem covers_projection :
    Covers (projection expr) Projection.leaves [] [.value] [.value, .call] := by
  have hitems := (covers_projectionItem hexpr).commaSeparated (.comma (by simp))
  have hrest {o : Outlook} {read : List Leaf} {s : State} {begin : Nat} (distinct : Bool)
      (h : At o read [] [.value] s) :
      Leads (commaSeparated (projectionItem expr) >>= fun items =>
        spanFrom begin >>= fun span => pure (⟨distinct, items, span⟩ : Projection)) s
        fun p => At o (read ++ p.leaves) [] [.value, .call] :=
    (hitems h).bind fun items s h => Leads.spanFrom fun span => Leads.pure h
  intro o read s h
  refine Leads.start fun begin => Leads.consume (fun hdue => ?_) fun _ => hrest false h
  exact hrest true (h.advance_nil (.plain rfl (by simp) hdue))

theorem covers_withClause :
    Covers (withClause expr begin) Clause.leaves [] [.value] [.value, .call] := by
  intro o read s h
  refine (covers_projection hexpr h).bind fun handed s h => ?_
  refine (covers_optionalWhere hexpr (by simp) h).bind fun filter s h => ?_
  refine Leads.spanFrom fun span => Leads.pure ?_
  exact h.of_eq (by simp [Clause.leaves])

theorem covers_returnClause :
    Covers (returnClause expr begin) Clause.leaves [] [.value] [.value, .call] := by
  intro o read s h
  refine (covers_projection hexpr h).bind fun handed s h => ?_
  exact Leads.spanFrom fun span => Leads.pure h

theorem covers_unwindClause :
    Covers (unwindClause expr begin) Clause.leaves [] [.value] [.value, .call] := by
  intro o read s h
  refine (hexpr (by simp) h).bind fun source s h => ?_
  refine (h.expect (.plain rfl (by simp))).bind fun _ s h => ?_
  refine (covers_variableName (by simp) _ h).bind fun name s h => ?_
  refine Leads.spanFrom fun span => Leads.pure ?_
  exact (h.mono (by simp)).of_eq (by simp [Clause.leaves])

/-! ## `ORDER BY`, `SKIP` and `LIMIT` -/

omit hexpr in
theorem covers_sortDirection :
    Covers sortDirection (fun _ => []) brackets [.value, .call] [.value, .call] := by
  intro o read s h
  have hword {word : Keyword} (hdue : s.current.kind = .keyword word) (hplain : word.isPlain) :
      At o (read ++ []) brackets [.value, .call] s.advance :=
    ((h.passWord hplain hdue).mono (by simp)).of_eq (List.append_nil read).symm
  refine Leads.current ?_
  split
  · next hdue => exact Leads.advance (Leads.pure (hword hdue rfl))
  · next hdue => exact Leads.advance (Leads.pure (hword hdue rfl))
  · next hdue => exact Leads.advance (Leads.pure (hword hdue rfl))
  · next hdue => exact Leads.advance (Leads.pure (hword hdue rfl))
  · exact Leads.pure (h.of_eq (List.append_nil read).symm)

theorem covers_sortItem : Covers (sortItem expr) SortItem.leaves [] [.value] [.value, .call] := by
  intro o read s h
  refine Leads.start fun begin => ?_
  refine (hexpr (by simp) h).bind fun key s h => ?_
  refine (covers_sortDirection h).bind fun direction s h => ?_
  refine Leads.spanFrom fun span => Leads.pure ?_
  exact h.of_eq (by simp [SortItem.leaves])

theorem covers_orderClause :
    Covers (orderClause expr begin) Clause.leaves [] [.value] [.value, .call] := by
  intro o read s h
  refine (h.expect (.plain rfl (by simp))).bind fun _ s h => ?_
  refine ((covers_sortItem hexpr).commaSeparated (.comma (by simp)) h).bind fun items s h => ?_
  exact Leads.spanFrom fun span => Leads.pure h

theorem covers_skipClause :
    Covers (skipClause expr begin) Clause.leaves [] [.value] [.value, .call] := by
  intro o read s h
  refine (hexpr (by simp) h).bind fun count s h => ?_
  exact Leads.spanFrom fun span => Leads.pure h

theorem covers_limitClause :
    Covers (limitClause expr begin) Clause.leaves [] [.value] [.value, .call] := by
  intro o read s h
  refine (hexpr (by simp) h).bind fun count s h => ?_
  exact Leads.spanFrom fun span => Leads.pure h

/-! ## `CALL` -/

omit hexpr in
theorem covers_procedureName : Covers procedureName leavesOfNames brackets [.name] [.call] := by
  intro o read s h
  refine (covers_symbolicName _ h).bind fun first s h => ?_
  refine (covers_dottedNames h).bind fun others s h => Leads.pure ?_
  exact h.of_eq (by simp [leavesOfNames])

theorem leads_procedureArguments (h : At o read brackets [.call] s) :
    Leads (behind (.punctuation .lparen) (procedureArguments expr)) s fun r =>
      At o (read ++ (r.getD []).flatMap Expression.leaves) brackets [.value, .call] := by
  refine Leads.consume (fun hdue => ?_) fun _ => ?_
  · have harguments : Leads (procedureArguments expr) s.advance fun es =>
        At o (read ++ leavesOfList es) brackets [.value] :=
      leads_arguments hexpr hdue h fun es s h => Leads.pure h
    refine harguments.bind fun es s h => Leads.pure ?_
    exact (h.mono (by simp)).of_eq (by simp [leavesOfList_eq])
  · exact Leads.pure ((h.mono (by simp)).of_eq (List.append_nil read).symm)

omit hexpr in
theorem covers_yieldItem : Covers yieldItem YieldItem.leaves [] [.value] [.value, .call] := by
  intro o read s h
  refine Leads.start fun begin => ?_
  refine (covers_variableName (by simp) _ h).bind fun field s h => ?_
  refine (covers_optionalAlias (h.mono (by simp))).bind fun name s h => ?_
  refine Leads.spanFrom fun span => Leads.pure ?_
  exact h.of_eq (by simp [YieldItem.leaves])

theorem covers_callClause :
    Covers (callClause expr begin) Clause.leaves [] [.name] [.value, .call] := by
  have hfields : Covers (behind (.keyword .YIELD) (commaSeparated yieldItem)) _ []
      [.value, .call] [.value, .call, .value, .call] :=
    .behind (.plain rfl (by simp)) (covers_yieldItem.commaSeparated (.comma (by simp)))
  intro o read s h
  refine (covers_procedureName h).bind fun procedure s h => ?_
  refine (leads_procedureArguments hexpr h).bind fun arguments s h => ?_
  refine (hfields h).bind fun fields s h => ?_
  refine (covers_optionalWhere hexpr (by simp) (h.mono (by simp))).bind fun filter s h => ?_
  refine Leads.spanFrom fun span => Leads.pure ?_
  refine h.of_eq ?_
  cases fields <;> simp [Clause.leaves]

/-! ## All clauses -/

/-- Behind its first word, a clause is read to its end. -/
theorem leads_clauseBehind {word : Keyword} {rest : Parser Clause}
    (hrest : clauseBehind expr word begin = some rest)
    (hdue : s.current.kind = .keyword word) (h : At o read [] [.value, .call] s) :
    Leads rest s.advance fun c => At o (read ++ c.leaves) [] [.value, .call] := by
  unfold clauseBehind at hrest
  split at hrest
  case h_17 => cases hrest
  all_goals cases hrest
  · exact covers_matchClause hexpr _ (h.passWord rfl hdue)
  · exact covers_qualifiedMatch hexpr _ (h.passWord rfl hdue)
  · exact covers_qualifiedMatch hexpr _ (h.passWord rfl hdue)
  · exact covers_createClause hexpr (h.passWord rfl hdue)
  · exact covers_mergeClause hexpr (h.passWord rfl hdue)
  · exact covers_setClause hexpr (h.passWord rfl hdue)
  · exact covers_deleteClause hexpr _ (h.passWord rfl hdue)
  · exact covers_detachClause hexpr (h.passWord rfl hdue)
  · exact covers_removeClause (h.passWord rfl hdue)
  · exact covers_withClause hexpr (h.passWord rfl hdue)
  · exact covers_unwindClause hexpr (h.passWord rfl hdue)
  · exact covers_returnClause hexpr (h.passWord rfl hdue)
  · exact covers_orderClause hexpr (h.passWord rfl hdue)
  · exact covers_skipClause hexpr (h.passWord rfl hdue)
  · exact covers_limitClause hexpr (h.passWord rfl hdue)
  · have hpasses : Passes s.current [] [.value, .call] [] [] .name :=
      .keyword (by simp) hdue fun m hname hentry => by
        simp [Scan.passKeyword, Scan.toMode, hname, hentry]
    exact covers_callClause hexpr (h.advance_nil hpasses)

theorem covers_clause :
    Covers (clause expr) (·.toList.flatMap Clause.leaves) [] [.value, .call] [.value, .call] := by
  intro o read s h
  have hnone : At o (read ++ []) [] [.value, .call] s := h.of_eq (List.append_nil read).symm
  refine Leads.current ?_
  split
  · next word hdue =>
    split
    · next rest hrest =>
      refine Leads.advance ((leads_clauseBehind hexpr hrest hdue h).bind fun c s h =>
        Leads.pure ?_)
      exact h.of_eq (by simp)
    · exact Leads.pure hnone
  · exact Leads.pure hnone

end Clauses

end Cypher.Grammar
