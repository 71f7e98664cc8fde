import Cypher.Grammar.Clause
import Cypher.Proofs.Traced.Operand

/-!
# Tracing clauses

A clause takes up all bytes from its first word to the last token read for it. A hole
at its end may lie behind that token, and so outside the items and the clause it ends.

A star at the start of an item of a projection is the wildcard, so that no other item
starts with one.
-/

namespace Cypher.Grammar

variable {tokens : List Token} {expr : Parser Expression} {f : Known} {s₀ s : State}
  {l : List Sketch}

/-- The node of a clause. -/
theorem Traced.finish (h : Traced tokens {} f s₀ l s) (hb : f.begun = true) :
    Traced tokens {} { begun := true } s₀
      [.node .part ⟨s₀.current.span.start, max s.stop s₀.current.span.start⟩ l] s :=
  h.part.mono (fun _ => hb) (fun hs => by cases hs) fun hf => by cases hf

theorem traces_optionalAlias : Traces tokens { sealed := true } optionalAlias fun _ => [] := by
  have hname : Traces tokens .token (variableName .alias) fun _ => [] :=
    fun _ hs => (Traced.nothing hs).variableName
  have hbehind : Traces tokens _ (behind (.keyword .AS) (variableName .alias)) _ := hname.behind
  exact fun _ hs => (hbehind hs).mono fun _ _ h => h.of_eq (by simp)

section Clauses

variable (hexpr : Traces tokens .operand expr fun e => [e.sketch])

include hexpr

/-! ## `MATCH`, `CREATE` and `MERGE` -/

theorem Traced.matchClause (h : Traced tokens {} .token s₀ [] s) (kind : MatchKind) :
    Leads (matchClause expr kind s₀.current.span.start) s fun c =>
      Traced tokens {} { begun := true } s₀ [c.sketch] := by
  refine ((traces_patternList hexpr).after h).bind fun patterns s h => ?_
  refine ((traces_optionalWhere hexpr).after h).bind fun filter s h => ?_
  exact Leads.spanHere (Leads.pure (h.finish rfl))

theorem Traced.qualifiedMatch (h : Traced tokens {} .token s₀ [] s) (kind : MatchKind) :
    Leads (qualifiedMatch expr kind s₀.current.span.start) s fun c =>
      Traced tokens {} { begun := true } s₀ [c.sketch] :=
  h.expect.bind fun _ _ h => h.matchClause hexpr kind

theorem Traced.createClause (h : Traced tokens {} .token s₀ [] s) :
    Leads (createClause expr s₀.current.span.start) s fun c =>
      Traced tokens {} { begun := true } s₀ [c.sketch] := by
  refine ((traces_patternList hexpr).after h).bind fun patterns s h => ?_
  exact Leads.spanHere (Leads.pure (h.finish rfl))

omit hexpr in
theorem Traced.assignment (h : Traced tokens {} f s₀ l s) :
    Leads assignment s fun _ => Traced tokens {} .token s₀ l := by
  refine Leads.consume (fun hdue => Leads.pure (h.pass hdue)) fun _ => ?_
  exact Leads.consume (fun hdue => Leads.pure (h.pass hdue)) fun _ => Leads.fail

theorem Traced.setProperty (h : Traced tokens {} .token s₀ [] s)
    (hdue : s.current.kind = .punctuation .dot) {name : String} :
    Leads (setProperty expr name s₀.current.span.start) s fun i =>
      Traced tokens {} {} s₀ [i.sketch] := by
  refine Leads.advance ?_
  refine (h.pass hdue).symbolicName.bind fun key s h => Leads.spanHere ?_
  refine h.part.assignment.bind fun how s h => ?_
  refine (hexpr.after h).bind fun value s h => Leads.spanHere (Leads.pure ?_)
  exact h.part.forget

omit hexpr in
theorem Traced.setLabels (h : Traced tokens {} .token s₀ [] s) {name : String} :
    Leads (setLabels name s₀.current.span.start) s fun i =>
      Traced tokens {} {} s₀ [i.sketch] := by
  refine (traces_labelList.after h).bind fun labels s h => Leads.spanHere (Leads.pure ?_)
  exact h.part.forget

theorem Traced.setVariable (h : Traced tokens {} .token s₀ [] s) {name : String} :
    Leads (setVariable expr name s₀.current.span.start) s fun i =>
      Traced tokens {} {} s₀ [i.sketch] := by
  refine h.assignment.bind fun how s h => ?_
  refine (hexpr.after h).bind fun value s h => Leads.spanHere (Leads.pure ?_)
  exact h.part.forget

theorem traces_setItem : Traces tokens {} (setItem expr) fun i => [i.sketch] := by
  intro s hs
  refine Leads.startHere ?_
  refine (Traced.nothing hs).variableName.bind fun name s h => Leads.current ?_
  split
  · next hdue => exact h.setProperty hexpr hdue
  · exact h.setLabels
  · exact h.setVariable hexpr

theorem traces_setItems : Traces tokens {} (setItems expr) (·.map SetItem.sketch) :=
  fun _ hs => ((traces_setItem hexpr).commaSeparated hs).mono fun _ _ h =>
    h.of_eq List.map_eq_flatMap.symm

omit hexpr in
theorem Traced.mergeTrigger (h : Traced tokens {} f s₀ l s) :
    Leads mergeTrigger s fun _ => Traced tokens {} .token s₀ l := by
  refine Leads.consume (fun hdue => Leads.pure (h.pass hdue)) fun _ => ?_
  exact Leads.consume (fun hdue => Leads.pure (h.pass hdue)) fun _ => Leads.fail

theorem traces_mergeAction :
    Traces tokens {} (mergeAction expr) (·.toList.flatMap fun a => [a.sketch]) := by
  intro s hs
  have h := Traced.nothing hs
  refine Leads.startHere (Leads.consume (fun hdue => ?_) fun _ => Leads.pure h.forget)
  refine (h.pass hdue).mergeTrigger.bind fun trigger s h => ?_
  refine h.expect.bind fun _ s h => ?_
  refine ((traces_setItems hexpr).after h).bind fun items s h => ?_
  exact Leads.spanHere (Leads.pure h.part.forget)

theorem Traced.mergeClause (h : Traced tokens {} .token s₀ [] s) :
    Leads (mergeClause expr s₀.current.span.start) s fun c =>
      Traced tokens {} { begun := true } s₀ [c.sketch] := by
  refine ((traces_patternList hexpr).after h).bind fun patterns s h => ?_
  refine ((traces_mergeAction hexpr).many.after h).bind fun actions s h => ?_
  refine Leads.spanHere (Leads.pure ?_)
  exact (h.finish rfl).of_eq
    (by simp [Clause.sketch, Clause.sketches, Clause.span, List.map_eq_flatMap])

/-! ## `SET`, `DELETE` and `REMOVE` -/

theorem Traced.setClause (h : Traced tokens {} .token s₀ [] s) :
    Leads (setClause expr s₀.current.span.start) s fun c =>
      Traced tokens {} { begun := true } s₀ [c.sketch] := by
  refine ((traces_setItems hexpr).after h).bind fun items s h => ?_
  exact Leads.spanHere (Leads.pure (h.finish rfl))

theorem Traced.deleteClause (h : Traced tokens {} .token s₀ [] s) (detach : Bool) :
    Leads (deleteClause expr detach s₀.current.span.start) s fun c =>
      Traced tokens {} { begun := true } s₀ [c.sketch] := by
  refine (hexpr.commaSeparated.after h).bind fun targets s h => Leads.spanHere (Leads.pure ?_)
  exact (h.finish rfl).of_eq
    (by simp [Clause.sketch, Clause.sketches, Clause.span, List.map_eq_flatMap])

theorem Traced.detachClause (h : Traced tokens {} .token s₀ [] s) :
    Leads (detachClause expr s₀.current.span.start) s fun c =>
      Traced tokens {} { begun := true } s₀ [c.sketch] :=
  h.expect.bind fun _ _ h => h.deleteClause hexpr true

omit hexpr in
theorem traces_removeItem : Traces tokens {} removeItem fun i => [i.sketch] := by
  intro s hs
  refine Leads.startHere ?_
  refine (Traced.nothing hs).variableName.bind fun name s h => ?_
  refine Leads.consume (fun hdue => ?_) fun _ => ?_
  · refine (h.pass hdue).symbolicName.bind fun key s h => Leads.spanHere (Leads.pure ?_)
    exact h.part.forget
  · refine (traces_labelList.after h).bind fun labels s h => Leads.spanHere (Leads.pure ?_)
    exact h.part.forget

omit hexpr in
theorem Traced.removeClause (h : Traced tokens {} .token s₀ [] s) :
    Leads (removeClause s₀.current.span.start) s fun c =>
      Traced tokens {} { begun := true } s₀ [c.sketch] := by
  refine (traces_removeItem.commaSeparated.after h).bind fun items s h =>
    Leads.spanHere (Leads.pure ?_)
  exact (h.finish rfl).of_eq
    (by simp [Clause.sketch, Clause.sketches, Clause.span, List.map_eq_flatMap])

/-! ## `WITH`, `RETURN` and `UNWIND` -/

/-- A star at the start of an item is the wildcard, so that no expression is one with it. -/
theorem traces_projectionItem : Traces tokens {} (projectionItem expr) fun i => [i.sketch] := by
  intro s hs
  refine Leads.current ?_
  split
  · next hdue =>
    refine Leads.advance (Leads.pure ?_)
    exact (Traced.leaf .wildcard (by rw [hdue]; rfl) (by simp) hs (by simp [hdue])
      (by rw [hdue]; rfl)).forget
  · next hother =>
    refine (hexpr hs).bind fun value s h => ?_
    refine (traces_optionalAlias.after h).bind fun name s h => Leads.spanHere (Leads.pure ?_)
    exact (Traced.wrap .item rfl h fun _ => hother).forget

theorem traces_projection : Traces tokens {} (projection expr) fun p => [p.sketch] := by
  intro s hs
  refine Leads.startHere ?_
  refine ((Traced.nothing hs).consume).bind fun distinct s h => ?_
  refine ((traces_projectionItem hexpr).commaSeparated.after h).bind fun items s h =>
    Leads.spanHere (Leads.pure ?_)
  exact h.part.forget.of_eq (by simp [Projection.sketch, List.map_eq_flatMap])

theorem Traced.withClause (h : Traced tokens {} .token s₀ [] s) :
    Leads (withClause expr s₀.current.span.start) s fun c =>
      Traced tokens {} { begun := true } s₀ [c.sketch] := by
  refine ((traces_projection hexpr).after h).bind fun handed s h => ?_
  refine ((traces_optionalWhere hexpr).after h).bind fun filter s h => ?_
  exact Leads.spanHere (Leads.pure (h.finish rfl))

theorem Traced.returnClause (h : Traced tokens {} .token s₀ [] s) :
    Leads (returnClause expr s₀.current.span.start) s fun c =>
      Traced tokens {} { begun := true } s₀ [c.sketch] := by
  refine ((traces_projection hexpr).after h).bind fun handed s h => ?_
  exact Leads.spanHere (Leads.pure (h.finish rfl))

theorem Traced.unwindClause (h : Traced tokens {} .token s₀ [] s) :
    Leads (unwindClause expr s₀.current.span.start) s fun c =>
      Traced tokens {} { begun := true } s₀ [c.sketch] := by
  refine (hexpr.after h).bind fun source s h => ?_
  refine h.expect.bind fun _ s h => ?_
  refine h.variableName.bind fun name s h => ?_
  exact Leads.spanHere (Leads.pure (h.finish rfl))

/-! ## `ORDER BY`, `SKIP` and `LIMIT` -/

omit hexpr in
theorem traces_sortDirection : Traces tokens { sealed := true } sortDirection fun _ => [] := by
  intro s hs
  have h := Traced.nothing hs
  have hword {word : Keyword} (hdue : s.current.kind = .keyword word) :
      Traced tokens {} { sealed := true } s [] s.advance :=
    (h.pass hdue).mono (fun hb => by cases hb) id id
  refine Leads.current ?_
  split
  · next hdue => exact Leads.advance (Leads.pure (hword hdue))
  · next hdue => exact Leads.advance (Leads.pure (hword hdue))
  · next hdue => exact Leads.advance (Leads.pure (hword hdue))
  · next hdue => exact Leads.advance (Leads.pure (hword hdue))
  · exact Leads.pure h

theorem traces_sortItem : Traces tokens {} (sortItem expr) fun i => [i.sketch] := by
  intro s hs
  refine Leads.startHere ?_
  refine (hexpr hs).bind fun key s h => ?_
  refine (traces_sortDirection.after h).bind fun direction s h => Leads.spanHere (Leads.pure ?_)
  exact h.part.forget

theorem Traced.orderClause (h : Traced tokens {} .token s₀ [] s) :
    Leads (orderClause expr s₀.current.span.start) s fun c =>
      Traced tokens {} { begun := true } s₀ [c.sketch] := by
  refine h.expect.bind fun _ s h => ?_
  refine ((traces_sortItem hexpr).commaSeparated.after h).bind fun items s h =>
    Leads.spanHere (Leads.pure ?_)
  exact (h.finish rfl).of_eq
    (by simp [Clause.sketch, Clause.sketches, Clause.span, List.map_eq_flatMap])

theorem Traced.skipClause (h : Traced tokens {} .token s₀ [] s) :
    Leads (skipClause expr s₀.current.span.start) s fun c =>
      Traced tokens {} { begun := true } s₀ [c.sketch] :=
  (hexpr.after h).bind fun _ _ h => Leads.spanHere (Leads.pure (h.finish rfl))

theorem Traced.limitClause (h : Traced tokens {} .token s₀ [] s) :
    Leads (limitClause expr s₀.current.span.start) s fun c =>
      Traced tokens {} { begun := true } s₀ [c.sketch] :=
  (hexpr.after h).bind fun _ _ h => Leads.spanHere (Leads.pure (h.finish rfl))

/-! ## `CALL` -/

omit hexpr in
theorem traces_procedureName : Traces tokens .token procedureName fun _ => [] := by
  intro s hs
  refine (Traced.nothing hs).symbolicName.bind fun first s h => ?_
  exact (traces_dottedNames.after h).bind fun others s h => Leads.pure h

/-- The arguments of a procedure with their parentheses, if they are written. -/
theorem traces_arguments (hs : s.Underway tokens) :
    Leads (behind (.punctuation .lparen) (procedureArguments expr)) s fun arguments =>
      Traced tokens {} {} s ((arguments.getD []).map Expression.sketch) := by
  have h := Traced.nothing hs
  refine Leads.consume (fun hdue => ?_) fun _ => Leads.pure h.forget
  have harguments : Leads (procedureArguments expr) s.advance fun arguments =>
      Traced tokens {} .token s (arguments.map Expression.sketch) := by
    refine (hexpr.commaSeparatedUntil.after (h.pass hdue)).bind fun arguments s h => ?_
    refine h.expect.bind fun _ s h => Leads.pure ?_
    exact h.of_eq List.map_eq_flatMap.symm
  exact harguments.bind fun arguments s h => Leads.pure h.forget

omit hexpr in
theorem traces_yieldItem : Traces tokens {} yieldItem fun i => [i.sketch] := by
  intro s hs
  refine Leads.startHere ?_
  refine (Traced.nothing hs).variableName.bind fun field s h => ?_
  refine (traces_optionalAlias.after h).bind fun name s h => Leads.spanHere (Leads.pure ?_)
  exact h.part.forget

theorem Traced.callClause (h : Traced tokens {} .token s₀ [] s) :
    Leads (callClause expr s₀.current.span.start) s fun c =>
      Traced tokens {} { begun := true } s₀ [c.sketch] := by
  refine (traces_procedureName.after h).bind fun procedure s h => ?_
  refine (traces_arguments hexpr h.here).bind fun arguments s h' => ?_
  refine (traces_yieldItem.commaSeparated.behind.after (h.trans h')).bind fun fields s h => ?_
  refine ((traces_optionalWhere hexpr).after h).bind fun filter s h => Leads.spanHere (Leads.pure ?_)
  refine (h.finish rfl).of_eq ?_
  cases fields <;>
    simp [Clause.sketch, Clause.sketches, Clause.span, List.map_eq_flatMap]

/-! ## All clauses -/

/-- Behind its first word every clause is traced. -/
theorem Traced.clauseBehind {word : Keyword} {rest : Parser Clause}
    (hrest : clauseBehind expr word s₀.current.span.start = some rest)
    (h : Traced tokens {} .token s₀ [] s) :
    Leads rest s fun c => Traced tokens {} { begun := true } s₀ [c.sketch] := by
  unfold Grammar.clauseBehind at hrest
  split at hrest <;> cases hrest
  · exact h.matchClause hexpr _
  · exact h.qualifiedMatch hexpr _
  · exact h.qualifiedMatch hexpr _
  · exact h.createClause hexpr
  · exact h.mergeClause hexpr
  · exact h.setClause hexpr
  · exact h.deleteClause hexpr _
  · exact h.detachClause hexpr
  · exact h.removeClause
  · exact h.withClause hexpr
  · exact h.unwindClause hexpr
  · exact h.returnClause hexpr
  · exact h.orderClause hexpr
  · exact h.skipClause hexpr
  · exact h.limitClause hexpr
  · exact h.callClause hexpr

end Clauses

end Cypher.Grammar
