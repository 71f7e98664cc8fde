import Cypher.Proofs.Traced.Query

/-!
# The holes inside a node

If there is a tree, whatever is wrong with the text, an expression takes up all bytes of
the holes inside it. So does any other node of a hole for which tokens have been skipped,
and of one that has a token of the node behind it.

A hole that is empty, with nothing more of the node behind, stands where the next token
starts. The operators that it ends reach up to it. But the items, clauses and queries that
it ends stop where the last token has stopped, and leave it outside, though with no token
between.
-/

namespace Cypher

namespace Outcome

variable {text : String} {config : Config} {q : Query}

/-- A hole lies inside every node around it, save for an empty one at the end of nodes that are
no expressions. -/
theorem covers_of_query (h : (ofText text config).query = some q) :
    ∀ o ∈ q.sketch.nodes, ∀ hole ∈ o.nodes, hole.form = .hole →
      Sketch.Covers (TokenStream.ofText text).tokens o.form o.span hole.span := by
  obtain ⟨s, htraced, -, -⟩ := exists_traced_of_query h
  intro o ho
  exact (htraced.upright o (Sketch.nodesOf_singleton _ ▸ ho)).covers

/-- An operand is missing at the end of a clause, and another one in front of a token. -/
private def missingAtEnds : String := "MATCH (n) WHERE n.a = RETURN [1 + , 2] *  \n"

theorem covers_of_query_missingAtEnds :
    ∃ q, (ofText missingAtEnds).query = some q
      ∧ ∀ o ∈ q.sketch.nodes, ∀ hole ∈ o.nodes, hole.form = .hole →
        Sketch.Covers (TokenStream.ofText missingAtEnds).tokens o.form o.span hole.span := by
  have hread : (ofText missingAtEnds).query.isSome = true := by decide +kernel
  obtain ⟨q, hq⟩ := Option.isSome_iff_exists.1 hread
  exact ⟨q, hq, covers_of_query hq⟩

/-- The operator reaches up to the missing operand, and the clause around it does not. -/
theorem exists_hole_behind_clause :
    ∃ q, (ofText "RETURN 1 + ").query = some q ∧ ∃ c ∈ q.clauses, ∃ e ∈ c.values,
      .hole ⟨11, 11⟩ ∈ e.children ∧ e.span = ⟨7, 11⟩ ∧ c.span = ⟨0, 10⟩ := by
  have hclauses : (ofText "RETURN 1 + ").query.map Query.clauses
      = some [.returnProjection ⟨false, [.expression (.infixed .add
          (.literal (.integer "1") ⟨7, 8⟩) (.hole ⟨11, 11⟩) ⟨7, 11⟩) none ⟨7, 10⟩],
          ⟨7, 10⟩⟩ ⟨0, 10⟩] := by cbv
  obtain ⟨q, hq, hc⟩ := Option.map_eq_some_iff.1 hclauses
  refine ⟨q, hq, _, hc ▸ List.mem_cons_self, _, List.mem_cons_self, ?_, rfl, rfl⟩
  exact List.mem_cons_of_mem _ List.mem_cons_self

/-- The holes in an expression lie inside it. -/
theorem hole_inside_of_query (h : (ofText text config).query = some q) :
    ∀ c ∈ q.clauses, ∀ e ∈ c.values, e.Everywhere fun e => e.Everywhere fun e' =>
      ∀ span, e' = .hole span → e.span.start ≤ span.start ∧ span.stop ≤ e.span.stop := by
  obtain ⟨s, htraced, -, -⟩ := exists_traced_of_query h
  intro c hc e he
  refine (q.everywhere_mem_nodes c hc e he).mono fun e hmem => ?_
  have hupright := htraced.upright _ (Sketch.nodesOf_singleton _ ▸ hmem)
  refine (e.everywhere_mem_nodes (List.Subset.refl _)).mono fun e' hmem' span heq => ?_
  subst heq
  obtain ⟨hstart, hstop⟩ := hupright.covers _ hmem' rfl
  rw [e.span_sketch, e.isExpression_sketch] at *
  refine ⟨hstart, hstop.resolve_right fun hpart => ?_⟩
  cases hpart.1

end Outcome

end Cypher
