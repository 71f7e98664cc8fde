import Cypher.Proofs.Traced.Query

/-!
# The stars of a text

A star is read where an operand is due, whatever the place: as the argument of a call,
but as an item of a list or as an operand no less. Only at the beginning of an item of a
projection it stands for all columns, so that no such item begins with a star.

No star gets lost. Each is an operand, or the operator of a product, or it belongs to a
relationship with a range of hops, to a map projection or to a projection of all columns.
-/

namespace Cypher

/-- The projection of a clause that has one. -/
def Clause.projection? : Clause → Option Projection
  | .withProjection projection _ _ | .returnProjection projection _ => some projection
  | _ => none

theorem Clause.mem_nodes_item {c : Clause} {p : Projection} (hp : c.projection? = some p) :
    ∀ i ∈ p.items, i.sketch ∈ c.sketch.nodes := by
  have hnodes : p.sketch.nodes ⊆ c.sketch.nodes := by
    refine Sketch.nodes_subset_node (Sketch.nodes_subset_of_mem ?_) _ _
    cases c <;> cases hp <;> exact List.mem_cons_self
  intro i hi
  refine hnodes (Sketch.nodes_subset_node ?_ _ _ (Sketch.mem_nodes_self _))
  exact Sketch.nodes_subset_of_mem (List.mem_map_of_mem hi)

/-- In an accepted text a star that is an expression is a token, and no item of a projection that
is an expression begins with one. All stars of the text are accounted for. -/
theorem stars_of_parse {text : String} {config : Config} {q : Query}
    (h : parse text config = .ok q) :
    (∀ c ∈ q.clauses, ∀ e ∈ c.values, e.Everywhere fun e => ∀ span, e = .star span →
        ∃ t ∈ (TokenStream.ofText text).tokens, t.kind = .operator .star ∧ t.span = span)
      ∧ (∀ c ∈ q.clauses, ∀ p, c.projection? = some p → ∀ value name span,
        .expression value name span ∈ p.items →
        ∀ t ∈ (TokenStream.ofText text).tokens, t.kind = .operator .star →
          t.span.start ≠ span.start)
      ∧ (TokenStream.ofText text).tokens.countP (·.kind.isStar)
        = q.sketch.nodes.countP (·.form.isStarred) := by
  obtain ⟨hquery, -⟩ := parse_eq_ok_iff.1 h
  obtain ⟨s, htraced, -, -⟩ := Outcome.exists_traced_of_query hquery
  have hupright : ∀ o ∈ q.sketch.nodes, o.Upright (TokenStream.ofText text).tokens :=
    fun o ho => htraced.upright o (Sketch.nodesOf_singleton _ ▸ ho)
  refine ⟨fun c hc e he => ?_, fun c hc p hp value name span hi => ?_, ?_⟩
  · refine (q.everywhere_mem_nodes c hc e he).mono fun e hmem span heq => ?_
    subst heq
    exact (hupright _ hmem).star rfl
  · have hmem := q.nodes_clauses c hc (Clause.mem_nodes_item hp _ hi)
    exact (hupright _ hmem).item rfl
  · have hstars := (tally_of_parse h).stars
    rwa [Sketch.nodesOf_singleton] at hstars

/-- A star in every place that one can stand in. -/
private def manyStars : String :=
  "MATCH (n)-[*1..2]->() WITH *, (*) AS rest, count(*) * 2 AS twice RETURN n \x7b.*, k: [*]\x7d"

theorem stars_of_parse_manyStars :
    ∃ q, parse manyStars = .ok q ∧ q.sketch.nodes.countP (·.form.isStarred) = 7 := by
  obtain ⟨q, hq⟩ := exists_parse_of_isOk manyStars (by decide +kernel)
  obtain ⟨-, -, hcount⟩ := stars_of_parse hq
  exact ⟨q, hq, hcount.symm.trans (by decide +kernel)⟩

/-- A star is an item of a list. -/
theorem exists_star_in_list :
    ∃ q, parse "RETURN [*]" = .ok q ∧ ∃ c ∈ q.clauses, ∃ e ∈ c.values,
      e = .list [.star ⟨8, 9⟩] ⟨7, 10⟩ := by
  have hclauses : (parse "RETURN [*]").toOption.map Query.clauses
      = some [.returnProjection ⟨false, [.expression (.list [.star ⟨8, 9⟩] ⟨7, 10⟩) none ⟨7, 10⟩],
          ⟨7, 10⟩⟩ ⟨0, 10⟩] := by cbv
  obtain ⟨q, hq, hc⟩ := exists_of_map_toOption hclauses
  exact ⟨q, hq, _, hc ▸ List.mem_cons_self, _, List.mem_cons_self, rfl⟩

end Cypher
