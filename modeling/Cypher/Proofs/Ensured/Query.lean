import Cypher.Parse
import Cypher.Proofs.Ensured.Clause
import Cypher.Proofs.Ensured.Operators
import Cypher.Proofs.Ensured.Token
import Cypher.Proofs.Outcome

/-!
# What reading a query ensures

The limit bounds what is nested and what is joined. Joining is counted from
one, and asks for room before each further part; so there are never more
parts than the limit allows, and always the first.

An accepted text is one in which nothing was got over, so its tree has no hole,
and every node of it, at any depth, can be written and read.
-/

namespace Cypher

namespace Grammar

variable {clean : Prop} {config : Config} {V : Expression → Prop}

/-! ## Single queries and unions -/

/-- There are clauses, and they are what the parser of clauses makes. -/
def PartUpholds (V : Expression → Prop) (p : SingleQuery) : Prop :=
  p.clauses ≠ [] ∧ ∀ c ∈ p.clauses, Upholds V c

/-- A union has been counted rightly, and has no more parts than the limit allows. -/
structure Counted (config : Config) (V : Expression → Prop) (j : Joined) : Prop where
  height : j.body.parts.length = j.height
  low : j.height ≤ max 1 config.maxDepth
  parts : ∀ p ∈ j.body.parts, PartUpholds V p

theorem ensures_singleQuery (hV : Inherited clean config V) :
    Ensures clean (singleQuery config) (PartUpholds V) := by
  unfold singleQuery
  refine .next .start fun begin => ?_
  refine (ensures_clause (ensures_expression hV)).many.bind fun clauses => ?_
  split
  · exact .fail
  · next hsome =>
    refine .map .spanFrom fun s _ hclauses => ⟨?_, hclauses⟩
    rintro rfl
    exact hsome rfl

/-- One more part is counted, if there is room for it. -/
theorem ensures_unionPart (hV : Inherited clean config V) {left : Joined} :
    Ensures clean (unionPart config left) fun j => Counted config V left → Counted config V j := by
  unfold unionPart
  refine .bind .checkHeight fun _ => ?_
  refine .next .consume fun all => ?_
  refine (ensures_singleQuery hV).map fun right hright hlow hleft => ?_
  refine ⟨?_, Nat.le_trans hlow (Nat.le_max_right _ _), ?_⟩
  · rw [QueryBody.parts, List.length_append, hleft.height, List.length_singleton]
  · exact List.forall_mem_append.2 ⟨hleft.parts, List.forall_mem_singleton.2 hright⟩

theorem ensures_joinPart (hV : Inherited clean config V) {left : Joined} :
    Ensures clean (joinPart config left) fun r =>
      Counted config V left → Counted config V r.run := by
  unfold joinPart
  refine .next .consume fun due => ?_
  split
  · exact (ensures_unionPart hV).map fun j hj => hj
  · exact .pure id

theorem ensures_queryBody (hV : Inherited clean config V) :
    Ensures clean (queryBody config) fun body =>
      (∀ p ∈ body.parts, PartUpholds V p) ∧ body.parts.length ≤ max 1 config.maxDepth := by
  unfold queryBody
  refine (ensures_singleQuery hV).bind fun first => ?_
  refine (Ensures.iterate (fun _ => ensures_joinPart hV) _).map fun whole hwhole hfirst => ?_
  have hcounted : Counted config V ⟨.single first, 1⟩ :=
    ⟨rfl, Nat.le_max_left _ _, List.forall_mem_singleton.2 hfirst⟩
  obtain ⟨hheight, hlow, hparts⟩ := hwhole hcounted
  exact ⟨hparts, hheight.symm ▸ hlow⟩

/-! ## Queries -/

theorem ensures_version :
    Ensures clean version fun o =>
      ∀ v ∈ o, Digits v.toList ∨ PointedDigits v.toList := by
  unfold version
  refine .next .consume fun due => ?_
  split
  · refine .bind .current fun t => ?_
    split
    · next digits hkind =>
      refine .map .advance fun _ _ ht v hv => .inl ?_
      rwa [Token.Sound, hkind, Option.some.inj hv] at ht
    · next digits hkind =>
      refine .map .advance fun _ _ ht v hv => .inr ?_
      rwa [Token.Sound, hkind, Option.some.inj hv] at ht
    · exact .fail
  · exact .pure fun v hv => by cases hv

theorem ensures_endOfQuery : Ensures clean endOfQuery fun _ => True := by
  unfold endOfQuery
  refine .next .current fun t => ?_
  split
  · exact .pure trivial
  · exact .fail

/-- The query can be written and read but for its expressions, these have the
property, and it has no more parts than the limit allows. -/
theorem ensures_query (hV : Inherited clean config V) :
    Ensures clean (query config) fun q =>
      q.Formed ∧ (∀ c ∈ q.clauses, Upholds V c)
        ∧ q.body.parts.length ≤ max 1 config.maxDepth := by
  unfold query
  refine .next .start fun begin => ?_
  refine ensures_version.bind fun header => ?_
  refine (ensures_queryBody hV).bind fun body => ?_
  refine .next ensures_endOfQuery fun _ => ?_
  refine .map .spanFrom fun s _ hbody hheader => ?_
  refine ⟨⟨hheader, fun p hp => (hbody.1 p hp).1⟩, fun c hc => ?_, hbody.2⟩
  obtain ⟨p, hp, hmem⟩ := List.mem_flatMap.1 hc
  exact (hbody.1 p hp).2 c hmem

end Grammar

/-! ## The limit -/

namespace Outcome

variable {text : String} {config : Config} {q : Query} {clean : Prop} {V : Expression → Prop}

/-- What is inherited within the limit holds of all expressions in a tree, and what is
inherited only where there is no hole, if nothing is wrong. -/
theorem upholds (hV : Grammar.Inherited clean config V)
    (h : (ofText text config).query = some q) (hclean : clean → (ofText text config).faults = []) :
    q.Formed ∧ (∀ c ∈ q.clauses, Grammar.Upholds V c)
      ∧ q.body.parts.length ≤ max 1 config.maxDepth := by
  unfold ofText ofTokens at h hclean
  split at h
  · next q' s' hrun =>
    cases h
    simp only [hrun, List.append_eq_nil_iff] at hclean
    exact ((Grammar.ensures_query hV).ok hrun).2 (Grammar.State.Sound.ofText text)
      fun hc => (hclean hc).2
  · cases h

theorem upholds_of_query (hV : Grammar.Inherited False config V)
    (h : (ofText text config).query = some q) :
    q.Formed ∧ (∀ c ∈ q.clauses, Grammar.Upholds V c)
      ∧ q.body.parts.length ≤ max 1 config.maxDepth :=
  upholds hV h False.elim

/-- The nesting limit bounds every tree, also one with holes: no expression in it,
however deep inside, is higher, and no more single queries are joined. -/
theorem height_le_of_query (h : (ofText text config).query = some q) :
    (∀ c ∈ q.clauses, ∀ e ∈ c.values, e.Everywhere fun e => e.height ≤ config.maxDepth)
      ∧ q.body.parts.length ≤ max 1 config.maxDepth := by
  have hV : Grammar.Inherited False config
      (Expression.Everywhere fun e => e.height ≤ config.maxDepth) :=
    fun e hmade hlow => ⟨hlow, hmade.2⟩
  obtain ⟨-, hclauses, hparts⟩ := upholds_of_query hV h
  exact ⟨fun c hc => (hclauses c hc).2, hparts⟩

/-- Two parts, a comprehension over a path with properties, and a missing operand
behind a subscript. -/
private def lowWithHole : String :=
  "MATCH (a \x7bk: [1 + 2]\x7d) RETURN [(a)--(b) | NOT b.c[0]] UNION RETURN [, 1] IS NULL"

theorem height_le_of_query_lowWithHole :
    ∃ q, (ofText lowWithHole ⟨5, true⟩).query = some q
      ∧ (∀ c ∈ q.clauses, ∀ e ∈ c.values, e.Everywhere fun e => e.height ≤ 5)
      ∧ q.body.parts.length ≤ max 1 5 := by
  have hread : (ofText lowWithHole ⟨5, true⟩).query.isSome = true := by decide +kernel
  obtain ⟨q, hq⟩ := Option.isSome_iff_exists.1 hread
  exact ⟨q, hq, height_le_of_query hq⟩

end Outcome

/-! ## Accepted trees -/

/-- An accepted tree is well-formed, whatever the configuration: no hole stands in it, no list
is empty where the grammar asks for an item, a path used as a condition has a relationship and
no name, and numbers and parameters are spelled as such. This holds of the query, of each of
its clauses, and of every expression at any depth. -/
theorem formed_of_parse {text : String} {config : Config} {q : Query}
    (h : parse text config = .ok q) :
    q.Formed ∧ ∀ c ∈ q.clauses, c.Formed ∧ ∀ e ∈ c.values, e.Everywhere Expression.Formed := by
  obtain ⟨hquery, hfaults⟩ := parse_eq_ok_iff.1 h
  have hV : Grammar.Inherited True config (Expression.Everywhere Expression.Formed) :=
    fun e hmade _ => ⟨hmade.1 trivial, hmade.2⟩
  obtain ⟨hformed, hclauses, -⟩ := Outcome.upholds hV hquery fun _ => hfaults
  exact ⟨hformed, hclauses⟩

/-- A path used as a condition inside the properties of another path, a branch inside a
subscript, and a parameter in the place of properties. -/
private def nestedForms : String :=
  "CYPHER 4.2 MATCH (a \x7bk: (b)-[:R $p]->(c)\x7d) WHERE a.xs[CASE WHEN a:A:B THEN 1.50 END] " ++
    "MERGE (a) ON CREATE SET a:C CALL d.e() YIELD f RETURN g.h($i) UNION RETURN *"

theorem formed_of_parse_nestedForms :
    ∃ q, parse nestedForms = .ok q ∧ q.Formed
      ∧ ∀ c ∈ q.clauses, c.Formed ∧ ∀ e ∈ c.values, e.Everywhere Expression.Formed := by
  have haccepted : (parse nestedForms).isOk = true := by decide +kernel
  cases hparse : parse nestedForms with
  | ok q => exact ⟨q, rfl, formed_of_parse hparse⟩
  | error rejection =>
    rw [hparse] at haccepted
    cases haccepted

end Cypher
