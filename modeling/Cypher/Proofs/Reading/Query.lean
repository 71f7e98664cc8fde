import Cypher.Grammar.Query
import Cypher.Proofs.Reading.Clause
import Cypher.Proofs.Reading.Expression

/-!
# Reading queries

A whole query is read from its tokens: the header, the clauses of the
first single query, and the single queries joined to it one after another.
A union of `n` parts is a tree of height `n`, and the limit bounds that
height as it bounds the height of every expression.
-/

namespace Cypher

/-- The query is well-formed, its clauses are plain, and it is no higher
than the limit in any of its expressions nor as a union. A single part is
within every limit. -/
structure Query.Readable (q : Query) (limit : Nat) : Prop where
  formed : q.Formed
  plain : ∀ c ∈ q.clauses, c.Plain
  heights : ∀ c ∈ q.clauses, ∀ e ∈ c.values, e.height ≤ limit
  parts : q.body.parts.length ≤ max 1 limit

namespace Grammar

open Token (Kind)

variable {config : Config} {rest : List Token}

/-- The clauses of a single query are plain and within the limit, and they
are not none. -/
structure ReadsPart (config : Config) (p : SingleQuery) : Prop where
  nonempty : p.clauses ≠ []
  plain : ∀ c ∈ p.clauses, c.Plain
  heights : ∀ c ∈ p.clauses, ∀ e ∈ c.values, e.height ≤ config.maxDepth

theorem endsClause_of_ends (h : headKind rest = .eof ∨ headKind rest = .keyword .UNION) :
    endsClause (headKind rest) = true := by
  rcases h with h | h <;> rw [h] <;> rfl

theorem reads_singleQuery {p : SingleQuery} (hp : ReadsPart config p)
    (hrest : headKind rest = .eof ∨ headKind rest = .keyword .UNION) :
    Reads 0 (singleQuery config) (p.tokens ++ rest) rest fun a => a.erase = p.erase := by
  obtain ⟨clauses, s⟩ := p
  rw [SingleQuery.tokens_mk]
  unfold singleQuery
  refine Reads.start.bind fun begin _ => ?_
  refine (Reads.many (S := fun ts => endsClause (headKind ts) = true) (g := Clause.erase)
    (h := Clause.erase) (endsClause_of_ends hrest) (reads_clause_absent hrest)
    (fun c _ => ?_) fun c hc ts hts => ⟨?_, ?_⟩).bind fun cs hcs => ?_
  · intro hnil
    have hhead := (headKind_clause c []).1
    rw [hnil] at hhead
    cases hhead
  · unfold endsClause
    rw [(headKind_clause c ts).1, Bool.or_true]
  · exact reads_clause (hp.plain c hc)
      (fun e he => readsTree_expression ((hp.plain c hc).values e he) (hp.heights c hc e he))
      hts
  · have hsome : cs.isEmpty = false := by
      cases cs with
      | nil => exact absurd (List.map_eq_nil_iff.1 hcs.symm) hp.nonempty
      | cons c cs => rfl
    rw [hsome, if_neg Bool.false_ne_true]
    refine Reads.spanFrom.bind fun sp _ => .pure ?_
    exact congrArg (SingleQuery.mk · .nowhere) hcs

/-- The union read so far is this one. -/
def Joins (j : Joined) (b : QueryBody) : Prop :=
  j.body.erase = b.erase ∧ j.height = b.parts.length

theorem reads_unionPart {all : Bool} {left : QueryBody} {right : SingleQuery} {s : Span}
    {j : Joined} (hj : Joins j left) (hright : ReadsPart config right)
    (hparts : (QueryBody.union all left right s).parts.length ≤ config.maxDepth)
    (hrest : headKind rest = .eof ∨ headKind rest = .keyword .UNION) :
    Reads 0 (unionPart config j) (allTokens all ++ (right.tokens ++ rest)) rest
      fun a => Joins a (.union all left right s) := by
  have hheight : j.height + 1 = (QueryBody.union all left right s).parts.length := by
    rw [hj.2, QueryBody.parts, List.length_append]
    rfl
  unfold unionPart
  refine (reads_checkHeight (hheight ▸ hparts)).bind fun _ _ => ?_
  have hall : Reads 0 (consume (.keyword .ALL)) (allTokens all ++ (right.tokens ++ rest))
      (right.tokens ++ rest) (· = all) := by
    cases all with
    | true => exact Reads.consume rfl
    | false =>
      refine Reads.consume_absent ?_
      obtain ⟨clauses, s⟩ := right
      cases clauses with
      | nil => exact absurd rfl hright.nonempty
      | cons c cs =>
        rw [SingleQuery.tokens_mk, List.flatMap_cons, List.append_assoc]
        intro h
        have hhead := (headKind_clause c (cs.flatMap Clause.tokens ++ rest)).1
        have hhead' : headKind (c.tokens ++ (cs.flatMap Clause.tokens ++ rest))
          = .keyword .ALL := h
        rw [hhead'] at hhead
        cases hhead
  refine hall.bindEq ?_
  refine (reads_singleQuery hright hrest).bind fun r hr => .pure ⟨?_, hheight⟩
  exact congrArg₂ (QueryBody.union all · · .nowhere) hj.1 hr

/-- The first part of a union, and the loop that joins the others to it. -/
theorem reads_joined {Q : Joined → Prop} {after : List Token} (b : QueryBody)
    (hb : ∀ p ∈ b.parts, ReadsPart config p)
    (hparts : b.parts.length ≤ max 1 config.maxDepth)
    (hrest : headKind rest = .eof ∨ headKind rest = .keyword .UNION)
    (hnext : ∀ j, Joins j b → Iterates 0 (joinPart config) j rest after Q) :
    Reads 0 (do
      let first ← singleQuery config
      iterate (joinPart config) ⟨.single first, 1⟩) (b.tokens ++ rest) after Q := by
  induction b generalizing rest with
  | single p =>
    refine (reads_singleQuery (hb p (List.mem_singleton_self p)) hrest).bind fun a ha => ?_
    exact (hnext ⟨.single a, 1⟩ ⟨congrArg QueryBody.single ha, rfl⟩).reads
  | union all left right s ih =>
    have hlength : (QueryBody.union all left right s).parts.length
        = left.parts.length + 1 := by
      rw [QueryBody.parts, List.length_append]
      rfl
    have hleft : 1 ≤ left.parts.length := by
      cases left with
      | single => exact Nat.le_refl _
      | union =>
        rw [QueryBody.parts, List.length_append]
        exact Nat.le_add_left _ _
    rw [QueryBody.parts, List.forall_mem_append, List.forall_mem_singleton] at hb
    rw [QueryBody.tokens_union, List.append_assoc, List.cons_append, List.append_assoc]
    refine ih hb.1 (by omega) (.inr rfl) fun j hj => ?_
    have hpart : Reads 0 (joinPart config j) (Keyword.UNION.token :: (allTokens all
        ++ (right.tokens ++ rest))) rest fun r =>
          ∃ j', r = .yield j' ∧ Joins j' (.union all left right s) := by
      unfold joinPart
      refine (Reads.consume rfl).bindEq ?_
      rw [if_pos rfl]
      exact (reads_unionPart hj hb.2 (by omega) hrest).bind fun j' hj' =>
        .pure ⟨j', rfl, hj'⟩
    refine Iterates.next hpart ?_ hnext
    simp only [List.length_cons, List.length_append]
    omega

theorem reads_queryBody {b : QueryBody} (hb : ∀ p ∈ b.parts, ReadsPart config p)
    (hparts : b.parts.length ≤ max 1 config.maxDepth) :
    Reads 0 (queryBody config) b.tokens [] fun a => a.erase = b.erase := by
  have hbind : queryBody config = (do
      let whole ← (do
        let first ← singleQuery config
        iterate (joinPart config) ⟨.single first, 1⟩)
      return whole.body) := by
    simp only [queryBody, bind_assoc]
  rw [hbind, ← List.append_nil b.tokens]
  refine (reads_joined (Q := fun j => j.body.erase = b.erase) b hb hparts (.inl rfl)
    fun j hj => Iterates.last ?_).bind fun j hj => .pure hj
  unfold joinPart
  refine (Reads.consume_absent (by simp)).bindEq ?_
  exact .pure ⟨j, rfl, hj.1⟩

/-- Where the clauses of a query start, no header does. -/
theorem headKind_queryBody {b : QueryBody} (hb : ∀ p ∈ b.parts, ReadsPart config p) :
    headKind b.tokens ≠ .keyword .CYPHER := by
  have hsingle (p : SingleQuery) (hp : ReadsPart config p) (ts : List Token) :
      headKind (p.tokens ++ ts) ≠ .keyword .CYPHER := by
    obtain ⟨clauses, s⟩ := p
    cases clauses with
    | nil => exact absurd rfl hp.nonempty
    | cons c cs =>
      rw [SingleQuery.tokens_mk, List.flatMap_cons, List.append_assoc]
      intro h
      have hhead := (headKind_clause c (cs.flatMap Clause.tokens ++ ts)).1
      rw [h] at hhead
      cases hhead
  have hall (ts : List Token) : headKind (b.tokens ++ ts) ≠ .keyword .CYPHER := by
    induction b generalizing ts with
    | single p => exact hsingle p (hb p (List.mem_singleton_self p)) ts
    | union all left right s ih =>
      rw [QueryBody.parts, List.forall_mem_append] at hb
      rw [QueryBody.tokens_union, List.append_assoc]
      exact ih hb.1 _
  have := hall []
  rwa [List.append_nil] at this

/-- A readable query is read from its tokens. -/
theorem reads_query {q : Query} (hq : q.Readable config.maxDepth) :
    Reads 0 (query config) q.tokens [] fun a => a.erase = q.erase := by
  obtain ⟨version, body, s⟩ := q
  have hbody : ∀ p ∈ body.parts, ReadsPart config p := fun p hp =>
    ⟨hq.formed.parts p hp, fun c hc => hq.plain c (List.mem_flatMap_of_mem hp hc),
      fun c hc => hq.heights c (List.mem_flatMap_of_mem hp hc)⟩
  rw [Query.tokens_mk]
  unfold query
  refine Reads.start.bind fun begin _ => ?_
  have hversion : Reads 0 Grammar.version
      ((version.toList.flatMap fun v =>
        [Keyword.CYPHER.token, .ofKind (Glyph.numberKind v)]) ++ body.tokens)
      body.tokens (· = version) := by
    unfold Grammar.version
    cases version with
    | none =>
      refine (Reads.consume_absent (headKind_queryBody hbody)).bindEq ?_
      exact .pure rfl
    | some v =>
      refine (Reads.consume (t := Keyword.CYPHER.token) rfl).bindEq ?_
      rw [if_pos rfl]
      refine Reads.current.bind fun t ht => ?_
      have hkind : t.kind = Glyph.numberKind v := ht
      unfold Glyph.numberKind at hkind
      split at hkind <;> simp only [hkind] <;>
        exact (Reads.advance (t := .ofKind (Glyph.numberKind v))).bind fun _ _ => .pure rfl
  refine hversion.bindEq ?_
  refine (reads_queryBody hbody hq.parts).bind fun b hb => ?_
  have hend : Reads 0 endOfQuery [] [] fun _ => True := by
    unfold endOfQuery
    refine Reads.current.bind fun t ht => ?_
    have hkind : t.kind = .eof := ht
    rw [if_pos hkind]
    exact .pure trivial
  refine hend.bind fun _ _ => ?_
  refine Reads.spanFrom.bind fun sp _ => .pure ?_
  exact congrArg (Query.mk version · .nowhere) hb

end Grammar

end Cypher
