import Cypher.Proofs.Laid.Clause
import Cypher.Proofs.Laid.Operators
import Cypher.Proofs.Outcome

/-!
# Laying out a query

A query is laid out from its first token to its last. So two things are known of
every tree. Its holes are the operands that have been reported as missing, one for
one, in the order of the text and each at a place of its own. And where nothing
has been reported, its nodes lie over the tokens, nested and one behind the other.
-/

namespace Cypher

namespace Grammar

variable {tokens : List Token} {config : Config} {s₀ s : State}

/-! ## Single queries and unions -/

theorem lays_singleQuery : Lays tokens false (singleQuery config) fun q => [q.outline] := by
  intro s₀ h
  refine Leads.startHere ?_
  refine ((lays_clause (lays_expressionWithin _)).many.after h).bind fun clauses s h => ?_
  split
  · exact Leads.fail
  · next hsome =>
    refine Leads.spanHere (Leads.pure ?_)
    have hlaid : Since tokens false false s₀ (clauses.map Clause.outline) s :=
      h.of_eq List.map_eq_flatMap.symm
    refine hlaid.wrap (.inr fun hnone => hsome ?_)
    rw [List.map_eq_nil_iff.1 hnone]
    rfl

/-- What has been joined so far becomes the left part of one more union. -/
theorem Since.joinPart {left : Joined} (h : Since tokens false false s₀ [left.body.outline] s) :
    Leads (joinPart config left) s fun r =>
      Since tokens false false s₀ [r.value.body.outline] := by
  refine Leads.consume (fun hdue => ?_) fun _ => Leads.pure h
  have hpart : Leads (unionPart config left) s.advance fun j =>
      Since tokens false false s₀ [j.body.outline] := by
    refine Leads.checkHeight ?_
    refine (h.pass hdue).consume.bind fun all s h => ?_
    refine (lays_singleQuery.weaken.after h).bind fun right s h => Leads.pure ?_
    have hnode := (h.wrapBoth fun _ => rfl).forget
    exact hnode.of_eq (by simp [QueryBody.outline])
  exact hpart.bind fun j s h => Leads.pure h

theorem lays_queryBody : Lays tokens false (queryBody config) fun body => [body.outline] := by
  intro s₀ h
  refine (lays_singleQuery s₀ h).bind fun first s h => ?_
  have hwhole : Leads (iterate (joinPart config) ⟨.single first, 1⟩) s fun j =>
      Since tokens false false s₀ [j.body.outline] :=
    Leads.iterate h.wrapSame fun j s h => h.joinPart
  exact hwhole.bind fun whole s h => Leads.pure h

/-! ## Queries -/

theorem lays_version : Lays tokens false version fun _ => [] := by
  intro s h
  refine Leads.consume (fun hdue => Leads.current ?_) fun _ => Leads.pure h
  have h := h.pass hdue
  split
  · exact Leads.advance (Leads.pure h.skip.forget)
  · exact Leads.advance (Leads.pure h.skip.forget)
  · exact Leads.fail

theorem lays_query : Lays tokens false (query config) fun q => [q.outline] := by
  intro s₀ h
  refine Leads.startHere ?_
  refine (lays_version s₀ h).bind fun header s h => ?_
  refine (lays_queryBody.after h).bind fun body s h => ?_
  have hend : Leads endOfQuery s fun _ s' => s' = s := by
    refine Leads.current ?_
    split
    · exact Leads.pure rfl
    · exact Leads.fail
  refine hend.bind fun _ s' hs' => Leads.spanHere (Leads.pure ?_)
  subst hs'
  exact h.wrap (.inr (List.cons_ne_nil _ _))

/-- Before the first token of a text. -/
def State.ofText (text : String) : State :=
  { ahead := (TokenStream.ofText text).tokens, eof := (TokenStream.ofText text).eof }

theorem State.Placed.ofText (text : String) :
    (State.ofText text).Placed (TokenStream.ofText text).tokens where
  apart := TokenStream.apart_tokens _
  ahead := ⟨[], rfl, rfl⟩
  ended := rfl
  stop_le _ ht := TokenStream.stop_le_of_mem ht

/-- The whole of a text is one stretch of reading. -/
theorem since_ofText {text : String} {q : Query} {s : State}
    (h : query config (.ofText text) = .ok q s) :
    Since (TokenStream.ofText text).tokens false false (.ofText text) [q.outline] s := by
  have hrecorded : (State.ofText text).Recorded :=
    ⟨List.forall_mem_nil _, .nil, List.forall_mem_nil _⟩
  exact lays_query _ (.nothing (.ofText text) hrecorded fun hf => by cases hf) q s h

end Grammar

/-! ## Holes and reports -/

namespace Outcome

variable {text : String} {config : Config} {q : Query}

/-- What is reported about missing operands, in order. -/
def missing (o : Outcome) : List Diagnostic := o.diagnostics.filter (·.code = some "P001")

/-- If there is a tree, what the grammar reports is missing operands and nothing else,
and one stretch of reading has led to the tree. -/
theorem exists_since_of_query (h : (ofText text config).query = some q) :
    ∃ s, Grammar.Since (TokenStream.ofText text).tokens false false (.ofText text) [q.outline] s
      ∧ (ofText text config).faults = (TokenStream.ofText text).faults ++ s.faults
      ∧ (ofText text config).missing = s.faults.map Fault.diagnostic := by
  have hlexical : ∀ f ∈ (TokenStream.ofText text).faults, f.cause.code ≠ "P001" := by
    intro f hf
    rcases TokenStream.code_of_mem_faults hf with hcode | hcode <;> rw [hcode] <;> decide
  unfold ofText ofTokens at h ⊢
  split at h
  · next q' s hrun =>
    cases h
    have hsince := Grammar.since_ofText hrun
    refine ⟨s, hsince, rfl, ?_⟩
    simp only [missing, diagnostics, List.map_append, List.filter_append]
    rw [List.filter_eq_nil_iff.2, List.filter_eq_self.2, List.nil_append]
    · intro d hd
      obtain ⟨f, hf, rfl⟩ := List.mem_map.1 hd
      simp [Fault.diagnostic, hsince.recorded.missing f hf, Cause.code]
    · intro d hd
      obtain ⟨f, hf, rfl⟩ := List.mem_map.1 hd
      simpa [Fault.diagnostic] using hlexical f hf
  · cases h

/-- The holes of a tree, from left to right, and the missing operands that are reported
match one for one: each hole starts where the primary label of its report does, and no two
start at the same place. So there is no hole anywhere in a tree without such reports, and
only there. -/
theorem holes_of_query (h : (ofText text config).query = some q) :
    q.holes.map (fun span => some span.start)
        = (ofText text config).missing.map (fun d => d.primarySpan?.map Span.start)
      ∧ q.holes.Pairwise (fun span span' => span.start < span'.start)
      ∧ ((ofText text config).missing = []
        ↔ ∀ c ∈ q.clauses, ∀ e ∈ c.values, e.Everywhere fun e => ∀ span, e ≠ .hole span) := by
  obtain ⟨s, hsince, -, hmissing⟩ := exists_since_of_query h
  -- Nothing was on record at the start of the text.
  obtain ⟨new, hnew, hholes⟩ := hsince.holes
  have hfaults : s.faults = new := hnew.trans (List.nil_append new)
  have hstarts : s.faults.map (fun f => f.site.span.start) = q.holes.map Span.start := by
    rw [hfaults, hholes]
    exact congrArg (List.map Span.start) (List.append_nil _)
  refine ⟨?_, ?_, ?_⟩
  · have hlabels := congrArg (List.map some) hstarts
    rw [List.map_map, List.map_map] at hlabels
    rw [hmissing, List.map_map]
    exact hlabels.symm
  · rw [← List.pairwise_map (f := Span.start) (R := (· < ·)), ← hstarts, List.pairwise_map]
    exact hsince.recorded.increasing
  · rw [← Query.holes_eq_nil_iff, hmissing, List.map_eq_nil_iff]
    have hlengths := congrArg List.length hstarts
    rw [List.length_map, List.length_map] at hlengths
    rw [← List.length_eq_zero_iff, ← List.length_eq_zero_iff, hlengths]

/-- Two operands are missing, the one inside a list and the other in front of an operator. -/
private def twoMissing : String := "RETURN [1, , 3], = 2"

theorem holes_of_query_twoMissing :
    ∃ q, (ofText twoMissing).query = some q
      ∧ q.holes.map (fun span => some span.start) = [some 11, some 17] := by
  have hread : (ofText twoMissing).query.isSome = true := by decide +kernel
  obtain ⟨q, hq⟩ := Option.isSome_iff_exists.1 hread
  exact ⟨q, hq, (holes_of_query hq).1.trans (by decide +kernel)⟩

end Outcome

/-! ## Accepted queries -/

/-- In an accepted text every node of the tree, from the query down to the last expression,
takes up bytes of the text, from where a token starts to where a token stops. Its parts lie
inside it, and each stops before the next starts. -/
theorem fits_of_parse {text : String} {config : Config} {q : Query}
    (h : parse text config = .ok q) :
    q.outline.Everywhere fun o =>
      o.Fits (TokenStream.ofText text).tokens
        ∧ o.span.stop ≤ Text.byteLength text.toList := by
  obtain ⟨hquery, hnone⟩ := parse_eq_ok_iff.1 h
  obtain ⟨s, hsince, hfaults, -⟩ := Outcome.exists_since_of_query hquery
  rw [hfaults] at hnone
  have hlaid := hsince.laid (List.append_eq_nil_iff.1 hnone).2
  refine (hlaid.fits _ List.mem_cons_self).mono fun o ho => ⟨ho, ?_⟩
  obtain ⟨t, ht, hstop⟩ := ho.stop
  rw [← hstop]
  exact TokenStream.stop_le_of_mem ht

/-- Parentheses that leave no node, a path that is a condition, and a negation of the same
operand as a test. -/
private def bareParentheses : String :=
  "MATCH p = (a)-[r:R]->(\x7bk: 1\x7d) WHERE (a)--(b) RETURN - (a.k) IS NULL, ((1) + 2) * 3"

theorem fits_of_parse_bareParentheses :
    ∃ q, parse bareParentheses = .ok q ∧ q.outline.Everywhere fun o =>
      o.Fits (TokenStream.ofText bareParentheses).tokens ∧ o.span.stop ≤ 82 := by
  have haccepted : (parse bareParentheses).isOk = true := by decide +kernel
  obtain ⟨q, hq⟩ : ∃ q, parse bareParentheses = .ok q := by
    cases hparse : parse bareParentheses with
    | ok q => exact ⟨q, rfl⟩
    | error e =>
      rw [hparse] at haccepted
      cases haccepted
  have hlength : Text.byteLength bareParentheses.toList ≤ 82 := by decide +kernel
  exact ⟨q, hq, (fits_of_parse hq).mono fun o ho => ⟨ho.1, Nat.le_trans ho.2 hlength⟩⟩

end Cypher
