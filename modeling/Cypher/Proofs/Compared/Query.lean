import Cypher.Proofs.Closed.Query
import Cypher.Proofs.Compared.Clause
import Cypher.Proofs.Compared.Operators

/-!
# Comparing queries

A lawful comparison holds of the whole grammar: two readings of a query
that start in step end alike.

The expressions of a query are read by one parser, and all that is asked of the two
parsers of expressions is that they end alike. So a query is compared with one over
other expressions.
-/

namespace Cypher.Grammar

/-- The union with its tree recast. -/
def Joined.recast (r : Recasting) (j : Joined) : Joined := ⟨j.body.recast r, j.height⟩

namespace Comparison

/-- The span of a recast body is its span, recast. -/
theorem span_recast_body {r : Recasting} (b : QueryBody) :
    (b.recast r).span = b.span.recast r := by
  cases b <;> rfl

namespace Agrees

variable {c : Comparison} {config config' : Config} (law : c.Lawful config config')

include law

theorem version : c.Agrees version version id := by
  apply (consume law).bind
  rintro due _ rfl
  cases due with
  | true =>
    apply (current law).bind
    intro t t' ht
    simp only [kind_eq ht]
    split
    · exact (advance law).map fun _ _ _ => rfl
    · exact (advance law).map fun _ _ _ => rfl
    · exact fail_same law trivial
  | false => exact pure rfl

theorem endOfQuery : c.Agrees endOfQuery endOfQuery id := by
  apply (current law).bind
  intro t t' ht
  rw [kind_eq ht]
  split
  · exact pure rfl
  · exact fail_same law trivial

section Over

variable {expr expr' : Parser Expression} (hexpr : c.Agrees expr expr' (Expression.recast c.view))

include hexpr

theorem singleQueryOver : c.Agrees (singleQueryOver expr) (singleQueryOver expr')
    (SingleQuery.recast c.view) := by
  apply (start law).bind
  intro begin begin' hbegin
  apply ((clause law hexpr).many law).bind
  intro clauses clauses' hclauses
  have hempty : clauses.isEmpty = clauses'.isEmpty := by
    simpa only [List.isEmpty_map] using congrArg List.isEmpty hclauses
  rw [hempty]
  split
  · exact fail_same law trivial
  · apply (spanFrom law hbegin).map
    intro s s' hs
    simp only [SingleQuery.recast, hclauses, hs]

theorem unionPartOver {left left' : Joined} (h : left.recast c.view = left'.recast c.view) :
    c.Agrees (unionPartOver config expr left) (unionPartOver config' expr' left')
      (Joined.recast c.view) := by
  obtain ⟨hbody, hheight⟩ := Joined.mk.inj h
  have hstart : c.view.offset left.body.span.start = c.view.offset left'.body.span.start := by
    have hspan := congrArg QueryBody.span hbody
    rw [span_recast_body, span_recast_body] at hspan
    exact congrArg Span.start hspan
  apply (checkHeight law (congrArg (· + 1) hheight)).bind
  intro _ _ _
  apply (consume law).bind
  rintro all _ rfl
  apply (singleQueryOver law hexpr).map
  intro right right' hright
  have hstop : c.view.offset right.span.stop = c.view.offset right'.span.stop :=
    congrArg (fun q : SingleQuery => q.span.stop) hright
  simp only [Joined.recast, QueryBody.recast, Span.recast, hbody, hheight, hright, hstart,
    hstop, id]

theorem joinPartOver {left left' : Joined} (h : left.recast c.view = left'.recast c.view) :
    c.Agrees (joinPartOver config expr left) (joinPartOver config' expr' left')
      (roundView (Joined.recast c.view)) := by
  apply (consume law).bind
  rintro due _ rfl
  cases due with
  | true =>
    apply (unionPartOver law hexpr h).map
    intro whole whole' hwhole
    simp only [roundView, hwhole]
  | false => exact pure (congrArg ForInStep.done h)

theorem queryBodyOver :
    c.Agrees (queryBodyOver config expr) (queryBodyOver config' expr')
      (QueryBody.recast c.view) := by
  apply (singleQueryOver law hexpr).bind
  intro first first' hfirst
  have hjoined : (⟨.single first, 1⟩ : Joined).recast c.view
      = (⟨.single first', 1⟩ : Joined).recast c.view := by
    simp only [Joined.recast, QueryBody.recast, hfirst]
  apply (iterate law (fun _ _ h => joinPartOver law hexpr h) hjoined).map
  intro whole whole' hwhole
  exact congrArg Joined.body hwhole

theorem queryOver :
    c.Agrees (queryOver config expr) (queryOver config' expr') (Query.recast c.view) := by
  apply (start law).bind
  intro begin begin' hbegin
  apply (version law).bind
  rintro header _ rfl
  apply (queryBodyOver law hexpr).bind
  intro body body' hbody
  apply (endOfQuery law).bind
  intro _ _ _
  apply (spanFrom law hbegin).map
  intro s s' hs
  simp only [Query.recast, hbody, hs, id]

end Over

variable (hgrows : config.maxDepth < config'.maxDepth →
  ∀ room, Grows (Grammar.expressionWithin config' room))

include hgrows

theorem singleQuery : c.Agrees (singleQuery config) (singleQuery config')
    (SingleQuery.recast c.view) :=
  singleQueryOver law (expression law hgrows)

/-- A lawful comparison holds of whole queries. -/
theorem query : c.Agrees (query config) (query config') (Query.recast c.view) :=
  queryOver law (expression law hgrows)

end Agrees

end Comparison

end Cypher.Grammar
