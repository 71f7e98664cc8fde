import Cypher.Proofs.Traced.Query

/-!
# The brackets inside an expression

In an accepted text the tokens inside the span of an expression are those that it was
made of, but for the parentheses around an operand at either end: an expression in
parentheses keeps the span that it has without them, and an operator that begins or ends
with it takes up no more. In `(a + b) * c` the span of the product goes from `a` to `c`,
and one parenthesis is cut off.

With what has been cut off, the tokens are balanced; without it they are not.
-/

namespace Cypher

namespace Token

/-- The tokens that lie inside the span. -/
def within (span : Span) (tokens : List Token) : List Token :=
  tokens.filter fun t => span.start ≤ t.span.start ∧ t.span.stop ≤ span.stop

/-- The tokens inside the span, with the parentheses around it that have been cut off, are
balanced where they stand; and if nothing has been cut off, and only then, they are balanced
alone. -/
def Mendable (tokens : List Token) (span : Span) (opened closed : List Token) : Prop :=
  (∀ t ∈ opened, t.kind = .punctuation .lparen) ∧ (∀ t ∈ closed, t.kind = .punctuation .rparen)
    ∧ opened ++ (within span tokens ++ closed) <:+: tokens
    ∧ Balanced (opened ++ (within span tokens ++ closed))
    ∧ (Balanced (within span tokens) ↔ opened = [] ∧ closed = [])

variable {tokens inside front behind : List Token} {t : Token} {span : Span}

theorem Spans.exists_first (h : Spans inside span) :
    ∃ u rest, inside = u :: rest ∧ u.span.start = span.start := by
  obtain ⟨u, rest, rfl⟩ := List.exists_cons_of_ne_nil h.ne_nil
  exact ⟨u, rest, rfl, Option.some.inj h.first⟩

theorem Spans.exists_last (h : Spans inside span) :
    ∃ rest u, inside = rest ++ [u] ∧ u.span.stop = span.stop := by
  obtain ⟨rest, u, rfl⟩ := (List.eq_nil_or_concat' inside).resolve_left h.ne_nil
  have hlast := h.last
  rw [List.getLast?_concat] at hlast
  exact ⟨rest, u, rfl, Option.some.inj hlast⟩

/-- What lies from the first of the tokens to the last lies inside the span. -/
theorem Spans.bounds (h : Spans inside span) (hapart : Apart inside) (ht : t ∈ inside) :
    span.start ≤ t.span.start ∧ t.span.stop ≤ span.stop := by
  constructor
  · obtain ⟨u, rest, rfl, hfirst⟩ := h.exists_first
    rcases List.mem_cons.1 ht with rfl | hrest
    · exact Nat.le_of_eq hfirst.symm
    · have hbehind := (List.pairwise_cons.1 hapart.apart).1 t hrest
      have hu := hapart.nonempty u List.mem_cons_self
      omega
  · obtain ⟨rest, u, rfl, hlast⟩ := h.exists_last
    rcases List.mem_append.1 ht with hrest | heq
    · have hfront := (List.pairwise_append.1 hapart.apart).2.2 t hrest u List.mem_cons_self
      have hu := hapart.nonempty u (List.mem_append_right _ List.mem_cons_self)
      omega
    · rw [List.mem_singleton.1 heq]
      exact Nat.le_of_eq hlast

/-- Only the tokens from which a span is taken lie inside it. -/
theorem Spans.within_eq (h : Spans inside span) (hapart : Apart (front ++ (inside ++ behind))) :
    within span (front ++ (inside ++ behind)) = inside := by
  obtain ⟨-, hright, hfront⟩ := List.pairwise_append.1 hapart.apart
  obtain ⟨hinside, -, hbehind⟩ := List.pairwise_append.1 hright
  have hbytes := hapart.nonempty
  have hall : within span inside = inside :=
    List.filter_eq_self.2 fun t ht =>
      decide_eq_true (h.bounds ⟨fun u hu => hbytes u (by simp [hu]), hinside⟩ ht)
  have hfirst : within span front = [] := by
    obtain ⟨u, rest, rfl, hu⟩ := h.exists_first
    refine List.filter_eq_nil_iff.2 fun t ht hpass => ?_
    have hstop := hfront t ht u (by simp)
    have hlt := hbytes t (by simp [ht])
    have hstart := (of_decide_eq_true hpass).1
    omega
  have hlast : within span behind = [] := by
    obtain ⟨rest, u, rfl, hu⟩ := h.exists_last
    refine List.filter_eq_nil_iff.2 fun t ht hpass => ?_
    have hstart := hbehind u (by simp) t ht
    have hlt := hbytes t (by simp [ht])
    have hstop := (of_decide_eq_true hpass).2
    omega
  rw [within, List.filter_append, List.filter_append]
  change within span front ++ (within span inside ++ within span behind) = inside
  rw [hfirst, hall, hlast, List.nil_append, List.append_nil]

/-- The span of what has been trimmed holds what is left. -/
theorem Trimmed.exists_mendable {ts : List Token} (h : Trimmed ts span) (hbalanced : Balanced ts)
    (hstretch : ts <:+: tokens) (hapart : Apart tokens) :
    ∃ opened closed, Mendable tokens span opened closed := by
  obtain ⟨opened, inside, closed, ⟨rfl, hopened, hclosed, hspans⟩, halone⟩ := h
  obtain ⟨front, behind, htokens⟩ := hstretch
  have hsplit : tokens = (front ++ opened) ++ (inside ++ (closed ++ behind)) := by
    rw [← htokens]
    simp
  have hwithin : within span tokens = inside := by
    rw [hsplit] at hapart ⊢
    exact hspans.within_eq hapart
  refine ⟨opened, closed, hopened, hclosed, ?_, ?_, ?_⟩
  · rw [hwithin]
    exact ⟨front, behind, htokens⟩
  · rw [hwithin]
    exact hbalanced
  · rw [hwithin]
    refine ⟨halone, ?_⟩
    rintro ⟨rfl, rfl⟩
    rwa [List.nil_append, List.append_nil] at hbalanced

end Token

/-- In an accepted text the tokens inside the span of an expression are balanced once the
parentheses are counted in that its operands at either end have left behind. An expression that
begins and ends with tokens of its own has left none. -/
theorem exists_mendable_of_parse {text : String} {config : Config} {q : Query}
    (h : parse text config = .ok q) :
    ∀ c ∈ q.clauses, ∀ e ∈ c.values, e.Everywhere fun e => ∃ opened closed,
      Token.Mendable (TokenStream.ofText text).tokens e.span opened closed
        ∧ (e.sketch.form.isAtom = true → opened = [] ∧ closed = []) := by
  have htally := tally_of_parse h
  have hapart := TokenStream.apart_tokens text.toList
  intro c hc e he
  refine (q.everywhere_mem_nodes c hc e he).mono fun e hmem => ?_
  obtain ⟨ts, hstretch, hbalanced, htrimmed, hatom⟩ :=
    htally.enclosed _ (Sketch.nodesOf_singleton _ ▸ hmem) e.isExpression_sketch
  rw [e.span_sketch] at htrimmed hatom
  obtain ⟨opened, closed, hmend⟩ := htrimmed.exists_mendable hbalanced hstretch hapart
  refine ⟨opened, closed, hmend, fun hown => hmend.2.2.2.2.1 ?_⟩
  obtain ⟨front, behind, htokens⟩ := hstretch
  have hall : Token.within e.span (TokenStream.ofText text).tokens = ts := by
    rw [List.append_assoc] at htokens
    rw [← htokens]
    exact (hatom hown).within_eq (htokens ▸ hapart)
  rwa [hall]

/-- Parentheses on the left, on the right, around an atom and around a whole operator. -/
private def mixedParentheses : String :=
  "RETURN (a + b) * c, - (a), (a.k).l, f((a), (a) + (b))[(1)..], ([(x)])"

theorem exists_mendable_of_parse_mixedParentheses :
    ∃ q, parse mixedParentheses = .ok q ∧ ∀ c ∈ q.clauses, ∀ e ∈ c.values,
      e.Everywhere fun e => ∃ opened closed,
        Token.Mendable (TokenStream.ofText mixedParentheses).tokens e.span opened closed
          ∧ (e.sketch.form.isAtom = true → opened = [] ∧ closed = []) := by
  obtain ⟨q, hq⟩ := exists_parse_of_isOk mixedParentheses (by decide +kernel)
  exact ⟨q, hq, exists_mendable_of_parse hq⟩

/-- A product whose span closes a parenthesis that it does not open. -/
theorem exists_span_unbalanced :
    ∃ q, parse "RETURN (a + b) * c" = .ok q ∧ ∃ c ∈ q.clauses, ∃ e ∈ c.values,
      ¬ Token.Balanced
        (Token.within e.span (TokenStream.ofText "RETURN (a + b) * c").tokens) := by
  have hspans : (parse "RETURN (a + b) * c").toOption.map
      (fun q => (q.clauses.flatMap Clause.values).map Expression.span) = some [⟨8, 18⟩] := by
    decide +kernel
  obtain ⟨q, hq, hspan⟩ := exists_of_map_toOption hspans
  obtain ⟨e, hmem, he⟩ : ∃ e ∈ q.clauses.flatMap Clause.values, e.span = ⟨8, 18⟩ :=
    List.mem_map.1 (hspan ▸ List.mem_cons_self)
  obtain ⟨c, hc, hvalue⟩ := List.mem_flatMap.1 hmem
  refine ⟨q, hq, c, hc, e, hvalue, ?_⟩
  rw [he]
  decide +kernel

end Cypher
