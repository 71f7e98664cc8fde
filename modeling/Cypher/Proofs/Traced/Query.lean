import Cypher.Proofs.Laid.Query
import Cypher.Proofs.Traced.Clause
import Cypher.Proofs.Traced.Operators

/-!
# Tracing a query

A query is traced from its first token to its last. No token is consumed before the
first, so that a clause may begin where no stretch of reading has.
-/

namespace Cypher

namespace Grammar

variable {tokens : List Token} {config : Config} {expr : Parser Expression} {s₀ s : State}

/-- Past a reserved word, which may be the first token. -/
theorem Traced.first {word : Keyword} (hs : s.Placed tokens)
    (hdue : s.current.kind = .keyword word) : Traced tokens {} .token s [] s.advance := by
  have hkind : s.current.kind ≠ .eof := by simp [hdue]
  have hlt := (hs.edge_advance (hs.ahead_ne_nil hkind)).1
  refine ⟨hs, ⟨hs.advance, Nat.zero_lt_of_lt hlt⟩, .inl hlt, fun _ => hlt, List.forall_mem_nil _,
    .nil, List.forall_mem_nil _, List.forall_mem_nil _, fun hclean => ?_, fun hclean => ?_⟩
  · exact State.faults_advance s ▸ hclean
  · refine ⟨[s.current], State.ahead_eq hs.ended hkind, ?_, ?_, nofun, List.forall_mem_nil _⟩
    · simp [Token.closing, Token.Kind.closing, hdue]
    · simp [Token.Kind.isStar, hdue, Sketch.nodesOf]

theorem traces_clause (hexpr : Traces tokens .operand expr fun e => [e.sketch])
    (hs : s.Placed tokens) :
    Leads (clause expr) s fun o s' => o = none ∧ s' = s
      ∨ ∃ c, o = some c ∧ Traced tokens {} { begun := true } s [c.sketch] s' := by
  refine Leads.current ?_
  split
  · next hdue =>
    split
    · next rest hrest =>
      refine Leads.advance ?_
      refine ((Traced.first hs hdue).clauseBehind hexpr hrest).bind fun c s h => Leads.pure ?_
      exact .inr ⟨c, rfl, h⟩
    · exact Leads.pure (.inl ⟨rfl, rfl⟩)
  · exact Leads.pure (.inl ⟨rfl, rfl⟩)

theorem traces_clauses (hexpr : Traces tokens .operand expr fun e => [e.sketch])
    (hs : s.Placed tokens) :
    Leads (many (clause expr)) s fun cs s' => cs = [] ∧ s' = s
      ∨ Traced tokens {} { begun := true } s (cs.map Clause.sketch) s' := by
  refine Leads.many (.inl ⟨rfl, rfl⟩) fun cs s' hcs => ?_
  rcases hcs with ⟨rfl, rfl⟩ | h
  · refine (traces_clause hexpr hs).mono fun o s'' hclause => ?_
    rcases hclause with ⟨rfl, rfl⟩ | ⟨c, rfl, h⟩
    · exact .inl ⟨rfl, rfl⟩
    · exact .inr h
  · refine (traces_clause hexpr h.here.placed).mono fun o s'' hclause => .inr ?_
    rcases hclause with ⟨rfl, rfl⟩ | ⟨c, rfl, h'⟩
    · exact h.of_eq (by simp)
    · exact (h.trans h').of_eq (by simp)

/-- The bytes from the first token of a stretch to its last. -/
theorem Traced.span_eq {k : Ledger} {f : Known} {l : List Sketch} (h : Traced tokens k f s₀ l s)
    (hb : f.begun = true) :
    (⟨s₀.current.span.start, max s.stop s₀.current.span.start⟩ : Span)
      = ⟨s₀.current.span.start, s.edge⟩ := by
  rw [h.here.stop_eq, Nat.max_eq_left (Nat.le_of_lt (h.begun hb))]

theorem traces_singleQuery (hs : s.Placed tokens) :
    Leads (singleQuery config) s fun q s' =>
      Traced tokens {} { begun := true } s [q.sketch] s'
        ∧ q.span = ⟨s.current.span.start, s'.edge⟩ := by
  refine Leads.startHere ?_
  refine (traces_clauses (traces_expressionWithin _) hs).bind fun clauses s' hclauses => ?_
  split
  · exact Leads.fail
  · next hsome =>
    refine Leads.spanHere (Leads.pure ?_)
    rcases hclauses with ⟨rfl, -⟩ | h
    · exact (hsome rfl).elim
    · exact ⟨h.finish rfl, h.span_eq rfl⟩

/-- What has been joined so far becomes the left part of one more union. -/
theorem Traced.joinPart {left : Joined}
    (h : Traced tokens {} { begun := true } s₀ [left.body.sketch] s
      ∧ left.body.span = ⟨s₀.current.span.start, s.edge⟩) :
    Leads (joinPart config left) s fun r s' =>
      Traced tokens {} { begun := true } s₀ [r.value.body.sketch] s'
        ∧ r.value.body.span = ⟨s₀.current.span.start, s'.edge⟩ := by
  refine Leads.consume (fun hdue => ?_) fun _ => Leads.pure h
  have hpart : Leads (unionPart config left) s.advance fun j s' =>
      Traced tokens {} { begun := true } s₀ [j.body.sketch] s'
        ∧ j.body.span = ⟨s₀.current.span.start, s'.edge⟩ := by
    refine Leads.checkHeight ?_
    have hunion : Traced tokens {} .token s₀ [left.body.sketch] s.advance := h.1.pass hdue
    refine (hunion.consume).bind fun all s h' => ?_
    refine (traces_singleQuery h'.here.placed).bind fun right s h'' => Leads.pure ?_
    have hboth := h'.trans h''.1
    have hspan : (⟨left.body.span.start, right.span.stop⟩ : Span)
        = ⟨s₀.current.span.start, s.edge⟩ := by rw [h.2, h''.2]
    refine ⟨(hboth.finish rfl).of_eq ?_, hspan⟩
    rw [hboth.span_eq rfl, ← hspan]
    rfl
  exact hpart.bind fun j s h => Leads.pure h

theorem traces_queryBody (hs : s.Placed tokens) :
    Leads (queryBody config) s fun body s' =>
      Traced tokens {} { begun := true } s [body.sketch] s' := by
  refine (traces_singleQuery hs).bind fun first s' h => ?_
  have hwhole : Leads (iterate (joinPart config) ⟨.single first, 1⟩) s' fun j s'' =>
      Traced tokens {} { begun := true } s [j.body.sketch] s''
        ∧ j.body.span = ⟨s.current.span.start, s''.edge⟩ := by
    refine Leads.iterate ⟨?_, h.2⟩ fun j s h => Traced.joinPart h
    refine (h.1.finish rfl).of_eq ?_
    rw [h.1.span_eq rfl, ← h.2]
    rfl
  exact hwhole.bind fun whole s h => Leads.pure h.1

/-! ## Queries -/

theorem traces_version (hs : s.Placed tokens) :
    Leads version s fun _ s' => s' = s ∨ Traced tokens {} .token s [] s' := by
  refine Leads.consume (fun hdue => Leads.current ?_) fun _ => Leads.pure (.inl rfl)
  have h := Traced.first hs hdue
  split
  · next hnumber => exact Leads.advance (Leads.pure (.inr (h.pass hnumber)))
  · next digits hnumber =>
    have hwritten : Token.Kind.Written (.float digits) := ⟨by simp⟩
    exact Leads.advance (Leads.pure (.inr (h.pass hnumber)))
  · exact Leads.fail

/-- A query is traced, and nothing is left behind it. -/
theorem traces_query (hs : s.Placed tokens) :
    Leads (query config) s fun q s' =>
      Traced tokens {} { begun := true } s [q.sketch] s' ∧ s'.current.kind = .eof := by
  refine Leads.startHere ?_
  refine (traces_version hs).bind fun header s₁ hversion => ?_
  have hplaced : s₁.Placed tokens := by
    rcases hversion with rfl | h
    · exact hs
    · exact h.here.placed
  refine (traces_queryBody hplaced).bind fun body s₂ hbody => ?_
  have hend : Leads endOfQuery s₂ fun _ s' => s' = s₂ ∧ s₂.current.kind = .eof := by
    refine Leads.current ?_
    split
    · next hkind => exact Leads.pure ⟨rfl, hkind⟩
    · exact Leads.fail
  refine hend.bind fun _ s' hs' => Leads.spanHere (Leads.pure ?_)
  obtain ⟨rfl, hkind⟩ := hs'
  have hwhole : Traced tokens {} { begun := true } s [body.sketch] s' := by
    rcases hversion with rfl | h
    · exact hbody
    · exact h.trans hbody
  exact ⟨hwhole.finish rfl, hkind⟩

end Grammar

/-- If there is a tree, one stretch of reading over all tokens of the text has led to it. -/
theorem Outcome.exists_traced_of_query {text : String} {config : Config} {q : Query}
    (h : (ofText text config).query = some q) :
    ∃ s, Grammar.Traced (TokenStream.ofText text).tokens {} { begun := true } (.ofText text)
        [q.sketch] s
      ∧ (ofText text config).faults = (TokenStream.ofText text).faults ++ s.faults
      ∧ s.ahead = [] := by
  unfold ofText ofTokens at h ⊢
  split at h
  · next q' s hrun =>
    cases h
    obtain ⟨htraced, hend⟩ :=
      Grammar.traces_query (Grammar.State.Placed.ofText text) _ _ hrun
    refine ⟨s, htraced, rfl, ?_⟩
    by_contra hahead
    have hmem := htraced.here.placed.current_mem hahead
    exact TokenStream.ne_eof_of_mem hmem hend
  · cases h

/-- If a text is accepted, all its tokens have been read, and all belong to the tree. -/
theorem tally_of_parse {text : String} {config : Config} {q : Query}
    (h : parse text config = .ok q) :
    Grammar.Tally (TokenStream.ofText text).tokens {} { begun := true } [q.sketch]
      (TokenStream.ofText text).tokens := by
  obtain ⟨hquery, hfaults⟩ := parse_eq_ok_iff.1 h
  obtain ⟨s, htraced, hsplit, hahead⟩ := Outcome.exists_traced_of_query hquery
  rw [hsplit] at hfaults
  obtain ⟨read, hread, htally⟩ := htraced.tally (List.append_eq_nil_iff.1 hfaults).2
  have hall : (TokenStream.ofText text).tokens = read := by
    rw [hahead, List.append_nil] at hread
    exact hread
  rwa [← hall] at htally

end Cypher
