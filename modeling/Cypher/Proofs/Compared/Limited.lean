import Cypher.Proofs.Compared.Orderly

/-!
# Reading within a lower limit

Two readings of one text that differ in their nesting limits run alike until
the lower limit is met. There the first of them is over, with a fault that
says so, and the other goes on. So a limit that is not met is not to be seen
in the outcome, and one that is met cuts the outcome short.
-/

namespace Cypher

namespace Grammar

/-- The run with the lower limit is the first one. -/
def limitation (limit : Nat) : Comparison where
  view := .same
  text := id
  inStep s s' := s = s'
  stops fault s fault' s' := fault = fault' ∧ s.faults = s'.faults
  cut fault faults faults' := fault.cause = .nestingTooDeep limit ∧ faults <+: faults'
  cut_mono h hle := ⟨h.1, h.2.trans hle⟩

/-- Only the lower limit parts the two runs, wherever it is met. -/
theorem limitation_lawful (recover : Bool) {limit limit' : Nat} (hle : limit ≤ limit') :
    (limitation limit).Lawful ⟨limit, recover⟩ ⟨limit', recover⟩ where
  mono := monotone_id
  ahead h := by rw [show _ = _ from h]
  current h := by rw [show _ = _ from h]
  stop h := by rw [show _ = _ from h]
  depth h := by rw [show _ = _ from h]
  advance h := congrArg State.advance h
  enter h n := by rw [show _ = _ from h]; rfl
  leave h _ _ := h
  fail {s s' cause cause'} h _ _ hcause := by
    obtain rfl : s = s' := h
    have heq : cause = cause' := by cases cause <;> cases cause' <;> exact hcause
    exact ⟨by rw [heq], rfl⟩
  recover := by
    cases recover with
    | true =>
      refine ⟨fun {s s'} h => ?_, fun s => ?_⟩
      · obtain rfl : s = s' := h
        exact .ok rfl rfl
      · show s.faults <+: reported (skipOperand s)
        rw [reported_skipOperand]
        exact List.prefix_append _ _
    | false =>
      refine ⟨fun {s s'} h => ?_, .fail _⟩
      obtain rfl : s = s' := h
      exact .error ⟨rfl, rfl⟩
  limit := hle
  refused _ {s s' r} h hfaults := by
    obtain rfl : s = s' := h
    exact ⟨rfl, hfaults⟩

/-- Reading an expression forgets no fault. -/
theorem grows_expressionWithin (config : Config) (room : Nat) :
    Grows (expressionWithin config room) :=
  (Comparison.Agrees.expressionWithin (orderliness_lawful config)
    (fun h => absurd h (Nat.lt_irrefl _)) (Nat.le_refl room) fun _ => rfl).grows

end Grammar

namespace Outcome

/-- The outcome is the one with the higher limit; or the lower limit has been
met, behind faults that the higher one does not change. -/
theorem ofTokens_limited (stream : TokenStream) (recover : Bool) {limit limit' : Nat}
    (hle : limit ≤ limit') :
    ofTokens stream ⟨limit', recover⟩ = ofTokens stream ⟨limit, recover⟩
      ∨ ∃ before fault, ofTokens stream ⟨limit, recover⟩ = ⟨none, before ++ [fault]⟩
        ∧ fault.cause = .nestingTooDeep limit
        ∧ before <+: (ofTokens stream ⟨limit', recover⟩).faults := by
  have hlaw := Grammar.limitation_lawful recover hle
  have hstart : (Grammar.limitation limit).inStep ⟨none, stream.tokens, stream.eof, 0, []⟩
      ⟨none, stream.tokens, stream.eof, 0, []⟩ := rfl
  have hmeets := (Grammar.Comparison.Agrees.query hlaw
    fun _ => Grammar.grows_expressionWithin _).meets hstart
  unfold ofTokens
  generalize Grammar.query ⟨limit, recover⟩ _ = low, Grammar.query ⟨limit', recover⟩ _ = high
    at hmeets
  cases hmeets with
  | @ok q q' s s' answer states =>
    have hfaults : s = s' := states
    have hquery : q = q' := by
      rwa [Grammar.limitation, Query.recast_same, Query.recast_same] at answer
    left
    rw [hfaults, hquery]
  | @error fault fault' s s' faults =>
    obtain ⟨rfl, hfaults⟩ := faults
    left
    simp only [hfaults]
  | @cut fault s r faults =>
    obtain ⟨hcause, hprefix⟩ := faults
    right
    refine ⟨stream.faults ++ s.faults, fault, rfl, hcause, ?_⟩
    cases high with
    | ok q s' => exact (List.prefix_append_right_inj _).2 hprefix
    | error fault' s' =>
      show stream.faults ++ s.faults <+: stream.faults ++ s'.faults ++ [fault']
      rw [List.append_assoc]
      exact (List.prefix_append_right_inj _).2 hprefix

/-- Where the limit has been met there is no tree, and nothing is reported
behind that. -/
theorem eq_append_of_nestingTooDeep {text : String} {config : Config} {f : Fault}
    (hf : f ∈ (ofText text config).faults) (hcode : f.cause.code = "P006") :
    ∃ before, ofText text config = ⟨none, before ++ [f]⟩
      ∧ ∀ g ∈ before, g.cause.code ≠ "P006" := by
  have hlexical : ∀ g ∈ (TokenStream.ofText text).faults, g.cause.code ≠ "P006" := by
    intro g hg heq
    rcases TokenStream.code_of_mem_faults hg with h | h
    · rw [h] at heq
      exact absurd heq (by decide)
    · rw [h] at heq
      exact absurd heq (by decide)
  have hrecovered {s : Grammar.State} (hs : ∀ g ∈ s.faults, g.Recovered config) :
      ∀ g ∈ (TokenStream.ofText text).faults ++ s.faults, g.cause.code ≠ "P006" := by
    intro g hg heq
    rcases List.mem_append.1 hg with hg | hg
    · exact hlexical g hg heq
    · rw [(hs g hg).1] at heq
      exact absurd heq (by decide)
  unfold ofText ofTokens at hf ⊢
  rcases Grammar.orderly_query (Grammar.State.Orderly.ofText text config) with
    ⟨q, s, hrun, hs⟩ | ⟨fault, s, hrun, hs⟩
  · rw [hrun] at hf
    exact absurd hcode (hrecovered hs.recovered f hf)
  · rw [hrun] at hf ⊢
    rcases List.mem_append.1 hf with hf | hf
    · exact absurd hcode (hrecovered hs.recovered f hf)
    · obtain rfl := List.mem_singleton.1 hf
      exact ⟨_, rfl, hrecovered hs.recovered⟩

/-- Where the limit has not been met, a higher one makes no difference. -/
theorem ofText_of_unmet {text : String} {recover : Bool} {limit limit' : Nat} (hle : limit ≤ limit')
    (hunmet : ∀ d ∈ (ofText text ⟨limit, recover⟩).diagnostics, d.code ≠ some "P006") :
    ofText text ⟨limit', recover⟩ = ofText text ⟨limit, recover⟩ := by
  rcases ofTokens_limited (TokenStream.ofText text) recover hle with
    heq | ⟨before, fault, hcut, hcause, -⟩
  · exact heq
  · have hmem : fault ∈ (ofText text ⟨limit, recover⟩).faults := by
      unfold ofText
      rw [hcut]
      exact List.mem_append_right _ (List.mem_singleton_self _)
    have hcode : fault.diagnostic.code = some "P006" := by
      show some fault.cause.code = _
      rw [hcause]
      rfl
    exact absurd hcode (hunmet _ (List.mem_map_of_mem hmem))

/-- The nesting limit is not to be seen in an outcome unless it has been met: a
higher limit leads to the same tree and the same diagnostics. Where it has been met,
that is the last thing reported, there is no tree, and what is reported before comes
first under every higher limit as well. -/
theorem ofText_limited (text : String) (recover : Bool) {limit limit' : Nat}
    (hle : limit ≤ limit') :
    ((∀ d ∈ (ofText text ⟨limit, recover⟩).diagnostics, d.code ≠ some "P006") →
      ofText text ⟨limit', recover⟩ = ofText text ⟨limit, recover⟩)
      ∧ ∀ d ∈ (ofText text ⟨limit, recover⟩).diagnostics, d.code = some "P006" →
        (ofText text ⟨limit, recover⟩).query = none
          ∧ ∃ before, (ofText text ⟨limit, recover⟩).diagnostics = before ++ [d]
            ∧ (∀ e ∈ before, e.code ≠ some "P006")
            ∧ before <+: (ofText text ⟨limit', recover⟩).diagnostics := by
  have hlimited := ofTokens_limited (TokenStream.ofText text) recover hle
  refine ⟨ofText_of_unmet hle, fun d hd hcode => ?_⟩
  obtain ⟨f, hf, rfl⟩ := List.mem_map.1 hd
  obtain ⟨before, hlow, hbefore⟩ := eq_append_of_nestingTooDeep hf (Option.some.inj hcode)
  have hprefix : before <+: (ofText text ⟨limit', recover⟩).faults := by
    rcases hlimited with heq | ⟨before', fault, hcut, -, hprefix⟩
    · have hsame : ofText text ⟨limit', recover⟩ = ⟨none, before ++ [f]⟩ := heq.trans hlow
      rw [hsame]
      exact List.prefix_append _ _
    · have hsame := hcut.symm.trans hlow
      obtain ⟨rfl, -⟩ := List.append_inj' (Outcome.mk.inj hsame).2 rfl
      exact hprefix
  rw [hlow]
  refine ⟨rfl, before.map Fault.diagnostic, List.map_append, fun e he => ?_,
    hprefix.map Fault.diagnostic⟩
  obtain ⟨g, hg, rfl⟩ := List.mem_map.1 he
  exact fun h => hbefore g hg (Option.some.inj h)

/-- An operand is missing, and the parentheses behind it nest four levels deep. -/
private def deepBehindMissing : String := "RETURN [, 1], ((((2))))"

theorem ofText_limited_deepBehindMissing :
    4 ≤ 8 ∧ ∃ before d, (ofText deepBehindMissing ⟨4, true⟩).diagnostics = before ++ [d]
      ∧ d.code = some "P006" ∧ before.length = 1
      ∧ before <+: (ofText deepBehindMissing ⟨8, true⟩).diagnostics := by
  have hle : 4 ≤ 8 := by decide
  have hdeep : ((ofText deepBehindMissing ⟨4, true⟩).diagnostics.any
      fun d => d.code = some "P006") = true := by decide +kernel
  have hlength : (ofText deepBehindMissing ⟨4, true⟩).diagnostics.length = 2 := by decide +kernel
  obtain ⟨d, hd, hcode⟩ := List.any_eq_true.1 hdeep
  rw [decide_eq_true_iff] at hcode
  obtain ⟨-, before, hbefore, -, hprefix⟩ :=
    (ofText_limited deepBehindMissing true hle).2 d hd hcode
  refine ⟨hle, before, d, hbefore, hcode, ?_, hprefix⟩
  rw [hbefore, List.length_append] at hlength
  exact Nat.succ.inj hlength

end Outcome

end Cypher
