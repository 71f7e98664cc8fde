import Cypher.Proofs.Compared.Query
import Cypher.Proofs.Outcome

/-!
# Reading without recovery

Whether the reading goes on past an operand that cannot be read makes no
difference until there is such an operand. From there on one run is over
and the other has the fault on record: the outcome without recovery is the
outcome with it, cut off behind the first fault of the grammar.
-/

namespace Cypher

namespace Grammar

/-- The run without recovery is the first one. Until it stops, the faults on
record in either are those `known` at the start. -/
def truncation (known : List Fault) : Comparison where
  view := .same
  text := id
  inStep s s' := s = s' ∧ s.faults = known
  stops fault s fault' s' := fault = fault' ∧ s.faults = known ∧ s'.faults = known
  cut fault faults faults' := faults = known ∧ known ++ [fault] <+: faults'
  cut_mono h hle := ⟨h.1, h.2.trans hle⟩

/-- Only an operand that cannot be read parts the two runs. -/
theorem truncation_lawful (known : List Fault) (limit : Nat) :
    (truncation known).Lawful ⟨limit, false⟩ ⟨limit, true⟩ where
  mono := monotone_id
  ahead h := by rw [h.1]
  current h := by rw [h.1]
  stop h := by rw [h.1]
  depth h := by rw [h.1]
  advance h := ⟨congrArg State.advance h.1, by rw [State.faults_advance, h.2]⟩
  enter h n := ⟨by rw [h.1], h.2⟩
  leave h _ _ := h
  fail {s s' cause cause'} h _ _ hcause := by
    obtain ⟨rfl, hfaults⟩ := h
    have heq : cause = cause' := by cases cause <;> cases cause' <;> exact hcause
    exact ⟨by rw [heq], hfaults, hfaults⟩
  recover := by
    refine ⟨fun {s s'} h => ?_, fun s => ?_⟩
    · obtain ⟨rfl, hfaults⟩ := h
      apply Comparison.Meets.cut
      refine ⟨hfaults, ?_⟩
      show known ++ [_] <+: reported (skipOperand s)
      rw [reported_skipOperand, hfaults]
    · show s.faults <+: reported (skipOperand s)
      rw [reported_skipOperand]
      exact List.prefix_append _ _
  limit := le_refl limit
  refused h := absurd h (lt_irrefl limit)

/-- A run with recovery that puts no fault on record is one without. -/
theorem run_unrecovered {p p' : Parser α} {f : α → β} {a : α} {s s' : State}
    (hagrees : (truncation s.faults).Agrees p p' f) (hrun : p' s = .ok a s')
    (hclean : s'.faults = s.faults) : ∃ a', p s = .ok a' s' ∧ f a' = f a := by
  have hstart : (truncation s.faults).inStep s s := ⟨rfl, rfl⟩
  have hmeets := hagrees.meets hstart
  rw [hrun] at hmeets
  generalize hfirst : p s = first at hmeets
  cases hmeets with
  | ok answer states =>
    obtain ⟨rfl, -⟩ := states
    exact ⟨_, rfl, answer⟩
  | @cut fault s₁ _ faults =>
    obtain ⟨-, hprefix⟩ := faults
    have hle := hprefix.length_le
    rw [show reported (.ok a s') = s.faults from hclean, List.length_append] at hle
    exact absurd hle (Nat.not_succ_le_self _)

end Grammar

/-- Without recovery the outcome is the one with recovery if the grammar finds
no fault, and otherwise stops at the first fault that it finds. -/
theorem Outcome.ofTokens_truncated (stream : TokenStream) (limit : Nat) :
    ∃ grammatical,
      (Outcome.ofTokens stream ⟨limit, true⟩).faults = stream.faults ++ grammatical
      ∧ Outcome.ofTokens stream ⟨limit, false⟩ = match grammatical with
        | [] => Outcome.ofTokens stream ⟨limit, true⟩
        | first :: _ => ⟨none, stream.faults ++ [first]⟩ := by
  have hlaw := Grammar.truncation_lawful [] limit
  have hstart : (Grammar.truncation []).inStep ⟨none, stream.tokens, stream.eof, 0, []⟩
      ⟨none, stream.tokens, stream.eof, 0, []⟩ := ⟨rfl, rfl⟩
  have hmeets := (Grammar.Comparison.Agrees.query hlaw fun h => absurd h (lt_irrefl _)).meets hstart
  unfold Outcome.ofTokens
  generalize Grammar.query ⟨limit, false⟩ _ = off, Grammar.query ⟨limit, true⟩ _ = on at hmeets
  cases hmeets with
  | @ok q q' s s' answer states =>
    obtain ⟨rfl, hfaults⟩ := states
    have heq : q = q' := by
      rwa [Grammar.truncation, Query.recast_same, Query.recast_same] at answer
    exact ⟨[], by simp [hfaults], by simp [hfaults, heq]⟩
  | @error fault fault' s s' faults =>
    obtain ⟨rfl, hfaults, hfaults'⟩ := faults
    exact ⟨[fault], by simp [hfaults'], by simp [hfaults]⟩
  | @cut fault s r faults =>
    obtain ⟨hfaults, more, hmore⟩ := faults
    refine ⟨fault :: more, ?_, by simp [hfaults]⟩
    rw [List.nil_append] at hmore
    rw [← List.singleton_append, hmore]
    cases on with
    | ok q s' => rfl
    | error fault' s' => exact List.append_assoc _ _ _

/-- Recovery only adds to an outcome. If the grammar finds no fault in a text, the
outcome without recovery is the outcome with it. Otherwise there is no tree, and
on record are the lexical faults and the first fault that the grammar finds. So
the accepted texts and their trees do not depend on recovery. -/
theorem Outcome.ofText_truncated (text : String) (limit : Nat) :
    ∃ grammatical,
      (Outcome.ofText text ⟨limit, true⟩).faults
        = (TokenStream.ofText text).faults ++ grammatical
      ∧ (grammatical = [] →
        Outcome.ofText text ⟨limit, false⟩ = Outcome.ofText text ⟨limit, true⟩)
      ∧ (∀ first more, grammatical = first :: more →
        Outcome.ofText text ⟨limit, false⟩
          = ⟨none, (TokenStream.ofText text).faults ++ [first]⟩)
      ∧ ∀ q, parse text ⟨limit, false⟩ = .ok q ↔ parse text ⟨limit, true⟩ = .ok q := by
  obtain ⟨grammatical, hon, hoff⟩ := Outcome.ofTokens_truncated (TokenStream.ofText text) limit
  refine ⟨grammatical, hon, ?_, ?_, fun q => ?_⟩
  · rintro rfl
    exact hoff
  · rintro first more rfl
    exact hoff
  · rw [parse_eq_ok_iff, parse_eq_ok_iff]
    unfold Outcome.ofText
    cases grammatical with
    | nil => rw [hoff]
    | cons first more =>
      rw [hoff, hon]
      simp

end Cypher
