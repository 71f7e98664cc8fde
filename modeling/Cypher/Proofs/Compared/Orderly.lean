import Cypher.Proofs.Compared.Query
import Cypher.Proofs.Lexing.Order
import Cypher.Proofs.Outcome

/-!
# What a reading reports

A comparison of a run with itself is an invariant. The one here is about
the faults on record: each is an operand that was got over, they stand in
the order of the text, and none lies behind the token due next. The fault
that ends a run is of another kind, and lies behind them all.
-/

namespace Cypher

/-- One fault does not start behind the other. -/
def Fault.Precedes (f g : Fault) : Prop := f.site.span.start ≤ g.site.span.start

/-- The fault is an operand that was got over. -/
def Fault.Recovered (config : Config) (f : Fault) : Prop :=
  f.cause = .expectedExpression ∧ config.recover = true

/-- The fault is one that ends a reading. -/
def Fault.Aborting (config : Config) (f : Fault) : Prop :=
  f.cause.Final ∨ f.cause = .expectedExpression ∧ config.recover = false

namespace Grammar

/-- The faults on record have been got over, in the order of the text, and
the reading has come past them. -/
structure State.Orderly (config : Config) (s : State) : Prop where
  tokens : (s.ahead ++ [s.eof]).Pairwise fun t u => t.span.start ≤ u.span.start
  recovered : ∀ f ∈ s.faults, f.Recovered config
  ordered : s.faults.Pairwise Fault.Precedes
  behind : ∀ f ∈ s.faults, f.site.span.start ≤ s.current.span.start

namespace State.Orderly

variable {config : Config} {s : State}

/-- Reading on does not lead back. -/
theorem current_le_advance (h : s.Orderly config) :
    s.current.span.start ≤ s.advance.current.span.start := by
  have htokens := h.tokens
  unfold State.current State.advance
  cases hahead : s.ahead with
  | nil => simp only [hahead]; exact Nat.le_refl _
  | cons t rest =>
    rw [hahead, List.cons_append, List.pairwise_cons] at htokens
    apply htokens.1
    cases rest with
    | nil => exact List.mem_singleton_self _
    | cons u rest => exact List.mem_cons_self

theorem advance (h : s.Orderly config) : s.advance.Orderly config := by
  have hle := h.current_le_advance
  have htokens := h.tokens
  refine ⟨?_, ?_, ?_, fun f hf => ?_⟩
  · unfold State.advance
    cases hahead : s.ahead with
    | nil =>
      rw [hahead] at htokens
      simpa only [hahead] using htokens
    | cons t rest =>
      rw [hahead] at htokens
      exact (List.pairwise_cons.1 htokens).2
  · rw [State.faults_advance]
    exact h.recovered
  · rw [State.faults_advance]
    exact h.ordered
  · rw [State.faults_advance] at hf
    exact (h.behind f hf).trans hle

theorem advanceBy (n : Nat) (h : s.Orderly config) : (s.advanceBy n).Orderly config := by
  induction n generalizing s with
  | zero => exact h
  | succ n ih => exact ih h.advance

/-- A fault at the token due next stands behind all that are on record. -/
theorem pairwise_append (h : s.Orderly config) (cause : Cause) :
    (s.faults ++ [(⟨cause, s.current.site⟩ : Fault)]).Pairwise Fault.Precedes := by
  rw [List.pairwise_append]
  refine ⟨h.ordered, List.pairwise_singleton _ _, fun f hf g hg => ?_⟩
  rw [List.mem_singleton.1 hg]
  exact h.behind f hf

/-- Getting over an operand leaves the record in order. -/
theorem record (h : s.Orderly config) (hrecover : config.recover = true) :
    State.Orderly config
      { s with faults := s.faults ++ [⟨.expectedExpression, s.current.site⟩] } := by
  refine ⟨h.tokens, fun f hf => ?_, h.pairwise_append _, fun f hf => ?_⟩
  · rcases List.mem_append.1 hf with hf | hf
    · exact h.recovered f hf
    · rw [List.mem_singleton.1 hf]
      exact ⟨rfl, hrecover⟩
  · rcases List.mem_append.1 hf with hf | hf
    · exact h.behind f hf
    · rw [List.mem_singleton.1 hf]
      exact Nat.le_refl _

end State.Orderly

/-- A run has ended in a fault that comes last. -/
structure Stopped (config : Config) (fault : Fault) (faults : List Fault) : Prop where
  aborting : fault.Aborting config
  recovered : ∀ f ∈ faults, f.Recovered config
  ordered : (faults ++ [fault]).Pairwise Fault.Precedes

theorem State.Orderly.stopped {config : Config} {s : State} (h : s.Orderly config)
    {cause : Cause} (hcause : (⟨cause, s.current.site⟩ : Fault).Aborting config) :
    Stopped config ⟨cause, s.current.site⟩ s.faults :=
  ⟨hcause, h.recovered, h.pairwise_append cause⟩

/-- A run compared with itself. -/
def orderliness (config : Config) : Comparison where
  view := .same
  text := id
  inStep s s' := s = s' ∧ s.Orderly config
  stops fault s fault' s' :=
    fault = fault' ∧ s.faults = s'.faults ∧ Stopped config fault s.faults
  cut _ _ _ := False
  cut_mono h _ := h

/-- The record stays in order whatever is read. -/
theorem orderliness_lawful (config : Config) : (orderliness config).Lawful config config where
  mono := monotone_id
  ahead h := by rw [h.1]
  current h := by rw [h.1]
  stop h := by rw [h.1]
  depth h := by rw [h.1]
  advance h := ⟨congrArg State.advance h.1, h.2.advance⟩
  enter h n := ⟨by rw [h.1], h.2.tokens, h.2.recovered, h.2.ordered, h.2.behind⟩
  leave h _ _ := h
  fail {s s' cause cause'} h hfinal _ hcause := by
    obtain ⟨rfl, horderly⟩ := h
    have heq : cause = cause' := by cases cause <;> cases cause' <;> exact hcause
    exact ⟨by rw [heq], rfl, horderly.stopped (.inl hfinal)⟩
  recover := by
    cases hrecover : config.recover with
    | true =>
      have hskip : recoverExpression config = skipOperand := if_pos hrecover
      rw [hskip]
      refine ⟨fun {s s'} h => ?_, fun s => ?_⟩
      · obtain ⟨rfl, horderly⟩ := h
        exact .ok rfl ⟨rfl, (horderly.record hrecover).advanceBy _⟩
      · rw [reported_skipOperand]
        exact List.prefix_append _ _
    | false =>
      have hfail : recoverExpression config = fail .expectedExpression :=
        if_neg (by rw [hrecover]; exact Bool.false_ne_true)
      rw [hfail]
      refine ⟨fun {s s'} h => ?_, .fail _⟩
      obtain ⟨rfl, horderly⟩ := h
      exact .error ⟨rfl, rfl, horderly.stopped (.inr ⟨rfl, hrecover⟩)⟩
  limit := Nat.le_refl _
  refused h := absurd h (Nat.lt_irrefl _)

/-- What is on record when the reading of a query is over. -/
theorem orderly_query {config : Config} {s : State} (h : s.Orderly config) :
    (∃ q s', query config s = .ok q s' ∧ s'.Orderly config)
      ∨ ∃ fault s', query config s = .error fault s' ∧ Stopped config fault s'.faults := by
  have hstart : (orderliness config).inStep s s := ⟨rfl, h⟩
  have hmeets := (Comparison.Agrees.query (orderliness_lawful config)
    fun h => absurd h (Nat.lt_irrefl _)).meets hstart
  cases hrun : query config s with
  | ok q s' =>
    rw [hrun] at hmeets
    cases hmeets with
    | ok answer states => exact .inl ⟨q, s', rfl, states.2⟩
  | error fault s' =>
    rw [hrun] at hmeets
    cases hmeets with
    | error faults => exact .inr ⟨fault, s', rfl, faults.2.2⟩
    | cut faults => exact faults.elim

/-- The reading of a text starts with nothing on record. -/
theorem State.Orderly.ofText (text : String) (config : Config) :
    State.Orderly config ⟨none, (TokenStream.ofText text).tokens, (TokenStream.ofText text).eof,
      0, []⟩ :=
  ⟨TokenStream.pairwise_start_tokens text.toList, List.forall_mem_nil _, .nil,
    List.forall_mem_nil _⟩

end Grammar

/-! ## Outcomes -/

namespace Diagnostic

/-- The diagnostic is about a lexeme. -/
def OfLexeme (d : Diagnostic) : Prop := d.code = some "L001" ∨ d.code = some "L002"

/-- The diagnostic is about an operand that was got over. -/
def OfRecovered (config : Config) (d : Diagnostic) : Prop :=
  d.code = some "P001" ∧ config.recover = true

/-- The diagnostic is about what ended the reading. -/
def OfAborting (config : Config) (d : Diagnostic) : Prop :=
  d.code ∈ [some "P002", some "P003", some "P004", some "P005", some "P006"]
    ∨ d.code = some "P001" ∧ config.recover = false

/-- One diagnostic's primary label does not start behind the other's. -/
def Precedes (d e : Diagnostic) : Prop :=
  ∃ s t, d.primarySpan? = some s ∧ e.primarySpan? = some t ∧ s.start ≤ t.start

end Diagnostic

namespace Fault

variable {config : Config} {f g : Fault}

theorem Recovered.diagnostic (h : f.Recovered config) : f.diagnostic.OfRecovered config := by
  refine ⟨?_, h.2⟩
  show some f.cause.code = _
  rw [h.1]
  rfl

theorem Aborting.diagnostic (h : f.Aborting config) : f.diagnostic.OfAborting config := by
  rcases h with hfinal | ⟨hcause, hrecover⟩
  · left
    show some f.cause.code ∈ _
    cases hcause : f.cause <;> rw [hcause] at hfinal <;>
      first | exact hfinal.elim | simp [Cause.code]
  · right
    refine ⟨?_, hrecover⟩
    show some f.cause.code = _
    rw [hcause]
    rfl

theorem Precedes.diagnostic (h : f.Precedes g) : f.diagnostic.Precedes g.diagnostic :=
  ⟨_, _, rfl, rfl, h⟩

end Fault

/-- What the diagnostics of an outcome tell about it: those of the lexemes come first,
then those of the grammar, and the last one tells why there is no tree, if
there is none. -/
structure Outcome.Consistent (o : Outcome) (config : Config)
    (lexical grammatical : List Diagnostic) : Prop where
  parts : o.diagnostics = lexical ++ grammatical
  errors : ∀ d ∈ o.diagnostics, d.severity = .error
  lexemes : ∀ d ∈ lexical, d.OfLexeme
  read : ∀ q, o.query = some q → ∀ d ∈ grammatical, d.OfRecovered config
  aborted : o.query = none → ∃ recovered last, grammatical = recovered ++ [last]
    ∧ (∀ d ∈ recovered, d.OfRecovered config) ∧ last.OfAborting config
  lexicalOrder : lexical.Pairwise Diagnostic.Precedes
  grammaticalOrder : grammatical.Pairwise Diagnostic.Precedes

/-- Every outcome is consistent, and a text is accepted exactly when there is a
tree and nothing to report. -/
theorem Outcome.consistent_ofText (text : String) (config : Config) :
    (∃ grammatical, (Outcome.ofText text config).Consistent config
        (TokenStream.ofText text).diagnostics grammatical)
      ∧ ((∃ q, parse text config = .ok q) ↔
        (Outcome.ofText text config).query.isSome
          ∧ (Outcome.ofText text config).diagnostics = []) := by
  have horderly := Grammar.State.Orderly.ofText text config
  have hlexemes : ∀ d ∈ (TokenStream.ofText text).diagnostics, d.OfLexeme := by
    intro d hd
    obtain ⟨f, hf, rfl⟩ := List.mem_map.1 hd
    rcases TokenStream.code_of_mem_faults hf with hcode | hcode
    · exact .inl (congrArg some hcode)
    · exact .inr (congrArg some hcode)
  have hlexical : (TokenStream.ofText text).diagnostics.Pairwise Diagnostic.Precedes := by
    unfold TokenStream.diagnostics
    rw [List.pairwise_map]
    exact (TokenStream.pairwise_start_faults text.toList).imp Fault.Precedes.diagnostic
  refine ⟨?_, ?_⟩
  · unfold Outcome.ofText Outcome.ofTokens
    rcases Grammar.orderly_query horderly with ⟨q, s, hrun, hs⟩ | ⟨fault, s, hrun, hs⟩
    · rw [hrun]
      refine ⟨s.faults.map Fault.diagnostic, List.map_append, ?_, hlexemes, ?_, nofun,
        hlexical, ?_⟩
      · intro d hd
        obtain ⟨f, -, rfl⟩ := List.mem_map.1 hd
        rfl
      · intro q' _ d hd
        obtain ⟨f, hf, rfl⟩ := List.mem_map.1 hd
        exact (hs.recovered f hf).diagnostic
      · rw [List.pairwise_map]
        exact hs.ordered.imp Fault.Precedes.diagnostic
    · rw [hrun]
      refine ⟨(s.faults ++ [fault]).map Fault.diagnostic, ?_, ?_, hlexemes, nofun, ?_,
        hlexical, ?_⟩
      · simp [Outcome.diagnostics, TokenStream.diagnostics]
      · intro d hd
        obtain ⟨f, -, rfl⟩ := List.mem_map.1 hd
        rfl
      · intro _
        refine ⟨s.faults.map Fault.diagnostic, fault.diagnostic, List.map_append, ?_,
          hs.aborting.diagnostic⟩
        intro d hd
        obtain ⟨f, hf, rfl⟩ := List.mem_map.1 hd
        exact (hs.recovered f hf).diagnostic
      · rw [List.pairwise_map]
        exact hs.ordered.imp Fault.Precedes.diagnostic
  · simp only [parse_eq_ok_iff, Outcome.diagnostics, List.map_eq_nil_iff, exists_and_right,
      Option.isSome_iff_exists]

end Cypher
