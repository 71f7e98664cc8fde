import Cypher.Proofs.Closed.Sited
import Cypher.Proofs.Leaves.Query
import Cypher.Proofs.Lexing.Accounted

/-!
# What a diagnostic points at

The place of a diagnostic is said four times over: by its labels, its line
and its lexeme, and by the text that a reader finds there. They agree. The
lexical faults lie at their lexemes and the others at tokens, and both stand
in the text where they say.
-/

namespace Cypher

open Grammar (Config)

/-- A span inside a text is left alone when it is cut to the text. -/
theorem Span.clamp_eq_self {s : Span} {limit : Nat} (hle : s.start ≤ s.stop)
    (hlimit : s.stop ≤ limit) : s.clamp limit = s := by
  have hstart : min s.start limit = s.start := by omega
  have hstop : max (min s.stop limit) s.start = s.stop := by omega
  rw [clamp, hstart, hstop]

/-- The diagnostic points at the span of the text, and all that it says of the place is
true of it. -/
structure Diagnostic.Points (text : String) (d : Diagnostic) (s : Span) : Prop where
  primary : ∃ message rest, d.labels = ⟨s, message, .primary⟩ :: rest
    ∧ ∀ label ∈ rest, label.role = .secondary
  bounds : ∀ label ∈ d.labels, Text.Bounds text.toList label.span
  clamped : ∀ label ∈ d.labels, ({ content := text } : Source).clamp label.span = label.span
  line : d.line = some (Text.lineAt text.toList s.start)
  absent : d.lexeme = none ↔ s = (TokenStream.eofOf text.toList).span
  whole : d.code ≠ some "L002" → ∀ lexeme ∈ d.lexeme, lexeme.toList = Text.slice text.toList s
  opener : d.code = some "L002" →
    ∃ c ∈ (Text.slice text.toList s).head?, d.lexeme = some (String.singleton c)
  previous : d.code = some "P004" → ∃ label t, d.labels.tail = [label]
    ∧ t ∈ (TokenStream.ofText text).tokens ∧ t.Compares ∧ label.span = t.span
    ∧ label.span.start < label.span.stop ∧ label.span.stop ≤ s.start

namespace Fault

variable {text : List Char} {f : Fault}

/-- Only one cause has the code of comparisons in a row. -/
theorem exists_of_code (h : f.cause.code = "P004") :
    ∃ previous span, f.cause = .chainedComparison previous span := by
  cases hcause : f.cause with
  | chainedComparison previous span => exact ⟨previous, span, rfl⟩
  | _ => simp [hcause, Cause.code] at h

theorem code_of_grammatical (h : f.cause.Grammatical) :
    f.cause.code ≠ "L001" ∧ f.cause.code ≠ "L002" := by
  cases hcause : f.cause with
  | illegalCharacter c =>
    rw [hcause] at h
    exact h.elim
  | unclosed what =>
    rw [hcause] at h
    exact h.elim
  | _ => simp [Cause.code]

/-- The labels of a fault are its own, and one of another token where there is one. -/
theorem labels_diagnostic (f : Fault) :
    f.diagnostic.labels = [⟨f.site.span, f.remark, .primary⟩]
      ∨ ∃ previous span, f.cause = .chainedComparison previous span
        ∧ f.diagnostic.labels = [⟨f.site.span, f.remark, .primary⟩,
          ⟨span, "previous comparison", .secondary⟩] := by
  cases hcause : f.cause with
  | chainedComparison previous span =>
    refine .inr ⟨previous, span, rfl, ?_⟩
    rw [diagnostic, relatedLabels, hcause]
  | _ =>
    left
    rw [diagnostic, relatedLabels, hcause]

end Fault

namespace TokenStream

variable {text : List Char} {t u : Token}

/-- The fault of a lexeme lies at the lexeme, and names an illegal character whole
and of anything else the first character. -/
theorem lexeme_of_mem_faults {f : Fault} (h : f ∈ (ofChars text).faults) :
    ∃ l ∈ Lexeme.ofText text, f.site = ⟨l.span, l.line, some (String.ofList (l.text.take 1))⟩
      ∧ (f.cause.code = "L001" → l.text.take 1 = l.text) := by
  obtain ⟨l, hl, hfault⟩ := List.mem_filterMap.1 h
  obtain ⟨cause, hcause, rfl⟩ := Option.map_eq_some_iff.1 hfault
  refine ⟨l, hl, rfl, fun hcode => ?_⟩
  unfold Lexeme.cause? at hcause
  split at hcause
  · next hform =>
    obtain ⟨c, hpiece, -⟩ := Lexeme.exists_char hl (.inr hform)
    rw [hpiece]
    rfl
  all_goals cases hcause <;> simp [Cause.code] at hcode

/-- A token of the list stops before all that stand behind it start, and before the end of
the text. -/
theorem stop_le_start_of_suffix {rest : List Token}
    (h : (t :: rest) <:+ (ofChars text).tokens) (hu : u ∈ rest ++ [(ofChars text).eof]) :
    t.span.stop ≤ u.span.start := by
  rcases List.mem_append.1 hu with hmem | hmem
  · have hpairs := (apart_tokens text).apart.sublist h.sublist
    exact (List.pairwise_cons.1 hpairs).1 u hmem
  · rw [List.mem_singleton.1 hmem]
    exact stop_le_of_mem (h.mem List.mem_cons_self)

/-- Every token stands where it says, and so does the end of the text. -/
theorem stands_of_mem_toList (h : u ∈ (ofChars text).toList) :
    Text.Stands text u.text.toList u.span u.line := by
  rcases List.mem_append.1 h with hmem | hmem
  · exact stands_of_mem hmem
  · rw [List.mem_singleton.1 hmem]
    exact stands_eof text

/-- Only the end of the text has no bytes, and it is what no lexeme is named for. -/
theorem lexeme_site_eq_none_iff (h : u ∈ (ofChars text).toList) :
    u.site.lexeme = none ↔ u.span = (eofOf text).span := by
  rcases List.mem_append.1 h with hmem | hmem
  · have hlexeme : u.site.lexeme = some u.text := if_neg (ne_eof_of_mem hmem)
    have hlt := (apart_tokens text).nonempty u hmem
    rw [hlexeme]
    refine ⟨nofun, fun hspan => ?_⟩
    rw [hspan] at hlt
    exact absurd hlt (Nat.lt_irrefl _)
  · rw [List.mem_singleton.1 hmem]
    exact ⟨fun _ => rfl, fun _ => rfl⟩

end TokenStream

theorem Token.text_of_lexeme {t : Token} {lexeme : String} (h : t.site.lexeme = some lexeme) :
    lexeme = t.text := by
  unfold Token.site at h
  split at h
  · cases h
  · exact (Option.some.inj h).symm

/-- The comparison in front of the one that is reported is a token that stops before it. -/
theorem Fault.Sited.exists_previous {text : List Char} {f : Fault} {previous : String}
    {span : Span} (h : f.Sited (TokenStream.ofChars text))
    (hcause : f.cause = .chainedComparison previous span) :
    ∃ t ∈ (TokenStream.ofChars text).tokens, t.Compares ∧ span = t.span
      ∧ t.span.stop ≤ f.site.span.start := by
  obtain ⟨t, rest, u, htokens, hu, hsite, hcompares, -, hspan⟩ := h.previous previous span hcause
  have hle := TokenStream.stop_le_start_of_suffix htokens hu
  exact ⟨t, htokens.mem List.mem_cons_self, hcompares, hspan, by rw [hsite]; exact hle⟩

namespace Diagnostic

variable {text : String}

/-- What a span inside the text tells of every label: cutting it to the text changes
nothing. -/
theorem clamp_of_bounds {s : Span} (h : Text.Bounds text.toList s) :
    ({ content := text } : Source).clamp s = s :=
  Span.clamp_eq_self h.ordered h.stop.le

/-- A fault of a lexeme points at the lexeme. -/
theorem points_of_lexeme {f : Fault} (h : f ∈ (TokenStream.ofText text).faults) :
    f.diagnostic.Points text f.site.span := by
  obtain ⟨l, hl, hsite, hwhole⟩ := TokenStream.lexeme_of_mem_faults h
  have hstands : Text.Stands text.toList l.text f.site.span f.site.line := by
    rw [hsite]
    exact Lexeme.stands hl
  have hlabels : f.diagnostic.labels = [⟨f.site.span, f.remark, .primary⟩] := by
    rcases f.labels_diagnostic with hone | ⟨previous, span, hcause, -⟩
    · exact hone
    · rcases TokenStream.code_of_mem_faults h with hcode | hcode <;>
        simp [hcause, Cause.code] at hcode
  have hcode : f.cause.code = "L001" ∨ f.cause.code = "L002" := TokenStream.code_of_mem_faults h
  have hlexeme : f.diagnostic.lexeme = some (String.ofList (l.text.take 1)) := by
    show f.site.lexeme = _
    rw [hsite]
  constructor
  · exact ⟨_, [], hlabels, List.forall_mem_nil _⟩
  · rw [hlabels]
    exact List.forall_mem_singleton.2 hstands.bounds
  · rw [hlabels]
    exact List.forall_mem_singleton.2 (clamp_of_bounds hstands.bounds)
  · exact congrArg some hstands.line_eq
  · -- A lexeme holds a character, so it never lies at the end of the text.
    rw [hlexeme]
    refine ⟨nofun, fun hend => ?_⟩
    have hlt := Lexeme.start_lt_stop_of_mem_cut hl
    have hspan : l.span = f.site.span := by rw [hsite]
    rw [hend] at hspan
    obtain ⟨hstart, hstop⟩ := Span.mk.inj hspan
    unfold Lexeme.stop at hlt
    omega
  · intro hne lexeme hmem
    rw [hlexeme] at hmem
    cases hmem
    rw [hstands.slice_eq, String.toList_ofList]
    rcases hcode with hfirst | hsecond
    · exact hwhole hfirst
    · exact absurd (congrArg some hsecond) hne
  · intro _
    rw [hstands.slice_eq, hlexeme]
    cases hpiece : l.text with
    | nil => exact absurd hpiece (Lexeme.text_ne_nil hl)
    | cons c cs => exact ⟨c, rfl, by rw [String.singleton_eq_ofList]; rfl⟩
  · intro hprevious
    have hprevious : f.cause.code = "P004" := Option.some.inj hprevious
    rw [hprevious] at hcode
    exact absurd hcode (by decide)

/-- A fault of the grammar points at its token, and a second comparison at the first as
well. -/
theorem points_of_sited {f : Fault} (h : f.Sited (TokenStream.ofText text)) :
    f.diagnostic.Points text f.site.span := by
  obtain ⟨u, hu, hsite⟩ := h.site
  have hstands : Text.Stands text.toList u.text.toList f.site.span f.site.line := by
    rw [hsite]
    exact TokenStream.stands_of_mem_toList hu
  have hcode := Fault.code_of_grammatical h.cause
  have hbounds : ∀ label ∈ f.diagnostic.labels, Text.Bounds text.toList label.span := by
    rcases f.labels_diagnostic with hone | ⟨previous, span, hcause, htwo⟩
    · rw [hone]
      exact List.forall_mem_singleton.2 hstands.bounds
    · obtain ⟨t, ht, -, hspan, -⟩ := h.exists_previous hcause
      rw [htwo, List.forall_mem_cons, List.forall_mem_singleton, hspan]
      exact ⟨hstands.bounds, (TokenStream.stands_of_mem ht).bounds⟩
  constructor
  · rcases f.labels_diagnostic with hone | ⟨previous, span, -, htwo⟩
    · exact ⟨_, [], hone, List.forall_mem_nil _⟩
    · exact ⟨_, _, htwo, List.forall_mem_singleton.2 rfl⟩
  · exact hbounds
  · exact fun label hlabel => clamp_of_bounds (hbounds label hlabel)
  · exact congrArg some hstands.line_eq
  · show f.site.lexeme = none ↔ f.site.span = _
    rw [hsite]
    exact TokenStream.lexeme_site_eq_none_iff hu
  · intro _ lexeme hmem
    have hlexeme : f.site.lexeme = some lexeme := hmem
    rw [hsite] at hlexeme
    rw [hstands.slice_eq, Token.text_of_lexeme hlexeme]
  · exact fun hopener => absurd (Option.some.inj hopener) hcode.2
  · intro hchained
    obtain ⟨previous, span, hcause⟩ := Fault.exists_of_code (Option.some.inj hchained)
    obtain ⟨t, ht, hcompares, rfl, hle⟩ := h.exists_previous hcause
    have hlt := (TokenStream.apart_tokens text.toList).nonempty t ht
    refine ⟨⟨t.span, "previous comparison", .secondary⟩, t, ?_, ht, hcompares, rfl, hlt, hle⟩
    rw [Fault.diagnostic, Fault.relatedLabels, hcause]
    rfl

end Diagnostic

/-- Every diagnostic of a text, whatever the configuration, points at what it names. -/
theorem Outcome.points_ofText (text : String) (config : Config) :
    ∀ d ∈ (Outcome.ofText text config).diagnostics, ∃ s, d.Points text s := by
  intro d hd
  obtain ⟨f, hf, rfl⟩ := List.mem_map.1 hd
  rcases Outcome.sited_ofTokens rfl config hf with hlexical | hsited
  · exact ⟨_, Diagnostic.points_of_lexeme hlexical⟩
  · exact ⟨_, Diagnostic.points_of_sited hsited⟩

theorem points_ofText_chained :
    ∃ d ∈ (Outcome.ofText "RETURN 1 < 2 <= 3").diagnostics,
      d.code = some "P004" ∧ ∃ s, d.Points "RETURN 1 < 2 <= 3" s := by
  have hd : Fault.diagnostic ⟨.chainedComparison "<" ⟨9, 10⟩, ⟨⟨13, 15⟩, 1, some "<="⟩⟩
      ∈ (Outcome.ofText "RETURN 1 < 2 <= 3").diagnostics := by
    decide +kernel
  exact ⟨_, hd, rfl, Outcome.points_ofText _ _ _ hd⟩

end Cypher
