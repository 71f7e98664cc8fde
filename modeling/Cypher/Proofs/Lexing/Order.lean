import Cypher.Token.Stream

/-!
# The order of the text

Lexemes follow one another and never overlap, so tokens and lexical faults
stand in the order of the text. Putting the words of an operator together
changes nothing about that: the one token starts where its first word did.
-/

namespace Cypher

namespace Lexeme

/-- The offset behind the last byte. -/
def stop (l : Lexeme) : Nat := l.start + Text.byteLength l.text

/-- Every lexeme lies inside the text. -/
theorem bounds_of_mem_cut {start line : Nat} {text : List Char} {l : Lexeme}
    (h : l ∈ cut start line text) :
    start ≤ l.start ∧ l.stop ≤ start + Text.byteLength text := by
  fun_induction cut start line text with
  | case1 => cases h
  | case2 start line c rest form n hm piece ih =>
    have hwhole : Text.byteLength (c :: rest)
        = Text.byteLength piece + Text.byteLength (rest.drop n) := by
      rw [← Text.byteLength_append, List.cons_append, List.take_append_drop]
    rcases List.mem_cons.1 h with rfl | hmem
    · refine ⟨Nat.le_refl _, ?_⟩
      show start + Text.byteLength piece ≤ _
      omega
    · obtain ⟨hstart, hstop⟩ := ih hmem
      exact ⟨by omega, by omega⟩

/-- Each lexeme stops before the later ones start. -/
theorem pairwise_cut (start line : Nat) (text : List Char) :
    (cut start line text).Pairwise fun l l' => l.stop ≤ l'.start := by
  fun_induction cut start line text with
  | case1 => exact .nil
  | case2 start line c rest form n hm piece ih =>
    exact List.pairwise_cons.2 ⟨fun l hl => (bounds_of_mem_cut hl).1, ih⟩

theorem start_le_stop (l : Lexeme) : l.start ≤ l.stop := Nat.le_add_right _ _

/-- No lexeme is empty. -/
theorem start_lt_stop_of_mem_cut {start line : Nat} {text : List Char} {l : Lexeme}
    (h : l ∈ cut start line text) : l.start < l.stop := by
  fun_induction cut start line text with
  | case1 => cases h
  | case2 start line c rest form n hm piece ih =>
    rcases List.mem_cons.1 h with rfl | hmem
    · have hpos := c.utf8Size_pos
      show start < start + Text.byteLength piece
      exact Nat.lt_add_of_pos_right (Nat.add_pos_left hpos _)
    · exact ih hmem

theorem ne_eof_of_token? {l : Lexeme} {t : Token} (h : l.token? = some t) :
    t.kind ≠ .eof := by
  obtain ⟨kind, hkind, rfl⟩ := Option.map_eq_some_iff.1 h
  rintro rfl
  unfold kind? at hkind
  cases hform : l.form with
  | word =>
    rw [hform] at hkind
    simp only at hkind
    split at hkind <;> cases hkind
  | _ =>
    rw [hform] at hkind
    cases hkind

end Lexeme

namespace Token

/-- What stands in the list after the words have been put together stood there
before, or is an operator and starts where something stood. -/
theorem exists_of_mem_mergeFrom {source : List Char} {afterDot : Bool} {tokens : List Token}
    {u : Token} (h : u ∈ mergeFrom source afterDot tokens) :
    ∃ t ∈ tokens, u = t ∨ (∃ op, u.kind = .operator op) ∧ u.span.start = t.span.start := by
  fun_induction mergeFrom source afterDot tokens with
  | case1 => cases h
  | case2 afterDot t ahead rule last hrule ih =>
    rcases List.mem_cons.1 h with rfl | hmem
    · exact ⟨t, List.mem_cons_self, .inr ⟨⟨_, rfl⟩, rfl⟩⟩
    · obtain ⟨t', ht', heq⟩ := ih hmem
      exact ⟨t', List.mem_cons_of_mem _ (List.mem_of_mem_drop ht'), heq⟩
  | case3 afterDot t ahead hrule ih =>
    rcases List.mem_cons.1 h with rfl | hmem
    · exact ⟨u, List.mem_cons_self, .inl rfl⟩
    · obtain ⟨t', ht', heq⟩ := ih hmem
      exact ⟨t', List.mem_cons_of_mem _ ht', heq⟩

theorem exists_start_of_mem_mergeFrom {source : List Char} {afterDot : Bool}
    {tokens : List Token} {u : Token} (h : u ∈ mergeFrom source afterDot tokens) :
    ∃ t ∈ tokens, u.span.start = t.span.start := by
  obtain ⟨t, ht, rfl | ⟨-, hstart⟩⟩ := exists_of_mem_mergeFrom h
  · exact ⟨u, ht, rfl⟩
  · exact ⟨t, ht, hstart⟩

theorem pairwise_mergeFrom {source : List Char} {afterDot : Bool} {tokens : List Token}
    (h : tokens.Pairwise fun t u => t.span.start ≤ u.span.start) :
    (mergeFrom source afterDot tokens).Pairwise fun t u => t.span.start ≤ u.span.start := by
  fun_induction mergeFrom source afterDot tokens with
  | case1 => exact .nil
  | case2 afterDot t ahead rule last hrule ih =>
    obtain ⟨hfirst, hrest⟩ := List.pairwise_cons.1 h
    refine List.pairwise_cons.2 ⟨fun u hu => ?_, ih (hrest.sublist (List.drop_sublist _ _))⟩
    obtain ⟨t', ht', heq⟩ := exists_start_of_mem_mergeFrom hu
    rw [heq]
    exact hfirst t' (List.mem_of_mem_drop ht')
  | case3 afterDot t ahead hrule ih =>
    obtain ⟨hfirst, hrest⟩ := List.pairwise_cons.1 h
    refine List.pairwise_cons.2 ⟨fun u hu => ?_, ih hrest⟩
    obtain ⟨t', ht', heq⟩ := exists_start_of_mem_mergeFrom hu
    rw [heq]
    exact hfirst t' ht'

/-! ## Tokens that do not overlap -/

/-- Every token takes up bytes, and they lie behind those of the tokens in front
of it. -/
structure Apart (tokens : List Token) : Prop where
  nonempty : ∀ t ∈ tokens, t.span.start < t.span.stop
  apart : tokens.Pairwise fun t u => t.span.stop ≤ u.span.start

/-- The last word of a run is the first or one of the words behind it. -/
theorem mem_of_spelled? {source : List Char} {first last : Token} {words : List Keyword}
    {ahead : List Token} (h : spelled? source first words ahead = some last) :
    last = first ∨ last ∈ ahead.take words.length := by
  fun_induction spelled? source first words ahead with
  | case1 => exact .inl (Option.some.inj h).symm
  | case2 => cases h
  | case3 first word words next ahead hnext ih =>
    rcases ih h with rfl | hmem
    · exact .inr List.mem_cons_self
    · exact .inr (List.mem_cons_of_mem _ hmem)
  | case4 => cases h

/-- The rule that applies at a token is one whose words stand there. -/
theorem spelled_of_wordOperator? {source : List Char} {first last : Token} {ahead : List Token}
    {rule : WordOperator} (h : wordOperator? source first ahead = some (rule, last)) :
    rule ∈ wordOperators ∧ first.kind = .keyword rule.first
      ∧ spelled? source first rule.others ahead = some last := by
  obtain ⟨rule', hlisted, hrule⟩ := List.exists_of_findSome?_eq_some h
  split at hrule
  · next hkind =>
    obtain ⟨last', hlast, heq⟩ := Option.map_eq_some_iff.1 hrule
    cases heq
    exact ⟨hlisted, hkind, hlast⟩
  · cases hrule

theorem mem_of_wordOperator? {source : List Char} {first last : Token} {ahead : List Token}
    {rule : WordOperator} (h : wordOperator? source first ahead = some (rule, last)) :
    last = first ∨ last ∈ ahead.take rule.others.length :=
  mem_of_spelled? (spelled_of_wordOperator? h).2.2

theorem exists_stop_of_mem_mergeFrom {source : List Char} {afterDot : Bool}
    {tokens : List Token} {u : Token} (h : u ∈ mergeFrom source afterDot tokens) :
    ∃ t ∈ tokens, u.span.stop = t.span.stop := by
  fun_induction mergeFrom source afterDot tokens with
  | case1 => cases h
  | case2 afterDot t ahead rule last hrule ih =>
    rcases List.mem_cons.1 h with rfl | hmem
    · split at hrule
      · cases hrule
      · rcases mem_of_wordOperator? hrule with rfl | hlast
        · exact ⟨last, List.mem_cons_self, rfl⟩
        · exact ⟨last, List.mem_cons_of_mem _ (List.mem_of_mem_take hlast), rfl⟩
    · obtain ⟨t', ht', heq⟩ := ih hmem
      exact ⟨t', List.mem_cons_of_mem _ (List.mem_of_mem_drop ht'), heq⟩
  | case3 afterDot t ahead hrule ih =>
    rcases List.mem_cons.1 h with rfl | hmem
    · exact ⟨u, List.mem_cons_self, rfl⟩
    · obtain ⟨t', ht', heq⟩ := ih hmem
      exact ⟨t', List.mem_cons_of_mem _ ht', heq⟩

/-- An operator of several words takes up the bytes from its first word to its
last, and nothing of what is behind it. -/
theorem Apart.mergeFrom {source : List Char} {afterDot : Bool} {tokens : List Token}
    (h : Apart tokens) : Apart (mergeFrom source afterDot tokens) := by
  fun_induction Token.mergeFrom source afterDot tokens with
  | case1 => exact h
  | case2 afterDot t ahead rule last hrule ih =>
    obtain ⟨ht, hahead⟩ := List.forall_mem_cons.1 h.nonempty
    obtain ⟨hfirst, hrest⟩ := List.pairwise_cons.1 h.apart
    have hlast : last = t ∨ last ∈ ahead.take rule.others.length := by
      split at hrule
      · cases hrule
      · exact mem_of_wordOperator? hrule
    have htail := ih ⟨fun u hu => hahead u (List.mem_of_mem_drop hu),
      hrest.sublist (List.drop_sublist _ _)⟩
    refine ⟨List.forall_mem_cons.2 ⟨?_, htail.nonempty⟩,
      List.pairwise_cons.2 ⟨fun u hu => ?_, htail.apart⟩⟩
    · show t.span.start < last.span.stop
      rcases hlast with rfl | hlast
      · exact ht
      · have hmem := List.mem_of_mem_take hlast
        have hbehind := hfirst last hmem
        have hbytes := hahead last hmem
        omega
    · show last.span.stop ≤ u.span.start
      obtain ⟨t', ht', heq⟩ := exists_start_of_mem_mergeFrom hu
      rw [heq]
      rcases hlast with rfl | hlast
      · exact hfirst t' (List.mem_of_mem_drop ht')
      · rw [← List.take_append_drop rule.others.length ahead] at hrest
        exact (List.pairwise_append.1 hrest).2.2 last hlast t' ht'
  | case3 afterDot t ahead hrule ih =>
    obtain ⟨ht, hahead⟩ := List.forall_mem_cons.1 h.nonempty
    obtain ⟨hfirst, hrest⟩ := List.pairwise_cons.1 h.apart
    have htail := ih ⟨hahead, hrest⟩
    refine ⟨List.forall_mem_cons.2 ⟨ht, htail.nonempty⟩,
      List.pairwise_cons.2 ⟨fun u hu => ?_, htail.apart⟩⟩
    obtain ⟨t', ht', heq⟩ := exists_start_of_mem_mergeFrom hu
    rw [heq]
    exact hfirst t' ht'

end Token

namespace TokenStream

/-- A token takes up the bytes of its lexeme. -/
theorem span_of_token? {l : Lexeme} {t : Token} (h : l.token? = some t) :
    t.span = ⟨l.start, l.stop⟩ := by
  obtain ⟨kind, -, rfl⟩ := Option.map_eq_some_iff.1 h
  rfl

/-- The tokens that lexemes are read as do not overlap. -/
theorem apart_lexemes (text : List Char) :
    Token.Apart ((Lexeme.ofText text).filterMap Lexeme.token?) := by
  constructor
  · intro t ht
    obtain ⟨l, hl, htoken⟩ := List.mem_filterMap.1 ht
    rw [span_of_token? htoken]
    exact Lexeme.start_lt_stop_of_mem_cut hl
  · apply (Lexeme.pairwise_cut 0 1 text).filterMap
    intro l l' h t ht u hu
    rwa [span_of_token? ht, span_of_token? hu]

/-- The tokens of a text do not overlap. -/
theorem apart_tokens (text : List Char) : Token.Apart (ofChars text).tokens :=
  (apart_lexemes text).mergeFrom

/-- No token reaches beyond the text. -/
theorem stop_le_of_mem {text : List Char} {t : Token} (h : t ∈ (ofChars text).tokens) :
    t.span.stop ≤ Text.byteLength text := by
  obtain ⟨t', ht', heq⟩ := Token.exists_stop_of_mem_mergeFrom h
  obtain ⟨l, hl, htoken⟩ := List.mem_filterMap.1 ht'
  have hbounds := (Lexeme.bounds_of_mem_cut hl).2
  rw [heq, span_of_token? htoken]
  rwa [Nat.zero_add] at hbounds

/-- A token starts where its lexeme does. -/
theorem start_of_token? {l : Lexeme} {t : Token} (h : l.token? = some t) :
    t.span.start = l.start := congrArg Span.start (span_of_token? h)

theorem start_of_fault? {l : Lexeme} {f : Fault} (h : l.fault? = some f) :
    f.site.span.start = l.start := by
  obtain ⟨cause, -, rfl⟩ := Option.map_eq_some_iff.1 h
  rfl

theorem pairwise_start_lexemes (text : List Char) :
    (Lexeme.ofText text).Pairwise fun l l' => l.start ≤ l'.start :=
  (Lexeme.pairwise_cut 0 1 text).imp fun {l _} h => Nat.le_trans l.start_le_stop h

/-- The tokens of a text stand in its order, and the end of the text is
behind them. -/
theorem pairwise_start_tokens (text : List Char) :
    ((ofChars text).toList).Pairwise fun t u => t.span.start ≤ u.span.start := by
  have hraw : ((Lexeme.ofText text).filterMap Lexeme.token?).Pairwise
      fun t u => t.span.start ≤ u.span.start := by
    apply (pairwise_start_lexemes text).filterMap
    intro l l' h t ht u hu
    rwa [start_of_token? ht, start_of_token? hu]
  unfold toList
  rw [List.pairwise_append]
  refine ⟨Token.pairwise_mergeFrom hraw, List.pairwise_singleton _ _, fun t ht u hu => ?_⟩
  obtain ⟨t', ht', heq⟩ := Token.exists_start_of_mem_mergeFrom ht
  obtain ⟨l, hl, hlt⟩ := List.mem_filterMap.1 ht'
  have hbounds := (Lexeme.bounds_of_mem_cut hl).2
  have hstart := l.start_le_stop
  rw [List.mem_singleton.1 hu, heq, start_of_token? hlt]
  show l.start ≤ Text.byteLength text
  omega

/-- The lexical faults of a text stand in its order. -/
theorem pairwise_start_faults (text : List Char) :
    ((ofChars text).faults).Pairwise fun f g => f.site.span.start ≤ g.site.span.start := by
  apply (pairwise_start_lexemes text).filterMap
  intro l l' h f hf g hg
  rwa [start_of_fault? hf, start_of_fault? hg]

/-- A lexeme is found to be illegal or not closed, and nothing else. -/
theorem code_of_mem_faults {text : List Char} {f : Fault} (h : f ∈ (ofChars text).faults) :
    f.cause.code = "L001" ∨ f.cause.code = "L002" := by
  obtain ⟨l, -, hl⟩ := List.mem_filterMap.1 h
  obtain ⟨cause, hcause, rfl⟩ := Option.map_eq_some_iff.1 hl
  unfold Lexeme.cause? at hcause
  split at hcause
  · obtain ⟨c, -, rfl⟩ := Option.map_eq_some_iff.1 hcause
    exact .inl rfl
  · cases hcause
    exact .inr rfl
  · cases hcause
    exact .inr rfl
  · cases hcause
    exact .inr rfl
  · cases hcause

/-- The end of a text is marked by no token of the text itself. -/
theorem ne_eof_of_mem {text : List Char} {t : Token} (h : t ∈ (ofChars text).tokens) :
    t.kind ≠ .eof := by
  obtain ⟨t', ht', hsame⟩ := Token.exists_of_mem_mergeFrom h
  obtain ⟨l, -, hl⟩ := List.mem_filterMap.1 ht'
  rcases hsame with rfl | ⟨⟨op, hop⟩, -⟩
  · exact Lexeme.ne_eof_of_token? hl
  · rw [hop]
    exact nofun

end TokenStream

end Cypher
