import Cypher.Proofs.Lexing.Reworded

/-!
# Which words become one operator

The operators of several words are given here by a rewriting relation on
lists of tokens, which says nothing of how the words are looked for. The list
is read once from left to right. Where the words of an operator stand, parted
by white space and nothing else, they become one token, unless what has been
answered last is a point; where they do not, the token there stays.

Every list is rewritten to one list, the one that `Token.merge` answers. What
has been rewritten is left as it is when it is rewritten again.
-/

namespace Cypher

namespace Token

/-! ## The relation -/

/-- The words of an operator of several words. -/
inductive Spells : Operator → List Keyword → Prop
  | startsWith : Spells .startsWith [.STARTS, .WITH]
  | endsWith : Spells .endsWith [.ENDS, .WITH]
  | isNull : Spells .isNull [.IS, .NULL]
  | isNotNull : Spells .isNotNull [.IS, .NOT, .NULL]

/-- Between two tokens of a source there is white space, and nothing else. -/
structure Parted (source : List Char) (t u : Token) : Prop where
  gap : Text.slice source ⟨t.span.stop, u.span.start⟩ ≠ []
  blank : ∀ c ∈ Text.slice source ⟨t.span.stop, u.span.start⟩, Text.isBlank c = true

/-- The tokens are the words of an operator, parted by white space. -/
structure Phrase (source : List Char) (op : Operator) (run : List Token) : Prop where
  words : ∃ words, Spells op words ∧ run.map kind = words.map .keyword
  parted : run.IsChain (Parted source)

/-- The one token for a run of words: the start and the line of its first, the
stop of its last, and the text of the source between. -/
structure Joined (source : List Char) (op : Operator) (run : List Token) (u : Token) :
    Prop where
  kind : u.kind = .operator op
  start : ∃ first, run.head? = some first ∧ u.span.start = first.span.start ∧ u.line = first.line
  stop : ∃ last, run.getLast? = some last ∧ u.span.stop = last.span.stop
  text : u.text = String.ofList (Text.slice source u.span)

/-- The tokens of the one list become those of the other; `before` is the token
answered last, none at the start. -/
inductive Rewritten (source : List Char) : Option Token → List Token → List Token → Prop
  | nil {before : Option Token} : Rewritten source before [] []
  | fold {before : Option Token} {op : Operator} {run ahead answered : List Token} {u : Token}
    (free : ∀ t, before = some t → t.kind ≠ .punctuation .dot)
    (phrase : Phrase source op run) (joined : Joined source op run u)
    (rest : Rewritten source (some u) ahead answered) :
    Rewritten source before (run ++ ahead) (u :: answered)
  | keep {before : Option Token} {t : Token} {ahead answered : List Token}
    (held : (∃ b, before = some b ∧ b.kind = .punctuation .dot)
      ∨ ∀ op run, Phrase source op run → ¬ run <+: t :: ahead)
    (rest : Rewritten source (some t) ahead answered) :
    Rewritten source before (t :: ahead) (t :: answered)

/-! ## The words that are looked for -/

section Phrases

variable {source : List Char} {op : Operator} {first last t : Token}
  {run ahead tokens : List Token}

theorem parted_iff {t u : Token} : parted source t u = true ↔ Parted source t u := by
  unfold parted
  rw [Bool.and_eq_true, Bool.not_eq_true', List.isEmpty_eq_false_iff, List.all_eq_true]
  exact ⟨fun h => ⟨h.1, h.2⟩, fun h => ⟨h.gap, h.blank⟩⟩

theorem spells_iff {words : List Keyword} :
    Spells op words ↔ ∃ rule ∈ wordOperators, rule.operator = op
      ∧ rule.first :: rule.others = words := by
  constructor
  · intro h
    cases h with
    | startsWith => exact ⟨⟨.startsWith, .STARTS, [.WITH]⟩, by simp [wordOperators], rfl, rfl⟩
    | endsWith => exact ⟨⟨.endsWith, .ENDS, [.WITH]⟩, by simp [wordOperators], rfl, rfl⟩
    | isNull => exact ⟨⟨.isNull, .IS, [.NULL]⟩, by simp [wordOperators], rfl, rfl⟩
    | isNotNull => exact ⟨⟨.isNotNull, .IS, [.NOT, .NULL]⟩, by simp [wordOperators], rfl, rfl⟩
  · rintro ⟨rule, hrule, rfl, rfl⟩
    unfold wordOperators at hrule
    simp only [List.mem_cons, List.not_mem_nil, or_false] at hrule
    rcases hrule with rfl | rfl | rfl | rfl
    · exact .startsWith
    · exact .endsWith
    · exact .isNull
    · exact .isNotNull

/-- A run of words that are parted is found in front of any tokens. -/
theorem spelled?_run {words : List Keyword} (hwords : run.map kind = words.map .keyword)
    (hparted : (first :: run).IsChain fun t u => parted source t u = true)
    (hlast : (first :: run).getLast? = some last) (ahead : List Token) :
    spelled? source first words (run ++ ahead) = some last := by
  induction run generalizing first words with
  | nil =>
    rw [List.map_nil, eq_comm, List.map_eq_nil_iff] at hwords
    subst hwords
    unfold spelled?
    exact hlast
  | cons next run ih =>
    rw [List.map_cons, eq_comm, List.map_eq_cons_iff] at hwords
    obtain ⟨word, words, rfl, hword, hwords⟩ := hwords
    obtain ⟨hfirst, hparted⟩ := List.isChain_cons_cons.1 hparted
    rw [List.getLast?_cons_cons] at hlast
    rw [List.cons_append, spelled?, if_pos ⟨hword.symm, hfirst⟩]
    exact ih hwords.symm hparted hlast

/-- The words of a run become the token that `fuse` makes of them, and no other. -/
theorem joined_iff {others : List Token} {u : Token}
    (hlast : (first :: others).getLast? = some last) :
    Joined source op (first :: others) u ↔ u = fuse source op first last := by
  constructor
  · rintro ⟨hkind, ⟨first', hfirst', hstart, hline⟩, ⟨last', hlast', hstop⟩, htext⟩
    obtain rfl : first = first' := Option.some.inj hfirst'
    obtain rfl : last = last' := Option.some.inj (hlast.symm.trans hlast')
    obtain ⟨kind, ⟨start, stop⟩, line, text⟩ := u
    subst hkind hstart hstop hline
    exact congrArg (Token.mk _ _ _) htext
  · rintro rfl
    exact ⟨rfl, ⟨first, rfl, rfl, rfl⟩, ⟨last, hlast, rfl⟩, rfl⟩

/-- The rule that applies at a token is one whose phrase begins there. -/
theorem phrase_of_wordOperator? {rule : WordOperator}
    (h : wordOperator? source first ahead = some (rule, last)) :
    ∃ run rest, ahead = run ++ rest ∧ rule.others.length = run.length
      ∧ Phrase source rule.operator (first :: run) ∧ (first :: run).getLast? = some last := by
  obtain ⟨hrule, hkind, hspelled⟩ := spelled_of_wordOperator? h
  obtain ⟨run, rest, hahead, hwords, hparted, hlast⟩ := exists_run_of_spelled? hspelled
  have hlength := congrArg List.length hwords
  rw [List.length_map, List.length_map] at hlength
  refine ⟨run, rest, hahead, hlength.symm, ⟨?_, ?_⟩, hlast⟩
  · refine ⟨_, spells_iff.2 ⟨rule, hrule, rfl, rfl⟩, ?_⟩
    rw [List.map_cons, List.map_cons, hkind, hwords]
  · exact hparted.imp fun _ _ => parted_iff.1

/-- A rule applies where a phrase begins, and it is the one of that phrase. -/
theorem Phrase.wordOperator? (h : Phrase source op run) (hlast : run.getLast? = some last)
    (ahead : List Token) :
    ∃ first others rule, run = first :: others ∧ rule.operator = op
      ∧ rule.others.length = others.length
      ∧ Token.wordOperator? source first (others ++ ahead) = some (rule, last) := by
  obtain ⟨words, hspells, hkinds⟩ := h.words
  obtain ⟨rule, hrule, hop, rfl⟩ := spells_iff.1 hspells
  rw [List.map_cons, List.map_eq_cons_iff] at hkinds
  obtain ⟨first, others, rfl, hfirst, hothers⟩ := hkinds
  have hlength := congrArg List.length hothers
  rw [List.length_map, List.length_map] at hlength
  have hspelled := spelled?_run hothers (h.parted.imp fun _ _ => parted_iff.2) hlast ahead
  exact ⟨first, others, rule, rfl, hop, hlength.symm,
    wordOperator?_eq_some hrule hfirst hspelled⟩

/-- No rule applies where no phrase begins, and the other way round. -/
theorem wordOperator?_eq_none_iff :
    wordOperator? source t ahead = none
      ↔ ∀ op run, Phrase source op run → ¬ run <+: t :: ahead := by
  constructor
  · rintro hnone op run hphrase ⟨rest, hrun⟩
    obtain ⟨words, hspells, hkinds⟩ := hphrase.words
    obtain ⟨last, hlast⟩ : ∃ last, run.getLast? = some last := by
      cases run with
      | nil => cases hspells <;> cases hkinds
      | cons first others => exact ⟨_, List.getLast?_cons⟩
    obtain ⟨first, others, rule, rfl, -, -, hfound⟩ := hphrase.wordOperator? hlast rest
    rw [List.cons_append] at hrun
    obtain ⟨rfl, rfl⟩ := List.cons.inj hrun
    rw [hnone] at hfound
    cases hfound
  · intro hphrases
    cases hfound : wordOperator? source t ahead with
    | none => rfl
    | some found =>
      obtain ⟨rule, last⟩ := found
      obtain ⟨run, rest, rfl, -, hphrase, -⟩ := phrase_of_wordOperator? hfound
      exact absurd (List.prefix_append (t :: run) rest) (hphrases _ _ hphrase)

end Phrases

/-! ## The merge answers what the relation says -/

section Rewriting

variable {source : List Char} {before : Option Token} {tokens answered : List Token}

/-- Whether the token answered last is a point. -/
def isDot (before : Option Token) : Bool :=
  before.any fun t => t.kind = .punctuation .dot

theorem isDot_eq_true : isDot before = true ↔ ∃ b, before = some b ∧ b.kind = .punctuation .dot := by
  cases before <;> simp [isDot]

theorem isDot_eq_false :
    isDot before = false ↔ ∀ t, before = some t → t.kind ≠ .punctuation .dot := by
  cases before <;> simp [isDot]

/-- What the merge answers is a rewriting. -/
theorem rewritten_mergeFrom (source : List Char) (afterDot : Bool) (tokens : List Token) :
    ∀ before, isDot before = afterDot →
      Rewritten source before tokens (mergeFrom source afterDot tokens) := by
  fun_induction mergeFrom source afterDot tokens with
  | case1 => exact fun _ _ => .nil
  | case2 afterDot t ahead rule last hrule ih =>
    rintro before rfl
    have hfound : isDot before = false ∧ wordOperator? source t ahead = some (rule, last) := by
      split at hrule
      · cases hrule
      · next hdot => exact ⟨Bool.eq_false_iff.2 hdot, hrule⟩
    obtain ⟨run, rest, rfl, hlength, hphrase, hlast⟩ := phrase_of_wordOperator? hfound.2
    rw [hlength, List.drop_left] at ih ⊢
    exact .fold (isDot_eq_false.1 hfound.1) hphrase ((joined_iff hlast).2 rfl) (ih _ rfl)
  | case3 afterDot t ahead hrule ih =>
    rintro before rfl
    refine .keep ?_ (ih _ rfl)
    split at hrule
    · next hdot => exact .inl (isDot_eq_true.1 hdot)
    · exact .inr (wordOperator?_eq_none_iff.1 hrule)

/-- A rewriting is what the merge answers. -/
theorem Rewritten.eq_mergeFrom (h : Rewritten source before tokens answered) :
    answered = mergeFrom source (isDot before) tokens := by
  induction h with
  | nil => rw [mergeFrom]
  | @fold before op run ahead answered u free phrase joined rest ih =>
    obtain ⟨last, hlast, -⟩ := joined.stop
    obtain ⟨first, others, rule, rfl, hop, hlength, hfound⟩ := phrase.wordOperator? hlast ahead
    rw [List.cons_append, mergeFrom, isDot_eq_false.2 free, if_neg Bool.false_ne_true, hfound]
    show _ = fuse source rule.operator first last :: mergeFrom source false _
    rw [hlength, List.drop_left, hop, ← (joined_iff hlast).1 joined, ih, isDot, Option.any_some,
      joined.kind, decide_eq_false (by simp)]
  | @keep before t ahead answered held rest ih =>
    have hnone : (if isDot before = true then none else wordOperator? source t ahead) = none := by
      split
      · rfl
      · next hdot =>
        refine wordOperator?_eq_none_iff.2 (held.resolve_left fun hbehind => ?_)
        exact hdot (isDot_eq_true.2 hbehind)
    rw [mergeFrom, hnone, ih]
    rfl

/-- Every list is rewritten to one list, the one that the merge answers. -/
theorem rewritten_iff : Rewritten source none tokens answered ↔ answered = merge source tokens :=
  ⟨fun h => h.eq_mergeFrom, fun h => h ▸ rewritten_mergeFrom source false tokens none rfl⟩

/-- Words that are found behind the merge were there in front of it. -/
theorem spelled?_of_mergeFrom {last t : Token} {words : List Keyword} {ahead : List Token}
    (h : spelled? source last words (mergeFrom source false ahead) = some t) :
    spelled? source last words ahead = some t := by
  induction words generalizing last ahead with
  | nil =>
    unfold spelled? at h ⊢
    exact h
  | cons word words ih =>
    cases ahead with
    | nil =>
      rw [mergeFrom] at h
      cases h
    | cons next ahead =>
      rw [mergeFrom, if_neg Bool.false_ne_true] at h
      split at h
      · rw [spelled?] at h
        split at h
        · next hhead => cases hhead.1
        · cases h
      · rw [spelled?] at h ⊢
        split at h
        · next hnext =>
          rw [if_pos hnext]
          rw [hnext.1, decide_eq_false (by simp)] at h
          exact ih h
        · cases h

/-- What has been merged is merged to itself. -/
theorem mergeFrom_mergeFrom (source : List Char) (afterDot : Bool) (tokens : List Token) :
    mergeFrom source afterDot (mergeFrom source afterDot tokens)
      = mergeFrom source afterDot tokens := by
  fun_induction mergeFrom source afterDot tokens with
  | case1 => rw [mergeFrom]
  | case2 afterDot t ahead rule last hrule ih =>
    have hnone (ahead : List Token) :
        wordOperator? source (fuse source rule.operator t last) ahead = none :=
      wordOperator?_eq_none fun _ _ hkind => by cases hkind
    rw [mergeFrom, hnone, ite_self]
    show _ :: mergeFrom source (decide (Kind.operator _ = _)) _ = _
    rw [decide_eq_false (by simp), ih]
  | case3 afterDot t ahead hrule ih =>
    have hnone : (if afterDot = true then none else
        wordOperator? source t (mergeFrom source (t.kind = .punctuation .dot) ahead)) = none := by
      split at hrule
      · next hdot => rw [if_pos hdot]
      · next hdot =>
        rw [if_neg hdot]
        refine wordOperator?_eq_none fun rule hmem hkind => ?_
        rw [hkind, decide_eq_false (by simp)]
        cases hspelled : spelled? source t rule.others (mergeFrom source false ahead) with
        | none => rfl
        | some last =>
          have hfound := wordOperator?_eq_some hmem hkind (spelled?_of_mergeFrom hspelled)
          rw [hrule] at hfound
          cases hfound
    rw [mergeFrom, hnone]
    exact congrArg (t :: ·) ih

end Rewriting

end Token

namespace TokenStream

/-- The tokens of a text as its lexemes are read, each word on its own, and the
end of the text behind them. -/
def rawList (text : List Char) : List Token :=
  (Lexeme.ofText text).filterMap Lexeme.token? ++ [eofOf text]

/-- The end of a text is no word of an operator, so that it may as well be
merged with the tokens in front of it. -/
theorem toList_eq_merge (text : List Char) :
    (ofChars text).toList = Token.merge text (rawList text) := by
  have hbridge : ¬ Token.Bridged false ((Lexeme.ofText text).filterMap Lexeme.token?)
      [eofOf text] := by
    rintro ⟨rule, hrule, before, first, others, words, word, rest, -, -, -, -, -, hword⟩
    cases hword
  unfold Token.merge rawList
  rw [Token.mergeFrom_append false hbridge, Token.mergeFrom_singleton]
  rfl

/-- The tokens of a text are what the rewriting makes of the raw ones, nothing
else is, and to rewrite them again changes nothing. -/
theorem greedily_merged (text : String) :
    (∀ tokens, Token.Rewritten text.toList none (rawList text.toList) tokens
        ↔ tokens = (ofText text).toList)
      ∧ Token.merge text.toList (ofText text).toList = (ofText text).toList := by
  unfold ofText
  rw [toList_eq_merge]
  exact ⟨fun tokens => Token.rewritten_iff, Token.mergeFrom_mergeFrom text.toList false _⟩

end TokenStream

end Cypher
