import Cypher.Proofs.Compared.Query
import Cypher.Proofs.Lexing.Regrouped
import Cypher.Proofs.Outcome

/-!
# Layout and case do not matter

Two layouts of the same lexemes make the same tokens, up to their places
and the case of reserved words. The grammar looks at neither: it takes the
same decisions, reports the same causes, and builds the same tree up to
spans and the case of those names that are reserved words.
-/

namespace Cypher

/-! ## Case -/

/-- The name in upper case if it is one of `words`. -/
def foldCase (words : List String) (n : String) : String :=
  if n ∈ words then upper n else n

/-- The texts of the reserved words among the tokens. -/
def TokenStream.reservedTexts (s : TokenStream) : List String :=
  s.tokens.filterMap fun t => if t.kind.isKeyword then some t.text else none

/-- Every span is put to nowhere, and the names that are among `words` into
upper case. -/
def Recasting.folding (words : List String) : Recasting := ⟨fun _ => 0, foldCase words⟩

theorem map_toUpper_upper (n : String) :
    (upper n).toList.map Char.toUpper = n.toList.map Char.toUpper := by
  unfold upper
  rw [String.toList_ofList, List.map_map]
  simp only [Function.comp_def, Char.toUpper_toUpper_eq_toUpper]

/-- Folding the case of words keeps the canonical text, up to case. -/
theorem upper_text_folding {words : List String}
    (hwords : ∀ n ∈ words, (Keyword.ofName? n).isSome) (q : Query) :
    upper (q.recast (.folding words)).text = upper q.text := by
  apply q.upper_text_recast
  intro n
  show (Glyph.symbol (foldCase words n)).chars.map Char.toUpper = _
  unfold foldCase
  split
  · next hn =>
    obtain ⟨w, hw⟩ := Option.isSome_iff_exists.1 (hwords n hn)
    have hword : Lexeme.isWord n.toList = true := Keyword.isWord_of_ofLetters? hw
    have hupper : Keyword.ofLetters? (upper n).toList = some w := by
      unfold Keyword.ofName? Keyword.ofLetters? at hw
      unfold Keyword.ofLetters?
      rw [map_toUpper_upper, hw]
    have hword' : Lexeme.isWord (upper n).toList = true := Keyword.isWord_of_ofLetters? hupper
    show (if Lexeme.isWord (upper n).toList then (upper n).toList
      else Glyph.quotedName (upper n).toList).map Char.toUpper
        = (if Lexeme.isWord n.toList then n.toList else Glyph.quotedName n.toList).map Char.toUpper
    rw [if_pos hword, if_pos hword', map_toUpper_upper]
  · rfl

namespace Grammar

/-! ## In step -/

theorem skipLength_congr {ahead ahead' : List Token}
    (h : ahead.map Token.kind = ahead'.map Token.kind) (n : Nat) :
    skipLength n ahead = skipLength n ahead' := by
  induction ahead generalizing ahead' n with
  | nil =>
    cases ahead' with
    | nil => rfl
    | cons t' rest' => cases h
  | cons t rest ih =>
    cases ahead' with
    | nil => cases h
    | cons t' rest' =>
      obtain ⟨hkind, hrest⟩ := List.cons.inj h
      unfold skipLength
      rw [hkind, ih hrest]

/-- What is compared of a token where names are compared through `spell`. -/
def viewed (spell : String → String) (t : Token) : Token.Kind × Option String :=
  (t.kind, t.symbolicName?.map spell)

/-- What is compared of a token up to the case of words. -/
def folded (words : List String) (t : Token) : Token.Kind × Option String :=
  (t.kind, t.symbolicName?.map (foldCase words))

/-- The states look at the same tokens, and have the same codes on record. -/
structure Aligned (spell : String → String) (s s' : State) : Prop where
  ahead : s.ahead.map (viewed spell) = s'.ahead.map (viewed spell)
  eof : viewed spell s.eof = viewed spell s'.eof
  depth : s.depth = s'.depth
  codes : s.faults.map (·.cause.code) = s'.faults.map (·.cause.code)

abbrev InStep (words : List String) (s s' : State) : Prop := Aligned (foldCase words) s s'

namespace Aligned

variable {spell : String → String} {s s' : State}

theorem current (h : Aligned spell s s') :
    viewed spell s.current = viewed spell s'.current := by
  have hahead := h.ahead
  unfold State.current
  cases hs : s.ahead with
  | nil =>
    rw [hs, List.map_nil, eq_comm, List.map_eq_nil_iff] at hahead
    rw [hahead]
    exact h.eof
  | cons t rest =>
    rw [hs, List.map_cons, eq_comm, List.map_eq_cons_iff] at hahead
    obtain ⟨t', rest', hs', ht, -⟩ := hahead
    rw [hs']
    exact ht.symm

theorem advance (h : Aligned spell s s') : Aligned spell s.advance s'.advance := by
  have hahead := h.ahead
  unfold State.advance
  cases hs : s.ahead with
  | nil =>
    rw [hs, List.map_nil, eq_comm, List.map_eq_nil_iff] at hahead
    rw [hahead]
    exact h
  | cons t rest =>
    rw [hs, List.map_cons, eq_comm, List.map_eq_cons_iff] at hahead
    obtain ⟨t', rest', hs', -, hrest⟩ := hahead
    rw [hs']
    exact ⟨hrest.symm, h.eof, h.depth, h.codes⟩

theorem advanceBy (n : Nat) (h : Aligned spell s s') :
    Aligned spell (s.advanceBy n) (s'.advanceBy n) := by
  induction n generalizing s s' with
  | zero => exact h
  | succ n ih => exact ih h.advance

theorem kinds (h : Aligned spell s s') : s.ahead.map Token.kind = s'.ahead.map Token.kind := by
  have hkinds := congrArg (List.map Prod.fst) h.ahead
  rw [List.map_map, List.map_map] at hkinds
  exact hkinds

end Aligned

/-- Two runs on texts that differ in layout, and in names that `spell` makes alike. -/
def respelling (spell : String → String) : Comparison where
  view := ⟨fun _ => 0, spell⟩
  text _ := ""
  inStep := Aligned spell
  stops fault s fault' s' := fault.cause.code = fault'.cause.code
    ∧ s.faults.map (·.cause.code) = s'.faults.map (·.cause.code)
  cut _ _ _ := False
  cut_mono h _ := h

abbrev relayout (words : List String) : Comparison := respelling (foldCase words)

theorem token_respelling (spell : String → String) (t : Token) :
    (respelling spell).token t = ((viewed spell t).1, ⟨0, 0⟩, (viewed spell t).2, "") := rfl

/-- No decision of the grammar rests on the layout or on how a name is spelled. -/
theorem respelling_lawful (spell : String → String) (config : Config) :
    (respelling spell).Lawful config config where
  mono := monotone_const
  ahead {s s'} h := by
    have hmap (ts : List Token) : ts.map (respelling spell).token
        = (ts.map (viewed spell)).map fun p => (p.1, ⟨0, 0⟩, p.2, "") := by
      rw [List.map_map]
      rfl
    rw [hmap, hmap, h.ahead]
  current h := by rw [token_respelling, token_respelling, h.current]
  stop _ := rfl
  depth h := h.depth
  advance h := h.advance
  enter h n := ⟨h.ahead, h.eof, rfl, h.codes⟩
  leave h _ _ := h
  fail {s s' cause cause'} h _ _ hcause := by
    refine ⟨?_, h.codes⟩
    cases cause <;> cases cause' <;> cases hcause <;> rfl
  recover := by
    unfold recoverExpression
    by_cases hrecover : config.recover = true
    · rw [if_pos hrecover]
      refine ⟨fun {s s'} h => ?_, fun s => ?_⟩
      · have hskip := skipLength_congr h.kinds 0
        unfold skipOperand
        rw [hskip]
        refine .ok rfl (Aligned.advanceBy _ ⟨h.ahead, h.eof, h.depth, ?_⟩)
        rw [List.map_append, List.map_append, h.codes]
        rfl
      · rw [reported_skipOperand]
        exact List.prefix_append _ _
    · rw [if_neg hrecover]
      exact ⟨fun {s s'} h => .error ⟨rfl, h.codes⟩, .fail _⟩
  limit := Nat.le_refl _
  refused h := absurd h (Nat.lt_irrefl _)

theorem relayout_lawful (words : List String) (config : Config) :
    (relayout words).Lawful config config :=
  respelling_lawful (foldCase words) config

end Grammar

/-! ## Outcomes -/

theorem Outcome.ofTokens_relaid {words : List String} {stream stream' : TokenStream}
    (htokens : stream.tokens.map (Grammar.folded words)
      = stream'.tokens.map (Grammar.folded words))
    (heof : Grammar.folded words stream.eof = Grammar.folded words stream'.eof)
    (hfaults : stream.faults.map (·.cause.code) = stream'.faults.map (·.cause.code))
    (config : Config) :
    (Outcome.ofTokens stream config).faults.map (·.cause.code)
        = (Outcome.ofTokens stream' config).faults.map (·.cause.code)
      ∧ (Outcome.ofTokens stream config).query.map (Query.recast (.folding words))
        = (Outcome.ofTokens stream' config).query.map (Query.recast (.folding words)) := by
  have hstart : (Grammar.relayout words).inStep ⟨none, stream.tokens, stream.eof, 0, []⟩
      ⟨none, stream'.tokens, stream'.eof, 0, []⟩ := ⟨htokens, heof, rfl, rfl⟩
  have hmeets := (Grammar.Comparison.Agrees.query (Grammar.relayout_lawful words config)
    fun h => absurd h (Nat.lt_irrefl _)).meets hstart
  unfold Outcome.ofTokens
  generalize Grammar.query config ⟨none, stream.tokens, stream.eof, 0, []⟩ = left at hmeets ⊢
  generalize Grammar.query config ⟨none, stream'.tokens, stream'.eof, 0, []⟩ = right at hmeets ⊢
  cases hmeets with
  | ok answer states =>
    refine ⟨?_, congrArg some answer⟩
    rw [List.map_append, List.map_append, hfaults, states.codes]
  | error faults =>
    refine ⟨?_, rfl⟩
    rw [List.map_append, List.map_append, List.map_append, List.map_append, hfaults, faults.2]
    simp only [List.map_cons, List.map_nil, faults.1]
  | cut faults => exact faults.elim

/-- Words that differ in case are folded alike. -/
theorem map_folded_eq {words : List String} {ts ts' : List Token}
    (h : List.Forall₂ Token.Respelled ts ts')
    (hts : ∀ t ∈ ts, t.kind.isKeyword = true → t.text ∈ words)
    (hts' : ∀ t ∈ ts', t.kind.isKeyword = true → t.text ∈ words) :
    ts.map (Grammar.folded words) = ts'.map (Grammar.folded words) := by
  induction h with
  | nil => rfl
  | @cons t t' ts ts' ht _ ih =>
    rw [List.forall_mem_cons] at hts hts'
    rw [List.map_cons, List.map_cons, ih hts.2 hts'.2]
    congr 1
    unfold Grammar.folded
    rw [ht.kind]
    congr 1
    unfold Token.symbolicName?
    rw [← ht.kind]
    cases hkind : t.kind with
    | keyword w =>
      have hkeyword : t.kind.isKeyword = true := by rw [hkind]; rfl
      have hkeyword' : t'.kind.isKeyword = true := by rw [← ht.kind]; exact hkeyword
      simp only [Option.map_some, foldCase, if_pos (hts.1 hkeyword), if_pos (hts'.1 hkeyword'),
        ht.text hkeyword]
    | _ => rfl

theorem mem_reservedTexts {stream : TokenStream} {n : String} :
    n ∈ stream.reservedTexts ↔ ∃ t ∈ stream.tokens, t.kind.isKeyword = true ∧ t.text = n := by
  unfold TokenStream.reservedTexts
  rw [List.mem_filterMap]
  constructor
  · rintro ⟨t, ht, hn⟩
    split at hn
    · next hkeyword => exact ⟨t, ht, hkeyword, Option.some.inj hn⟩
    · cases hn
  · rintro ⟨t, ht, hkeyword, rfl⟩
    exact ⟨t, ht, if_pos hkeyword⟩

/-- Neither the space between the lexemes of a text nor the case of its reserved
words matters. Let a text hold no comment and no lexical fault, and lay its
lexemes out anew. Then the tokens are of the same kinds, the same codes are
reported, both texts are accepted or neither is, and the trees are the same up
to their spans and the case of names that are reserved words. So the canonical
texts are the same up to case. -/
theorem Outcome.ofText_relaid (config : Config) {text text' : String}
    (hcomments : ∀ l ∈ Lexeme.ofText text.toList, l.form.isComment = false)
    (hfaults : (TokenStream.ofText text).faults = [])
    (hlaid : Lexeme.Laid (Lexeme.words (Lexeme.ofText text.toList)) text'.toList) :
    let stream := TokenStream.ofText text
    let stream' := TokenStream.ofText text'
    let folding := Recasting.folding (stream.reservedTexts ++ stream'.reservedTexts)
    stream.toList.map Token.kind = stream'.toList.map Token.kind
      ∧ ((∃ q, parse text config = .ok q) ↔ ∃ q, parse text' config = .ok q)
      ∧ (Outcome.ofText text config).diagnostics.map Diagnostic.code
        = (Outcome.ofText text' config).diagnostics.map Diagnostic.code
      ∧ (Outcome.ofText text config).query.map (Query.recast folding)
        = (Outcome.ofText text' config).query.map (Query.recast folding)
      ∧ (Outcome.ofText text config).query.map (fun q => upper q.text)
        = (Outcome.ofText text' config).query.map fun q => upper q.text := by
  intro stream stream' folding
  have hbare : ∀ l ∈ Lexeme.ofText text.toList, l.Bare := fun l hl =>
    Lexeme.bare_of_mem_cut hl (hcomments l hl) (List.filterMap_eq_nil_iff.1 hfaults l hl)
  obtain ⟨htokens, hfaults'⟩ := TokenStream.tokens_of_laid hbare hlaid
  have hreserved : ∀ n ∈ stream.reservedTexts ++ stream'.reservedTexts,
      (Keyword.ofName? n).isSome = true := by
    intro n hn
    rcases List.mem_append.1 hn with hn | hn
    · obtain ⟨t, ht, hkeyword, rfl⟩ := mem_reservedTexts.1 hn
      exact TokenStream.ofName?_of_mem_tokens ht hkeyword
    · obtain ⟨t, ht, hkeyword, rfl⟩ := mem_reservedTexts.1 hn
      exact TokenStream.ofName?_of_mem_tokens ht hkeyword
  have hfolded : stream.tokens.map (Grammar.folded (stream.reservedTexts ++ stream'.reservedTexts))
      = stream'.tokens.map (Grammar.folded (stream.reservedTexts ++ stream'.reservedTexts)) :=
    map_folded_eq htokens
    (fun t ht hkeyword => List.mem_append_left _ (mem_reservedTexts.2 ⟨t, ht, hkeyword, rfl⟩))
    (fun t ht hkeyword => List.mem_append_right _ (mem_reservedTexts.2 ⟨t, ht, hkeyword, rfl⟩))
  have hlexical : stream.faults.map (·.cause.code) = stream'.faults.map (·.cause.code) := by
    rw [show stream.faults = [] from hfaults, show stream'.faults = [] from hfaults']
  have houtcome := Outcome.ofTokens_relaid hfolded rfl hlexical config
  have hcodes : (Outcome.ofText text config).faults.map (·.cause.code)
      = (Outcome.ofText text' config).faults.map (·.cause.code) := houtcome.1
  have hquery : (Outcome.ofText text config).query.map (Query.recast folding)
      = (Outcome.ofText text' config).query.map (Query.recast folding) := houtcome.2
  have hkinds : stream.tokens.map Token.kind = stream'.tokens.map Token.kind := by
    have hfst := congrArg (List.map Prod.fst) hfolded
    rw [List.map_map, List.map_map] at hfst
    exact hfst
  refine ⟨?_, ?_, ?_, hquery, ?_⟩
  · unfold TokenStream.toList
    rw [List.map_append, List.map_append, hkinds]
    rfl
  · -- A text is accepted if there is a tree and no code.
    have haccepted (s : String) : (∃ q, parse s config = .ok q)
        ↔ ((Outcome.ofText s config).query.map (Query.recast folding)).isSome = true
          ∧ (Outcome.ofText s config).faults.map (·.cause.code) = [] := by
      simp only [parse_eq_ok_iff, exists_and_right, ← Option.isSome_iff_exists,
        Option.isSome_map, List.map_eq_nil_iff]
    rw [haccepted, haccepted, hquery, hcodes]
  · unfold Outcome.diagnostics
    rw [List.map_map, List.map_map]
    have hsome := congrArg (List.map some) hcodes
    rw [List.map_map, List.map_map] at hsome
    exact hsome
  · have htexts := congrArg (Option.map fun q => upper (Query.text q)) hquery
    rw [Option.map_map, Option.map_map] at htexts
    have hupper : (fun q => upper (Query.text q)) ∘ Query.recast folding
        = fun q => upper (Query.text q) := funext (upper_text_folding hreserved)
    rwa [hupper] at htexts

theorem ofText_relaid_isNull :
    (∃ q, parse "RETURN a IS NULL" = .ok q) ↔ ∃ q, parse "return\ta  is\n null " = .ok q := by
  have hwords : Lexeme.words (Lexeme.ofText "RETURN a IS NULL".toList)
      = [⟨.word, "RETURN".toList, 0, 1⟩, ⟨.word, "a".toList, 7, 1⟩, ⟨.word, "IS".toList, 9, 1⟩,
        ⟨.word, "NULL".toList, 12, 1⟩] := by cbv
  have hcomments : ∀ l ∈ Lexeme.ofText "RETURN a IS NULL".toList, l.form.isComment = false := by
    decide +kernel
  have hgap {gap : List Char} (h : gap.all Lexeme.separates = true) :
      ∀ c ∈ gap, Lexeme.separates c = true := List.all_eq_true.1 h
  have hreserved {l : Lexeme} {spelling : List Char}
      (h : l.form = .word ∧ (Keyword.ofLetters? l.text).isSome
        ∧ spelling.map Char.toUpper = l.text.map Char.toUpper) : l.Respells spelling := .inr h
  have hlaid : Lexeme.Laid (Lexeme.words (Lexeme.ofText "RETURN a IS NULL".toList))
      "return\ta  is\n null ".toList := by
    have hend : Lexeme.Laid [] [' '] := .blank (hgap rfl)
    have hnull : Lexeme.Laid [⟨.word, "NULL".toList, 12, 1⟩]
        (['\n', ' '] ++ ("null".toList ++ [' '])) :=
      .word (hgap rfl) (hreserved (by decide +kernel)) (by decide) hend
    have his : Lexeme.Laid [⟨.word, "IS".toList, 9, 1⟩, ⟨.word, "NULL".toList, 12, 1⟩]
        ([' ', ' '] ++ ("is".toList ++ "\n null ".toList)) :=
      .word (hgap rfl) (hreserved (by decide +kernel)) (by decide) hnull
    have hname : Lexeme.Laid [⟨.word, "a".toList, 7, 1⟩, ⟨.word, "IS".toList, 9, 1⟩,
        ⟨.word, "NULL".toList, 12, 1⟩] (['\t'] ++ (['a'] ++ "  is\n null ".toList)) :=
      .word (hgap rfl) (.inl rfl) (by decide) his
    have hreturn : Lexeme.Laid [⟨.word, "RETURN".toList, 0, 1⟩, ⟨.word, "a".toList, 7, 1⟩,
        ⟨.word, "IS".toList, 9, 1⟩, ⟨.word, "NULL".toList, 12, 1⟩]
        ([] ++ ("return".toList ++ "\ta  is\n null ".toList)) :=
      .word (hgap rfl) (hreserved (by decide +kernel)) (by decide) hname
    rw [hwords]
    exact hreturn
  exact (Outcome.ofText_relaid {} hcomments (by cbv) hlaid).2.1

end Cypher
