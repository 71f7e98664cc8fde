import Cypher.Proofs.Lexing.Cut
import Cypher.Proofs.Token.Bare
import Cypher.Token.Stream

/-!
# The tokens of a legible text

The lexemes of a legible text are read as the tokens of its glyphs, word by
word, and the words of an operator are put together again. No other words
are: a reserved word that an operator starts with is followed by none that
goes on with it, or stands behind a point, or has no space behind it.
-/

namespace Cypher

namespace Glyph

/-! ## Tokens in their places -/

/-- The token of a glyph of one lexeme, in its place. -/
def tokenAt? (g : Glyph) (start line : Nat) : Option Token :=
  Lexeme.token? ⟨g.form, g.chars, start, line⟩

/-- The tokens of a text that starts at a place and is cut where its glyphs
meet. -/
def placed (start line : Nat) (gs : List Glyph) : List Token :=
  (lexemes start line (gs.flatMap spread)).filterMap Lexeme.token?

theorem lexemes_append (start line : Nat) (xs ys : List Glyph) :
    lexemes start line (xs ++ ys) = lexemes start line xs
      ++ lexemes (start + Text.byteLength (xs.flatMap chars))
          (line + Text.newlines (xs.flatMap chars)) ys := by
  induction xs generalizing start line with
  | nil => rfl
  | cons g gs ih =>
    rw [List.cons_append, lexemes, lexemes, ih, List.cons_append, List.flatMap_cons,
      Text.byteLength_append, Text.newlines_append, Nat.add_assoc, Nat.add_assoc]

theorem placed_cons (start line : Nat) (g : Glyph) (gs : List Glyph) :
    placed start line (g :: gs)
      = (lexemes start line g.spread).filterMap Lexeme.token?
        ++ placed (start + Text.byteLength g.chars) (line + Text.newlines g.chars) gs := by
  unfold placed
  rw [List.flatMap_cons, lexemes_append, List.filterMap_append, flatMap_chars_spread]

theorem placed_cons_one {g : Glyph} (hone : g.spread = [g]) (start line : Nat)
    (gs : List Glyph) :
    placed start line (g :: gs)
      = (g.tokenAt? start line).toList
        ++ placed (start + Text.byteLength g.chars) (line + Text.newlines g.chars) gs := by
  rw [placed_cons, hone, lexemes, lexemes, List.filterMap_cons, tokenAt?]
  cases Lexeme.token? ⟨g.form, g.chars, start, line⟩ <;> rfl

theorem filterMap_cons_tokenAt? {g : Glyph} {start line : Nat} {t : Token}
    (h : g.tokenAt? start line = some t) (ls : List Lexeme) :
    (⟨g.form, g.chars, start, line⟩ :: ls).filterMap Lexeme.token?
      = t :: ls.filterMap Lexeme.token? :=
  List.filterMap_cons_some h

/-- A quoted name is read as the name. -/
private theorem body_quotedName (n : String) :
    String.ofList (Text.decodeName (Lexeme.body ⟨.quotedName true, quotedName n.toList, 0, 0⟩
      true)) = n := by
  unfold Lexeme.body quotedName
  rw [if_pos rfl]
  simp [Text.decodeName_encodeName]

/-- A glyph is read as what it means. -/
theorem bare_tokenAt? {g : Glyph} (hg : g.Written) (hone : g.spread = [g])
    (start line : Nat) : (g.tokenAt? start line).map Token.bare = g.token? := by
  unfold tokenAt? Lexeme.token? Lexeme.kind?
  cases g with
  | space => rfl
  | keyword w =>
    simp only [form, chars_keyword, w.ofLetters?_text, String.ofList_toList]
    rfl
  | operator op => rfl
  | mark m => rfl
  | name n =>
    simp only [form, chars_name]
    split
    · next hn =>
      have hnone : Keyword.ofLetters? n.toList = none := hn.2
      simp only [hnone, String.ofList_toList]
      rfl
    · exact congrArg (fun m => some (Token.ofKind (.identifier m))) (body_quotedName n)
  | symbol n =>
    simp only [form, chars_symbol, token?, symbolToken]
    split
    · cases hn : Keyword.ofName? n with
      | none =>
        have hnone : Keyword.ofLetters? n.toList = none := hn
        simp only [hnone, String.ofList_toList]
        rfl
      | some w =>
        have hsome : Keyword.ofLetters? n.toList = some w := hn
        simp only [hsome, String.ofList_toList]
        rfl
    · next hword =>
      cases hn : Keyword.ofName? n with
      | none => exact congrArg (fun m => some (Token.ofKind (.identifier m))) (body_quotedName n)
      | some w => exact absurd (Keyword.isWord_of_ofLetters? hn) hword
  | parameter n =>
    simp only [form, chars_parameter, List.tail_cons, String.ofList_toList]
    rfl
  | number digits =>
    simp only [form, chars_number, token?, numberKind]
    split <;> simp only [String.ofList_toList] <;> rfl
  | string value =>
    have hbody : Lexeme.body ⟨.string true, (string value).chars, start, line⟩ true
        = Text.encodeString value.toList := by
      unfold Lexeme.body
      rw [if_pos rfl]
      simp [chars_string]
    simp only [form, hbody, Text.decodeString_encodeString, String.ofList_toList]
    rfl
  | hole => exact hg.elim

/-- The token of a glyph starts and stops where the glyph does. -/
theorem span_of_tokenAt? {g : Glyph} {start line : Nat} {t : Token}
    (h : g.tokenAt? start line = some t) :
    t.span = ⟨start, start + Text.byteLength g.chars⟩ := by
  unfold tokenAt? Lexeme.token? at h
  rw [Option.map_eq_some_iff] at h
  obtain ⟨_, -, rfl⟩ := h
  rfl

/-- Only spaces are read as nothing. -/
theorem exists_tokenAt? {g : Glyph} (hg : g.Written) (hone : g.spread = [g])
    (hspace : g ≠ .space) (start line : Nat) :
    ∃ t, g.tokenAt? start line = some t ∧ g.token? = some t.bare := by
  have hbare := bare_tokenAt? hg hone start line
  cases ht : g.tokenAt? start line with
  | some t =>
    rw [ht] at hbare
    exact ⟨t, rfl, hbare.symm⟩
  | none =>
    rw [ht] at hbare
    cases g with
    | space => exact absurd rfl hspace
    | hole => exact hg.elim
    | symbol n => cases hbare
    | _ => cases hbare

/-- The tokens of the words of an operator. -/
theorem joined_words (w : Keyword) (ws : List Keyword) :
    joined [.space] ((w :: ws).map fun word => [.keyword word])
      = .keyword w :: ws.flatMap fun word => [.space, .keyword word] := by
  induction ws generalizing w with
  | nil => rfl
  | cons v ws ih =>
    show .keyword w :: .space :: joined [.space] ((v :: ws).map fun word => [.keyword word]) = _
    rw [ih]
    rfl

/-- The first token of what follows stands right there, and is a reserved
word only if the glyph starts with it. -/
theorem placed_head {g : Glyph} (hg : g.Written) (hspace : g ≠ .space) (start line : Nat)
    (gs : List Glyph) :
    ∃ t ahead, placed start line (g :: gs) = t :: ahead ∧ t.span.start = start
      ∧ ∀ v, t.kind = .keyword v → g.firstWord? = some v := by
  obtain hone | ⟨op, rfl, hop, hwords⟩ := spread_eq g
  · obtain ⟨t, ht, htoken⟩ := exists_tokenAt? hg hone hspace start line
    refine ⟨t, _, by rw [placed_cons_one hone, ht]; rfl, ?_, fun v hv => ?_⟩
    · rw [span_of_tokenAt? ht]
    · rw [← Token.kind_bare] at hv
      cases g with
      | space => cases htoken
      | hole => cases htoken
      | symbol n =>
        simp only [token?, symbolToken, Option.some.injEq] at htoken
        rw [← htoken] at hv
        show Keyword.ofName? n = some v
        cases hn : Keyword.ofName? n with
        | none =>
          rw [hn] at hv
          cases hv
        | some w =>
          rw [hn] at hv
          cases hv
          rfl
      | number digits =>
        simp only [token?, Option.some.injEq] at htoken
        rw [← htoken, Token.kind_ofKind] at hv
        unfold numberKind at hv
        split at hv <;> cases hv
      | keyword w =>
        simp only [token?, Option.some.injEq] at htoken
        rw [← htoken] at hv
        cases hv
        rfl
      | _ =>
        simp only [token?, Option.some.injEq] at htoken
        rw [← htoken] at hv
        cases hv
  · obtain ⟨w, ws, hws⟩ := List.exists_cons_of_ne_nil hop
    have hkeyword : (keyword w).Written ∧ (keyword w).spread = [keyword w] := ⟨trivial, rfl⟩
    obtain ⟨t, ht, htoken⟩ := exists_tokenAt? hkeyword.1 hkeyword.2 (by simp) start line
    have hplaced : ∃ ahead, placed start line (.operator op :: gs) = t :: ahead := by
      rw [placed_cons, hwords, hws, joined_words, lexemes, filterMap_cons_tokenAt? ht]
      exact ⟨_, rfl⟩
    obtain ⟨ahead, hplaced⟩ := hplaced
    refine ⟨t, ahead, hplaced, ?_, fun v hv => ?_⟩
    · rw [span_of_tokenAt? ht]
    · rw [← Token.kind_bare] at hv
      simp only [token?, Option.some.injEq] at htoken
      rw [← htoken] at hv
      cases hv
      show op.words.head? = _
      rw [hws]
      rfl

end Glyph

namespace Token

/-! ## Operators of several words -/

/-- Every rule has a second word, and it goes on with what the first
starts. -/
theorem joins_of_mem_wordOperators {rule : WordOperator} (h : rule ∈ wordOperators) :
    ∃ v vs, rule.others = v :: vs ∧ rule.first.joins v = true := by
  unfold wordOperators at h
  simp only [List.mem_cons, List.not_mem_nil, or_false] at h
  rcases h with rfl | rfl | rfl | rfl <;> exact ⟨_, _, rfl, rfl⟩

/-- The word of a rule leads. -/
theorem leads_of_mem_wordOperators {rule : WordOperator} (h : rule ∈ wordOperators) :
    rule.first.leads = true := by
  unfold wordOperators at h
  simp only [List.mem_cons, List.not_mem_nil, or_false] at h
  rcases h with rfl | rfl | rfl | rfl <;> rfl

variable {source : List Char} {first last : Token} {ahead : List Token}

theorem wordOperator?_eq_none
    (h : ∀ rule ∈ wordOperators, first.kind = .keyword rule.first →
      spelled? source first rule.others ahead = none) :
    wordOperator? source first ahead = none := by
  unfold wordOperator?
  rw [List.findSome?_eq_none_iff]
  intro rule hrule
  split
  · next hkind => rw [h rule hrule hkind, Option.map_none]
  · rfl

/-- No two rules apply at one place. -/
theorem wordOperator?_eq_some {rule : WordOperator} (hrule : rule ∈ wordOperators)
    (hkind : first.kind = .keyword rule.first)
    (hspelled : spelled? source first rule.others ahead = some last) :
    wordOperator? source first ahead = some (rule, last) := by
  unfold wordOperators at hrule
  simp only [List.mem_cons, List.not_mem_nil, or_false] at hrule
  unfold wordOperator? wordOperators
  simp only [List.findSome?_cons, List.findSome?_nil]
  rcases hrule with rfl | rfl | rfl | rfl
  · simp [hkind, hspelled]
  · simp [hkind, hspelled]
  · simp [hkind, hspelled]
  · -- The words of `IS NOT NULL` do not spell `IS NULL`.
    have hnot : spelled? source first [.NULL] ahead = none := by
      cases ahead with
      | nil => rfl
      | cons next ahead =>
        rw [spelled?] at hspelled ⊢
        split at hspelled
        · next h => exact if_neg fun h' => by rw [h.1] at h'; cases h'.1
        · cases hspelled
    simp [hkind, hspelled, hnot]

theorem parted_of_stop_eq_start {left right : Token}
    (h : left.span.stop = right.span.start) : parted source left right = false := by
  have hempty (cs : List Char) : Text.takeBytes 0 cs = [] := by
    cases cs with
    | nil => rfl
    | cons c cs => exact if_neg (Nat.not_le.2 (Char.utf8Size_pos c))
  unfold parted Text.slice Span.length
  simp only [h, Nat.sub_self, hempty]
  rfl

end Token

namespace Glyph

variable {source pre post : List Char}

/-- What follows a leading word legibly does not go on with an operator. -/
theorem spelled?_placed_eq_none {gs : List Glyph} (hgs : ∀ g ∈ gs, g.Written)
    {rule : Token.WordOperator} (hrule : rule ∈ Token.wordOperators) {last : Token}
    {e e' : Edge} (h : e.run gs = some e') {start : Nat}
    (he : e = .leading rule.first ∧ last.span.stop = start ∨ e = .parted rule.first)
    (line : Nat) : Token.spelled? source last rule.others (placed start line gs) = none := by
  obtain ⟨v, vs, hothers, hjoins⟩ := Token.joins_of_mem_wordOperators hrule
  rw [hothers]
  induction gs generalizing e start line with
  | nil => rfl
  | cons g gs ih =>
    rw [List.forall_mem_cons] at hgs
    obtain ⟨-, hmisleads, hrun⟩ := Edge.run_cons h
    by_cases hspace : g = .space
    · subst hspace
      have hparted : e.behind .space = .parted rule.first := by
        rcases he with ⟨rfl, -⟩ | rfl <;> rfl
      rw [placed_cons_one rfl]
      exact ih hgs.2 hrun (.inr hparted) _
    · obtain ⟨t, ahead, hplaced, hstart, hfirst⟩ := placed_head hgs.1 hspace start line gs
      rw [hplaced, Token.spelled?, if_neg]
      rintro ⟨hkind, hgap⟩
      rcases he with ⟨-, hstop⟩ | rfl
      · rw [Token.parted_of_stop_eq_start (hstop.trans hstart.symm)] at hgap
        cases hgap
      · have hmisled : g.firstWord?.any rule.first.joins = false := hmisleads
        rw [hfirst v hkind, Option.any_some, hjoins] at hmisled
        cases hmisled

/-- Words behind spaces spell what they are. -/
theorem spelled?_words {words : List Keyword} {last : Token}
    (hsource : source = pre ++ (words.flatMap (fun w => ' ' :: w.text.toList) ++ post))
    (hlast : last.span.stop = Text.byteLength pre) (line : Nat) (ahead : List Token) :
    ∃ tokens t,
      (lexemes (Text.byteLength pre) line
          (words.flatMap fun w => [.space, .keyword w])).filterMap Lexeme.token? = tokens
        ∧ tokens.length = words.length
        ∧ Token.spelled? source last words (tokens ++ ahead) = some t := by
  induction words generalizing pre last line with
  | nil => exact ⟨[], last, rfl, rfl, rfl⟩
  | cons w words ih =>
    have hkeyword : (keyword w).Written ∧ (keyword w).spread = [keyword w] := ⟨trivial, rfl⟩
    have hone : Text.byteLength [' '] = 1 := rfl
    obtain ⟨next, hnext, htoken⟩ := exists_tokenAt? hkeyword.1 hkeyword.2 (by simp)
      (Text.byteLength pre + Text.byteLength [' ']) (line + Text.newlines [' '])
    have hspan := span_of_tokenAt? hnext
    have hkind : next.kind = .keyword w := by
      rw [← Token.kind_bare]
      simp only [token?, Option.some.injEq] at htoken
      rw [← htoken]
      rfl
    have hsource' : source = (pre ++ ' ' :: w.text.toList)
        ++ (words.flatMap (fun w => ' ' :: w.text.toList) ++ post) := by
      rw [hsource, List.flatMap_cons, List.append_assoc, List.append_assoc]
    have hstop : next.span.stop = Text.byteLength (pre ++ ' ' :: w.text.toList) := by
      rw [hspan]
      simp only [Text.byteLength_append, Text.byteLength, chars_keyword]
      omega
    have hparted : Token.parted source last next = true := by
      have hgap := Text.slice_middle pre [' ']
        (w.text.toList ++ (words.flatMap (fun w => ' ' :: w.text.toList) ++ post))
      have hsource'' : source = pre ++ ([' '] ++ (w.text.toList
          ++ (words.flatMap (fun w => ' ' :: w.text.toList) ++ post))) := by
        rw [hsource']
        simp
      unfold Token.parted
      rw [hlast, hspan, hsource'', hgap]
      rfl
    obtain ⟨tokens, t, htokens, hlength, hspelled⟩ := ih hsource' hstop
      (line + Text.newlines [' '] + Text.newlines w.text.toList)
    refine ⟨next :: tokens, t, ?_, congrArg (· + 1) hlength, ?_⟩
    · have hbytes : Text.byteLength (pre ++ ' ' :: w.text.toList)
          = Text.byteLength pre + Text.byteLength [' '] + Text.byteLength w.text.toList := by
        simp only [Text.byteLength_append, Text.byteLength]
        omega
      rw [hbytes] at htokens
      rw [← htokens, List.flatMap_cons]
      show (lexemes _ _ (.space :: .keyword w :: _)).filterMap Lexeme.token? = _
      rw [lexemes, lexemes, List.filterMap_cons_none (f := Lexeme.token?) rfl]
      exact filterMap_cons_tokenAt? hnext _
    · rw [List.cons_append, Token.spelled?, if_pos ⟨hkind, hparted⟩]
      exact hspelled

/-- The words of an operator are put together. -/
theorem mergeFrom_words {op : Operator} (hop : op.words ≠ [])
    (hsource : source = pre ++ (op.text.toList ++ post)) (line : Nat) (ahead : List Token) :
    ∃ t, t.bare = .ofKind (.operator op)
      ∧ Token.mergeFrom source false
          ((lexemes (Text.byteLength pre) line (operator op).spread).filterMap Lexeme.token?
            ++ ahead)
        = t :: Token.mergeFrom source false ahead := by
  have hrule : ∃ rule ∈ Token.wordOperators, rule.operator = op
      ∧ op.words = rule.first :: rule.others := by
    unfold Token.wordOperators
    cases op with
    | startsWith | endsWith | isNull | isNotNull => simp [Operator.words]
    | _ => exact absurd rfl hop
  obtain ⟨rule, hmem, rfl, hwords⟩ := hrule
  have hspread : (operator rule.operator).spread = .keyword rule.first
      :: rule.others.flatMap fun word => [.space, .keyword word] := by
    rw [← joined_words, ← hwords]
    exact if_neg hop
  have htext : rule.operator.text.toList = rule.first.text.toList
      ++ rule.others.flatMap fun w => ' ' :: w.text.toList := by
    have hchars := flatMap_chars_spread (operator rule.operator)
    rw [hspread, List.flatMap_cons, List.flatMap_assoc] at hchars
    exact hchars.symm.trans (by simp [chars_space, chars_keyword])
  have hkeyword : (keyword rule.first).Written
    ∧ (keyword rule.first).spread = [keyword rule.first] := ⟨trivial, rfl⟩
  obtain ⟨first, hfirst, htoken⟩ := exists_tokenAt? hkeyword.1 hkeyword.2 (by simp)
    (Text.byteLength pre) line
  have hkind : first.kind = .keyword rule.first := by
    rw [← Token.kind_bare]
    simp only [token?, Option.some.injEq] at htoken
    rw [← htoken]
    rfl
  have hsource' : source = (pre ++ rule.first.text.toList)
      ++ (rule.others.flatMap (fun w => ' ' :: w.text.toList) ++ post) := by
    rw [hsource, htext, List.append_assoc, List.append_assoc]
  have hstop : first.span.stop = Text.byteLength (pre ++ rule.first.text.toList) := by
    rw [span_of_tokenAt? hfirst, Text.byteLength_append]
    rfl
  obtain ⟨tokens, last, htokens, hlength, hspelled⟩ := spelled?_words hsource' hstop
    (line + Text.newlines rule.first.text.toList) ahead
  refine ⟨Token.fuse source rule.operator first last, rfl, ?_⟩
  rw [Text.byteLength_append] at htokens
  rw [hspread, lexemes, filterMap_cons_tokenAt? hfirst, chars_keyword, htokens,
    List.cons_append, Token.mergeFrom, if_neg Bool.false_ne_true,
    Token.wordOperator?_eq_some hmem hkind hspelled]
  simp only [← hlength, List.drop_left]

/-- A word that leads an operator leaves an edge that says so. -/
theorem behind_of_leads {g : Glyph} {t : Token} (htoken : g.token? = some t.bare)
    {w : Keyword} (hkind : t.kind = .keyword w) (hw : w.leads = true) {e : Edge}
    (he : e ≠ .dot) : e.behind g = .leading w := by
  have hofWord : Edge.ofWord w = .leading w := if_pos hw
  rw [← Token.kind_bare] at hkind
  cases g with
  | keyword v =>
    simp only [token?, Option.some.injEq] at htoken
    rw [← htoken] at hkind
    cases hkind
    rw [← hofWord]
    cases e <;> rfl
  | symbol n =>
    simp only [token?, symbolToken, Option.some.injEq] at htoken
    rw [← htoken] at hkind
    cases hn : Keyword.ofName? n with
    | none =>
      rw [hn] at hkind
      cases hkind
    | some v =>
      rw [hn] at hkind
      cases hkind
      have hbehind : (Keyword.ofName? n).elim .word Edge.ofWord = .leading w := by
        rw [hn]
        exact hofWord
      cases e with
      | dot => exact absurd rfl he
      | _ => exact hbehind
  | number digits =>
    simp only [token?, Option.some.injEq] at htoken
    rw [← htoken, Token.kind_ofKind] at hkind
    unfold numberKind at hkind
    split at hkind <;> cases hkind
  | space | hole => cases htoken
  | _ =>
    simp only [token?, Option.some.injEq] at htoken
    rw [← htoken] at hkind
    cases hkind

/-- A point is known from its token. -/
theorem behind_eq_dot_iff {g : Glyph} {t : Token} (htoken : g.token? = some t.bare)
    (e : Edge) : t.kind = .punctuation .dot ↔ e.behind g = .dot := by
  have hofWord (w : Keyword) : Edge.ofWord w ≠ .dot := by
    unfold Edge.ofWord
    split <;> nofun
  rw [← Token.kind_bare]
  cases g with
  | space | hole => cases htoken
  | mark m =>
    simp only [token?, Option.some.injEq] at htoken
    rw [← htoken]
    cases m <;> cases e <;> simp [Edge.behind, Token.ofKind]
  | keyword w =>
    simp only [token?, Option.some.injEq] at htoken
    rw [← htoken]
    cases e <;> simp [Edge.behind, Token.ofKind, hofWord]
  | symbol n =>
    simp only [token?, symbolToken, Option.some.injEq] at htoken
    rw [← htoken]
    cases hn : Keyword.ofName? n <;> cases e <;> simp [Edge.behind, Token.ofKind, hofWord, hn]
  | operator op =>
    simp only [token?, Option.some.injEq] at htoken
    rw [← htoken]
    cases e <;> simp only [Edge.behind] <;> split <;> simp [Token.ofKind]
  | number digits =>
    simp only [token?, numberKind, Option.some.injEq] at htoken
    rw [← htoken]
    cases e <;> simp only [Edge.behind] <;> split <;> simp [Token.ofKind]
  | _ =>
    simp only [token?, Option.some.injEq] at htoken
    rw [← htoken]
    cases e <;> simp [Edge.behind, Token.ofKind]

/-- The tokens of a legible text are those of its glyphs. -/
theorem mergeFrom_placed {gs : List Glyph} (hgs : ∀ g ∈ gs, g.Written) {e e' : Edge}
    (h : e.run gs = some e') (hsource : source = pre ++ gs.flatMap chars) {afterDot : Bool}
    (hdot : afterDot = true ↔ e = .dot) (line : Nat) :
    (Token.mergeFrom source afterDot (placed (Text.byteLength pre) line gs)).map Token.bare
      = tokens gs := by
  induction gs generalizing pre e afterDot line with
  | nil =>
    show (Token.mergeFrom source afterDot []).map Token.bare = []
    rw [Token.mergeFrom, List.map_nil]
  | cons g gs ih =>
    rw [List.forall_mem_cons] at hgs
    obtain ⟨hbars, hmisleads, hrun⟩ := Edge.run_cons h
    have hsource' : source = (pre ++ g.chars) ++ gs.flatMap chars := by
      rw [hsource, List.flatMap_cons, List.append_assoc]
    have hbytes := Text.byteLength_append pre g.chars
    obtain hone | ⟨op, rfl, hop, -⟩ := spread_eq g
    · rw [placed_cons_one hone, ← hbytes]
      by_cases hspace : g = .space
      · subst hspace
        have hne : e ≠ .dot := by
          rintro rfl
          cases hbars
        have hbehind : e.behind .space ≠ .dot := by
          intro heq
          cases e <;> cases heq
        refine ih hgs.2 hrun hsource' ⟨fun hafter => ?_, fun heq => absurd heq hbehind⟩ _
        exact absurd (hdot.1 hafter) hne
      · obtain ⟨t, ht, htoken⟩ := exists_tokenAt? hgs.1 hone hspace (Text.byteLength pre) line
        have hnone : (if afterDot then none else Token.wordOperator? source t
            (placed (Text.byteLength (pre ++ g.chars)) (line + Text.newlines g.chars) gs))
              = none := by
          split
          · rfl
          · next hafter =>
            have hne : e ≠ .dot := fun heq => hafter (hdot.2 heq)
            refine Token.wordOperator?_eq_none fun rule hrule hkind => ?_
            have hbehind :=
              behind_of_leads htoken hkind (Token.leads_of_mem_wordOperators hrule) hne
            refine spelled?_placed_eq_none hgs.2 hrule hrun (.inl ⟨hbehind, ?_⟩) _
            rw [span_of_tokenAt? ht, hbytes]
        rw [ht, tokens_cons, htoken, Option.toList_some, Option.toList_some,
          List.singleton_append, List.singleton_append, Token.mergeFrom, hnone, List.map_cons, ih hgs.2 hrun hsource' ?_ _]
        rw [decide_eq_true_iff]
        exact behind_eq_dot_iff htoken e
    · have hne : e ≠ .dot := by
        rintro rfl
        have hmisled : (!op.words.isEmpty) = false := hmisleads
        rw [Bool.not_eq_false', List.isEmpty_iff] at hmisled
        exact hop hmisled
      have hafter : afterDot = false :=
        Bool.not_eq_true _ ▸ fun hafter => hne (hdot.1 hafter)
      have hbehind : e.behind (.operator op) = .word := by
        cases e <;> exact if_neg hop
      subst hafter
      rw [placed_cons]
      obtain ⟨t, hbare, hmerge⟩ := mergeFrom_words hop
        (hsource'.trans (List.append_assoc _ _ _)) line
        (placed (Text.byteLength pre + Text.byteLength (operator op).chars)
          (line + Text.newlines (operator op).chars) gs)
      rw [hmerge, List.map_cons, hbare, ← hbytes, ih hgs.2 hrun hsource' ?_ _]
      · rfl
      · rw [hbehind]
        simp

/-- A legible text has no faults, and its tokens are those of its glyphs. -/
theorem ofChars_legible {gs : List Glyph} (hgs : ∀ g ∈ gs, g.Written) {e : Edge}
    (h : Edge.clear.run gs = some e) :
    (TokenStream.ofChars (gs.flatMap chars)).faults = []
      ∧ (TokenStream.ofChars (gs.flatMap chars)).tokens.map Token.bare = tokens gs := by
  unfold TokenStream.ofChars Lexeme.ofText
  simp only [cut_legible hgs h]
  refine ⟨fault?_lexemes (fun p hp => ?_) _ _, ?_⟩
  · rw [List.mem_flatMap] at hp
    obtain ⟨g, hg, hp⟩ := hp
    exact (written_spread (hgs g hg) p hp).1
  · have hstart : false = true ↔ Edge.clear = .dot := by simp
    exact mergeFrom_placed hgs h (List.nil_append _).symm hstart 1

end Glyph

end Cypher
