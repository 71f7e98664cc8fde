import Mathlib.Data.List.Chain
import Cypher.Proofs.Lexing.Order

/-!
# Where lexemes and tokens stand

A piece of a text has a PLACE: the span between two ends that lie between
characters, and the line on which it starts, which counts the newlines in
front of it. Lexemes follow one another without a gap, so each stands where
its offset and its line say. Tokens inherit their places from lexemes, also
the operators of several words, which stretch from one lexeme to another.
-/

namespace Cypher

namespace Text

/-! ## Places in a text -/

/-- The offset lies between two characters of the text, or at one of its ends. -/
def IsBoundary (text : List Char) (offset : Nat) : Prop :=
  ∃ before after, text = before ++ after ∧ offset = byteLength before

/-- The line on which an offset lies. -/
def lineAt (text : List Char) (offset : Nat) : Nat := 1 + newlines (takeBytes offset text)

/-- The piece stands in the text under the span, and starts on the line. -/
def Stands (text piece : List Char) (s : Span) (line : Nat) : Prop :=
  ∃ before after, text = before ++ (piece ++ after)
    ∧ s = ⟨byteLength before, byteLength before + byteLength piece⟩
    ∧ line = 1 + newlines before

theorem byteLength_pos {piece : List Char} (h : piece ≠ []) : 0 < byteLength piece := by
  cases piece with
  | nil => exact absurd rfl h
  | cons c cs => exact Nat.add_pos_left c.utf8Size_pos _

theorem eq_nil_of_byteLength {piece : List Char} (h : byteLength piece = 0) : piece = [] := by
  cases piece with
  | nil => rfl
  | cons c cs =>
    have hpos := byteLength_pos (List.cons_ne_nil c cs)
    omega

/-- Of two cuts of a text, the one at the greater offset lies behind the other. -/
theorem exists_between {before after before' after' : List Char}
    (h : before ++ after = before' ++ after')
    (hle : byteLength before ≤ byteLength before') :
    ∃ between, before' = before ++ between ∧ after = between ++ after' := by
  rcases List.append_eq_append_iff.1 h with ⟨between, hbefore, hafter⟩ | ⟨between, hbefore, hafter⟩
  · exact ⟨between, hbefore, hafter⟩
  · have hnil : between = [] := by
      apply eq_nil_of_byteLength
      rw [hbefore, byteLength_append] at hle
      omega
    subst hnil
    rw [List.append_nil] at hbefore
    exact ⟨[], by rw [hbefore, List.append_nil], hafter.symm⟩

/-- What stands between two boundaries is what the span between them cuts out. -/
theorem stands_slice {text : List Char} {start stop : Nat} (hstart : IsBoundary text start)
    (hstop : IsBoundary text stop) (hle : start ≤ stop) :
    Stands text (slice text ⟨start, stop⟩) ⟨start, stop⟩ (lineAt text start) := by
  obtain ⟨before, after, htext, rfl⟩ := hstart
  obtain ⟨before', after', htext', rfl⟩ := hstop
  obtain ⟨between, rfl, rfl⟩ := exists_between (htext.symm.trans htext') hle
  have hslice : slice text ⟨byteLength before, byteLength (before ++ between)⟩ = between := by
    rw [htext, byteLength_append]
    exact slice_middle before between after'
  refine ⟨before, after', by rw [hslice, htext], by rw [hslice, byteLength_append], ?_⟩
  rw [lineAt, htext, takeBytes_append]

/-- Both ends of the span lie between characters of the text, in this order. -/
structure Bounds (text : List Char) (s : Span) : Prop where
  start : IsBoundary text s.start
  stop : IsBoundary text s.stop
  ordered : s.start ≤ s.stop

namespace Stands

variable {text piece : List Char} {s : Span} {line : Nat}

theorem slice_eq (h : Stands text piece s line) : slice text s = piece := by
  obtain ⟨before, after, rfl, rfl, -⟩ := h
  exact slice_middle before piece after

theorem line_eq (h : Stands text piece s line) : line = lineAt text s.start := by
  obtain ⟨before, after, rfl, rfl, rfl⟩ := h
  rw [lineAt, takeBytes_append]

theorem start_boundary (h : Stands text piece s line) : IsBoundary text s.start := by
  obtain ⟨before, after, rfl, rfl, -⟩ := h
  exact ⟨before, piece ++ after, rfl, rfl⟩

theorem stop_boundary (h : Stands text piece s line) : IsBoundary text s.stop := by
  obtain ⟨before, after, rfl, rfl, -⟩ := h
  exact ⟨before ++ piece, after, (List.append_assoc _ _ _).symm, (byteLength_append _ _).symm⟩

theorem start_le_stop (h : Stands text piece s line) : s.start ≤ s.stop := by
  obtain ⟨before, after, -, rfl, -⟩ := h
  exact Nat.le_add_right _ _

theorem bounds (h : Stands text piece s line) : Bounds text s :=
  ⟨h.start_boundary, h.stop_boundary, h.start_le_stop⟩

end Stands

/-- A boundary lies inside the text. -/
theorem IsBoundary.le {text : List Char} {offset : Nat} (h : IsBoundary text offset) :
    offset ≤ byteLength text := by
  obtain ⟨before, after, rfl, rfl⟩ := h
  rw [byteLength_append]
  exact Nat.le_add_right _ _

/-- The end of the text stands behind all of it. -/
theorem stands_end (text : List Char) :
    Stands text [] ⟨byteLength text, byteLength text⟩ (1 + newlines text) :=
  ⟨text, [], by simp, rfl, rfl⟩

/-- What stands between two boundaries is parted by a boundary between them. -/
theorem slice_append {text : List Char} {start middle stop : Nat} (hstart : IsBoundary text start)
    (hmiddle : IsBoundary text middle) (hstop : IsBoundary text stop) (hle : start ≤ middle)
    (hle' : middle ≤ stop) :
    slice text ⟨start, stop⟩ = slice text ⟨start, middle⟩ ++ slice text ⟨middle, stop⟩ := by
  obtain ⟨before, after, htext, rfl⟩ := hstart
  obtain ⟨before', after', htext', rfl⟩ := hmiddle
  obtain ⟨before'', after'', htext'', rfl⟩ := hstop
  obtain ⟨front, rfl, rfl⟩ := exists_between (htext.symm.trans htext') hle
  obtain ⟨back, rfl, rfl⟩ := exists_between (htext'.symm.trans htext'') hle'
  have hwhole := slice_middle before (front ++ back) after''
  have hfront := slice_middle before front (back ++ after'')
  have hback := slice_middle (before ++ front) back after''
  rw [List.append_assoc] at hwhole hback
  rw [htext]
  simp only [byteLength_append, ← Nat.add_assoc] at hwhole hfront hback ⊢
  rw [hwhole, hfront, hback]

/-- What stands under a span is part of what stands under any wider one. -/
theorem Stands.mem_slice {text piece : List Char} {s : Span} {line start stop : Nat}
    (h : Stands text piece s line) (hstart : IsBoundary text start)
    (hstop : IsBoundary text stop) (hle : start ≤ s.start) (hle' : s.stop ≤ stop) {c : Char}
    (hc : c ∈ piece) : c ∈ slice text ⟨start, stop⟩ := by
  have hbehind := Nat.le_trans h.start_le_stop hle'
  rw [slice_append hstart h.start_boundary hstop hle hbehind,
    slice_append h.start_boundary h.stop_boundary hstop h.start_le_stop hle', h.slice_eq]
  simp [hc]

end Text

namespace Lexeme

/-! ## How a lexeme has been measured -/

/-- The ways to measure a lexeme, told apart by its first character. -/
inductive Measured (c : Char) (ahead : List Char) (form : Form) (n : Nat) : Prop
  | separator (first : separates c = true) (hform : form = .separator) (hn : n = 0)
  | number (first : c.isDigit = true) (h : number ahead = (form, n))
  | word (first : startsWord c = true) (hform : form = .word) (hn : n = run continuesWord ahead)
  | dollar (first : c = '$') (h : afterDollar ahead = (form, n))
  | slash (first : c = '/') (h : afterSlash ahead = (form, n))
  | string (first : c = '\'' ∨ c = '"') (closed : Bool) (hform : form = .string closed)
    (h : quotedBody c false ahead = (n, closed))
  | name (first : c = Text.grave) (closed : Bool) (hform : form = .quotedName closed)
    (h : quotedBody c true ahead = (n, closed))
  | symbol (first : separates c = false) (h : symbol c ahead = (form, n))

section Measured

variable {c : Char} {ahead : List Char} {form : Form} {n : Nat}

theorem measured (h : measure c ahead = (form, n)) : Measured c ahead form n := by
  unfold measure at h
  split at h
  · next hsep => exact .separator hsep (Prod.mk.inj h).1.symm (Prod.mk.inj h).2.symm
  next hsep =>
  split at h
  · next hdigit => exact .number hdigit h
  split at h
  · next hword => exact .word hword (Prod.mk.inj h).1.symm (Prod.mk.inj h).2.symm
  split at h
  · next hdollar => exact .dollar hdollar h
  split at h
  · next hslash => exact .slash hslash h
  split at h
  · next hquote =>
    obtain ⟨hform, hn⟩ := Prod.mk.inj h
    exact .string hquote _ hform.symm (by rw [← hn])
  split at h
  · next hgrave =>
    obtain ⟨hform, hn⟩ := Prod.mk.inj h
    exact .name hgrave _ hform.symm (by rw [← hn])
  · exact .symbol (Bool.eq_false_iff.2 hsep) h

theorem form_number (h : number ahead = (form, n)) : form = .integer ∨ form = .float := by
  unfold number at h
  dsimp only at h
  split at h
  · split at h
    · exact .inl (Prod.mk.inj h).1.symm
    · exact .inr (Prod.mk.inj h).1.symm
  · exact .inl (Prod.mk.inj h).1.symm

theorem form_afterDollar (h : afterDollar ahead = (form, n)) :
    form = .parameter ∨ form = .illegal ∧ n = 0 := by
  unfold afterDollar at h
  split at h
  · split at h
    · exact .inl (Prod.mk.inj h).1.symm
    · exact .inr ⟨(Prod.mk.inj h).1.symm, (Prod.mk.inj h).2.symm⟩
  · exact .inr ⟨(Prod.mk.inj h).1.symm, (Prod.mk.inj h).2.symm⟩

theorem form_afterSlash (h : afterSlash ahead = (form, n)) :
    form = .lineComment ∨ (∃ closed, form = .blockComment closed) ∨ form = .operator .slash := by
  unfold afterSlash at h
  split at h
  · exact .inl (Prod.mk.inj h).1.symm
  · split at h
    · exact .inr (.inl ⟨true, (Prod.mk.inj h).1.symm⟩)
    · exact .inr (.inl ⟨false, (Prod.mk.inj h).1.symm⟩)
  · exact .inr (.inr (Prod.mk.inj h).1.symm)

theorem form_symbol (h : symbol c ahead = (form, n)) :
    (∃ op, form = .operator op) ∨ (∃ mark, form = .punctuation mark)
      ∨ form = .illegal ∧ n = 0 := by
  unfold symbol at h
  split at h <;> obtain ⟨rfl, rfl⟩ := Prod.mk.inj h <;> simp

end Measured

/-- A lexeme has been measured where it stands, and the cut goes on right behind it. -/
theorem exists_cut {start line : Nat} {text : List Char} {l : Lexeme}
    (h : l ∈ cut start line text) :
    ∃ front before c ahead n, text = before ++ c :: ahead ∧ measure c ahead = (l.form, n)
      ∧ l.text = c :: ahead.take n ∧ l.start = start + Text.byteLength before
      ∧ l.line = line + Text.newlines before
      ∧ cut start line text
        = front ++ l :: cut l.stop (l.line + Text.newlines l.text) (ahead.drop n) := by
  fun_induction cut start line text with
  | case1 => cases h
  | case2 start line c rest form n hm piece ih =>
    rcases List.mem_cons.1 h with rfl | hmem
    · exact ⟨[], [], c, rest, n, rfl, hm, rfl, rfl, rfl, rfl⟩
    · obtain ⟨front, before, d, ahead, m, hrest, hmeasure, hpiece, hstart, hline, hcut⟩ := ih hmem
      have htext : c :: rest = (piece ++ before) ++ d :: ahead := by
        rw [List.append_assoc, ← hrest, List.cons_append, List.take_append_drop]
      have hbytes := Text.byteLength_append piece before
      have hlines := Text.newlines_append piece before
      exact ⟨_ :: front, piece ++ before, d, ahead, m, htext, hmeasure, hpiece, by omega, by omega,
        congrArg _ hcut⟩

/-- A lexeme has been measured where it stands. -/
theorem exists_measure {start line : Nat} {text : List Char} {l : Lexeme}
    (h : l ∈ cut start line text) :
    ∃ before c ahead n, text = before ++ c :: ahead ∧ measure c ahead = (l.form, n)
      ∧ l.text = c :: ahead.take n ∧ l.start = start + Text.byteLength before
      ∧ l.line = line + Text.newlines before := by
  obtain ⟨-, before, c, ahead, n, htext, hmeasure, hpiece, hstart, hline, -⟩ := exists_cut h
  exact ⟨before, c, ahead, n, htext, hmeasure, hpiece, hstart, hline⟩

/-- Every lexeme of a text stands where it says. -/
theorem stands {text : List Char} {l : Lexeme} (h : l ∈ ofText text) :
    Text.Stands text l.text l.span l.line := by
  obtain ⟨before, c, ahead, n, htext, -, hpiece, hstart, hline⟩ := exists_measure h
  rw [Nat.zero_add] at hstart
  refine ⟨before, ahead.drop n, ?_, by rw [span, hstart], hline⟩
  rw [htext, hpiece, List.cons_append, List.take_append_drop]

/-- No lexeme is without characters. -/
theorem text_ne_nil {text : List Char} {l : Lexeme} (h : l ∈ ofText text) : l.text ≠ [] := by
  obtain ⟨before, c, ahead, n, -, -, hpiece, -, -⟩ := exists_measure h
  rw [hpiece]
  exact List.cons_ne_nil _ _

/-- Every byte of a text belongs to a lexeme. -/
theorem exists_mem_cut {start offset : Nat} {text : List Char} (hle : start ≤ offset)
    (hlt : offset < start + Text.byteLength text) (line : Nat) :
    ∃ l ∈ cut start line text, l.start ≤ offset ∧ offset < l.stop := by
  fun_induction cut start line text with
  | case1 => exact absurd hlt (Nat.not_lt.2 hle)
  | case2 start line c rest form n hm piece ih =>
    have hwhole : Text.byteLength (c :: rest)
        = Text.byteLength piece + Text.byteLength (rest.drop n) := by
      rw [← Text.byteLength_append, List.cons_append, List.take_append_drop]
    by_cases hhere : offset < start + Text.byteLength piece
    · exact ⟨_, List.mem_cons_self, hle, hhere⟩
    · obtain ⟨l, hl, hstart, hstop⟩ := ih (by omega) (by omega)
      exact ⟨l, List.mem_cons_of_mem _ hl, hstart, hstop⟩

end Lexeme

/-! ## Tokens put together -/

namespace Token

/-- The tokens of the second list are those of the first, in order, except that
some runs of tokens parted by white space have become one operator each. -/
inductive Folded (source : List Char) : List Token → List Token → Prop
  | nil : Folded source [] []
  | keep (t : Token) {ts us : List Token} (rest : Folded source ts us) :
    Folded source (t :: ts) (t :: us)
  | fuse (rule : WordOperator) (first last : Token) (others : List Token) {ts us : List Token}
    (listed : rule ∈ wordOperators) (words : others.map kind = rule.others.map .keyword)
    (gaps : (first :: others).IsChain fun t u => parted source t u = true)
    (ends : (first :: others).getLast? = some last) (rest : Folded source ts us) :
    Folded source (first :: (others ++ ts)) (fuse source rule.operator first last :: us)

/-- The words of an operator are a run of tokens parted by white space. -/
theorem exists_run_of_spelled? {source : List Char} {first last : Token} {words : List Keyword}
    {ahead : List Token} (h : spelled? source first words ahead = some last) :
    ∃ run rest, ahead = run ++ rest ∧ run.map kind = words.map .keyword
      ∧ (first :: run).IsChain (fun t u => parted source t u = true)
      ∧ (first :: run).getLast? = some last := by
  fun_induction spelled? source first words ahead with
  | case1 last' ahead => exact ⟨[], ahead, rfl, rfl, .singleton _, h⟩
  | case2 => cases h
  | case3 first word words next ahead hnext ih =>
    obtain ⟨run, rest, rfl, hwords, hchain, hlast⟩ := ih h
    refine ⟨next :: run, rest, rfl, ?_, .cons_cons hnext.2 hchain, ?_⟩
    · rw [List.map_cons, List.map_cons, hnext.1, hwords]
    · rw [List.getLast?_cons_cons, hlast]
  | case4 => cases h

theorem folded_mergeFrom (source : List Char) (afterDot : Bool) (tokens : List Token) :
    Folded source tokens (mergeFrom source afterDot tokens) := by
  fun_induction mergeFrom source afterDot tokens with
  | case1 => exact .nil
  | case2 afterDot t ahead rule last hrule ih =>
    obtain ⟨hlisted, -, hspelled⟩ : rule ∈ wordOperators ∧ t.kind = .keyword rule.first
        ∧ spelled? source t rule.others ahead = some last := by
      split at hrule
      · cases hrule
      · exact spelled_of_wordOperator? hrule
    obtain ⟨run, rest, rfl, hwords, hchain, hlast⟩ := exists_run_of_spelled? hspelled
    have hlength : rule.others.length = run.length := by
      simpa only [List.length_map] using (congrArg List.length hwords).symm
    rw [hlength, List.drop_left] at ih ⊢
    exact .fuse rule t last run hlisted hwords hchain hlast ih
  | case3 afterDot t ahead hrule ih => exact .keep t ih

/-- The tokens stand in the source, one behind the other. -/
structure Placed (source : List Char) (tokens : List Token) : Prop where
  bounds : ∀ t ∈ tokens, Text.Bounds source t.span
  apart : Token.Apart tokens

section Placed

variable {source : List Char} {t u : Token} {ahead tokens : List Token}

theorem Placed.drop (h : Placed source tokens) (n : Nat) : Placed source (tokens.drop n) where
  bounds u hu := h.bounds u (List.mem_of_mem_drop hu)
  apart := ⟨fun u hu => h.apart.nonempty u (List.mem_of_mem_drop hu),
    h.apart.apart.sublist (List.drop_sublist _ _)⟩

/-- What stands between a token and a later one is a part of the text. -/
theorem Placed.gap (h : Placed source (t :: ahead)) (hu : u ∈ ahead) :
    Text.Bounds source ⟨t.span.stop, u.span.start⟩ where
  start := (h.bounds t List.mem_cons_self).stop
  stop := (h.bounds u (List.mem_cons_of_mem _ hu)).start
  ordered := (List.pairwise_cons.1 h.apart.apart).1 u hu

/-- So is what stands from a token to a later one, both included. -/
theorem Placed.run (h : Placed source (t :: ahead)) (hu : u ∈ t :: ahead) :
    Text.Bounds source ⟨t.span.start, u.span.stop⟩ where
  start := (h.bounds t List.mem_cons_self).start
  stop := (h.bounds u hu).stop
  ordered := by
    have hfirst := (h.bounds t List.mem_cons_self).ordered
    rcases List.mem_cons.1 hu with rfl | hu
    · exact hfirst
    · exact Nat.le_trans (Nat.le_trans hfirst (h.gap hu).ordered)
        (h.bounds u (List.mem_cons_of_mem _ hu)).ordered

end Placed

end Token

namespace TokenStream

/-- A token stands where its lexeme does. -/
theorem stands_of_token? {text : List Char} {l : Lexeme} {t : Token} (hl : l ∈ Lexeme.ofText text)
    (h : l.token? = some t) : Text.Stands text t.text.toList t.span t.line := by
  obtain ⟨kind, -, rfl⟩ := Option.map_eq_some_iff.1 h
  show Text.Stands text (String.ofList l.text).toList l.span l.line
  rw [String.toList_ofList]
  exact Lexeme.stands hl

theorem placed_lexemes (text : List Char) :
    Token.Placed text ((Lexeme.ofText text).filterMap Lexeme.token?) where
  bounds t ht := by
    obtain ⟨l, hl, htoken⟩ := List.mem_filterMap.1 ht
    exact (stands_of_token? hl htoken).bounds
  apart := apart_lexemes text

/-- Every token of a text stands where it says, however it has been put together. -/
theorem stands_of_mem {text : List Char} {t : Token} (h : t ∈ (ofChars text).tokens) :
    Text.Stands text t.text.toList t.span t.line := by
  have hlt := (apart_tokens text).nonempty t h
  have hraw : ∀ u ∈ (Lexeme.ofText text).filterMap Lexeme.token?,
      Text.Stands text u.text.toList u.span u.line := by
    intro u hu
    obtain ⟨l, hl, htoken⟩ := List.mem_filterMap.1 hu
    exact stands_of_token? hl htoken
  have hfolded : Token.Folded text ((Lexeme.ofText text).filterMap Lexeme.token?)
      (ofChars text).tokens := Token.folded_mergeFrom text false _
  generalize (Lexeme.ofText text).filterMap Lexeme.token? = raw at hraw hfolded
  generalize (ofChars text).tokens = tokens at h hfolded
  induction hfolded with
  | nil => cases h
  | keep u _ ih =>
    rw [List.forall_mem_cons] at hraw
    rcases List.mem_cons.1 h with rfl | hmem
    · exact hraw.1
    · exact ih hraw.2 hmem
  | fuse rule first last others _ _ gaps ends _ ih =>
    rw [← List.cons_append, List.forall_mem_append] at hraw
    rcases List.mem_cons.1 h with rfl | hmem
    · have hfirst := hraw.1 first List.mem_cons_self
      have hlast := hraw.1 last (List.mem_of_getLast? ends)
      have hplace := Text.stands_slice hfirst.start_boundary hlast.stop_boundary
        (Nat.le_of_lt hlt)
      rw [← hfirst.line_eq] at hplace
      show Text.Stands text (String.ofList _).toList _ _
      rw [String.toList_ofList]
      exact hplace
    · exact ih hraw.2 hmem

/-- The end of the text is a token without characters. -/
theorem stands_eof (text : List Char) :
    Text.Stands text (eofOf text).text.toList (eofOf text).span (eofOf text).line :=
  Text.stands_end text

/-- The token shows what stands under its span: some characters of the text, and the
line on which they start. -/
structure Shown (text : List Char) (t : Token) : Prop where
  nonempty : t.span.start < t.span.stop
  bounds : Text.Bounds text t.span
  text_eq : t.text.toList = Text.slice text t.span
  line_eq : t.line = Text.lineAt text t.span.start

end TokenStream

end Cypher
