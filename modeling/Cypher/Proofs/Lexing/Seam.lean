import Cypher.Proofs.Lexing.Merge
import Cypher.Proofs.Lexing.Place
import Cypher.Proofs.Lexing.Respaced

/-!
# A newline between two texts

Of all that starts in a line, only a comment in its delimiters and a quoted
name can reach into the next one. Where none of these is left open, a text
with a newline and another text behind it is cut into the lexemes of the one,
a separator, and the lexemes of the other, which stand further on by as much
as is in front of them.

Its tokens are those of the one and of the other, unless an operator of several
words has its first words in front of the newline and the others behind it.
-/

namespace Cypher

/-! ## Moving on -/

/-- The span further on by some bytes. -/
def Span.shift (bytes : Nat) (s : Span) : Span := ⟨s.start + bytes, s.stop + bytes⟩

/-- The lexeme with bytes and lines in front of its text. -/
def Lexeme.shift (bytes lines : Nat) (l : Lexeme) : Lexeme :=
  { l with start := l.start + bytes, line := l.line + lines }

/-- The token with bytes and lines in front of its text. -/
def Token.shift (bytes lines : Nat) (t : Token) : Token :=
  { t with span := t.span.shift bytes, line := t.line + lines }

/-- The fault with bytes and lines in front of its text. -/
def Fault.shift (bytes lines : Nat) (f : Fault) : Fault :=
  { f with site := { f.site with span := f.site.span.shift bytes, line := f.site.line + lines } }

namespace Lexeme

variable {c : Char} {ahead : List Char} {form : Form} {n : Nat}

/-! ## Measuring before a newline -/

/-- A body that is closed is the same in front of anything. -/
theorem commentBody?_append {text : List Char} {n : Nat} (h : commentBody? text = some n)
    (rest : List Char) : n ≤ text.length ∧ commentBody? (text ++ rest) = some n := by
  fun_induction commentBody? text generalizing n with
  | case1 => cases h
  | case2 c text hclose =>
    cases h
    obtain ⟨rfl, hslash⟩ := hclose
    cases text with
    | nil => cases hslash
    | cons d text =>
      cases hslash
      exact ⟨by simp, rfl⟩
  | case3 c text hopen ih =>
    obtain ⟨m, hm, rfl⟩ := Option.map_eq_some_iff.1 h
    obtain ⟨hle, hsame⟩ := ih hm
    have hopen' : ¬ (c = '*' ∧ (text ++ rest).head? = some '/') := by
      rintro ⟨hstar, hslash⟩
      cases text with
      | nil => cases hm
      | cons d text => exact hopen ⟨hstar, hslash⟩
    refine ⟨by simpa using hle, ?_⟩
    rw [List.cons_append, commentBody?, if_neg hopen', hsame]
    rfl

/-- The forms that go on beyond a newline. -/
def Form.isOpen : Form → Bool
  | .blockComment false | .quotedName false => true
  | _ => false

theorem run_newline (holds : Char → Bool) (hline : holds '\n' = false) (ahead rest : List Char) :
    run holds ahead ≤ ahead.length
      ∧ run holds (ahead ++ '\n' :: rest) = run holds ahead := by
  obtain ⟨front, back, rfl, hfront, hback⟩ := exists_run holds ahead
  have hback' : ∀ d ∈ (back ++ '\n' :: rest).head?, holds d = false := by
    cases back with
    | nil =>
      intro d hd
      cases hd
      exact hline
    | cons d back => exact hback
  rw [run_append hfront hback, List.append_assoc, run_append hfront hback', List.length_append]
  exact ⟨Nat.le_add_right _ _, rfl⟩

/-- A number without a point is an integer. -/
theorem number_integer {digits tail : List Char} (hdigits : ∀ d ∈ digits, d.isDigit = true)
    (htail : ∀ d ∈ tail.head?, d.isDigit = false) (hpoint : tail.head? ≠ some '.') :
    number (digits ++ tail) = (.integer, digits.length) := by
  unfold number
  simp only [run_append hdigits htail, List.drop_left]
  split
  · exact absurd rfl hpoint
  · rfl

theorem number_newline (h : number ahead = (form, n)) (rest : List Char) :
    n ≤ ahead.length ∧ number (ahead ++ '\n' :: rest) = (form, n) := by
  obtain ⟨digits, tail, rfl, hdigits, htail⟩ := exists_run Char.isDigit ahead
  have htail' : ∀ d ∈ (tail ++ '\n' :: rest).head?, d.isDigit = false := by
    cases tail with
    | nil => exact fun d hd => by cases hd; rfl
    | cons d tail => exact htail
  by_cases hpoint : tail.head? = some '.'
  · -- The point belongs to the number or not by what stands in front of the newline.
    obtain ⟨fraction, rfl⟩ : ∃ fraction, tail = '.' :: fraction := by
      cases tail <;> cases hpoint
      exact ⟨_, rfl⟩
    obtain ⟨hle, hsame⟩ := run_newline Char.isDigit rfl fraction rest
    rw [List.append_assoc]
    unfold number at h ⊢
    simp only [run_append hdigits htail, run_append hdigits htail', List.drop_left] at h ⊢
    simp only [List.cons_append, hsame] at h ⊢
    refine ⟨?_, h⟩
    split at h <;> cases h <;> simp only [List.length_append, List.length_cons] <;> omega
  · have hpoint' : (tail ++ '\n' :: rest).head? ≠ some '.' := by
      cases tail with
      | nil => exact fun h => absurd (Option.some.inj h) (by decide)
      | cons d tail => exact hpoint
    rw [number_integer hdigits htail hpoint] at h
    cases h
    exact ⟨by simp, by rw [List.append_assoc, number_integer hdigits htail' hpoint']⟩

theorem afterDollar_newline (h : afterDollar ahead = (form, n)) (rest : List Char) :
    n ≤ ahead.length ∧ afterDollar (ahead ++ '\n' :: rest) = (form, n) := by
  cases ahead with
  | nil =>
    cases h
    exact ⟨Nat.le_refl _, rfl⟩
  | cons d ahead =>
    obtain ⟨hle, hsame⟩ := run_newline continuesWord rfl ahead rest
    unfold afterDollar at h ⊢
    simp only [List.cons_append, hsame] at h ⊢
    split at h <;> cases h
    · exact ⟨Nat.succ_le_succ hle, if_pos ‹_›⟩
    · exact ⟨Nat.zero_le _, if_neg ‹_›⟩

theorem afterSlash_newline (h : afterSlash ahead = (form, n)) (hform : form.isOpen = false)
    (rest : List Char) :
    n ≤ ahead.length ∧ afterSlash (ahead ++ '\n' :: rest) = (form, n) := by
  unfold afterSlash at h
  split at h
  · next ahead =>
    obtain ⟨hle, hsame⟩ := run_newline (· ≠ '\n') rfl ahead rest
    cases h
    exact ⟨Nat.succ_le_succ hle, by unfold afterSlash; simp only [List.cons_append, hsame]⟩
  · next ahead =>
    split at h
    · next m hbody =>
      obtain ⟨hle, hsame⟩ := commentBody?_append hbody ('\n' :: rest)
      cases h
      exact ⟨Nat.succ_le_succ hle, by unfold afterSlash; simp only [List.cons_append, hsame]⟩
    · cases h
      cases hform
  · next hline hblock =>
    cases h
    refine ⟨Nat.zero_le _, ?_⟩
    cases ahead with
    | nil => rfl
    | cons d ahead =>
      unfold afterSlash
      split
      · next heq => exact absurd (congrArg (· :: ahead) (List.cons.inj heq).1) (hline ahead)
      · next heq => exact absurd (congrArg (· :: ahead) (List.cons.inj heq).1) (hblock ahead)
      · rfl

/-- A body that a line end stops is the same in front of one. -/
theorem quotedBody_newline {quote : Char} (hquote : quote ≠ '\n') (hslash : quote ≠ '\\')
    {closed : Bool} (h : quotedBody quote false ahead = (n, closed)) (rest : List Char) :
    n ≤ ahead.length ∧ quotedBody quote false (ahead ++ '\n' :: rest) = (n, closed) := by
  fun_induction quotedBody quote false ahead generalizing n closed with
  | case1 =>
    cases h
    refine ⟨Nat.le_refl _, ?_⟩
    rw [List.nil_append, quotedBody, if_neg hquote.symm, if_pos ⟨rfl, rfl⟩]
    · intro h
      cases h
    · intro _ _ h
      cases h
  | case2 =>
    cases h
    exact ⟨Nat.le_refl _, by rw [List.singleton_append, quotedBody, if_pos ⟨rfl, rfl⟩]⟩
  | case3 c more hstop =>
    cases h
    exact ⟨by simp, by rw [List.cons_append, List.cons_append, quotedBody, if_pos hstop]⟩
  | case4 c more hgo m closed' hmore ih =>
    cases h
    obtain ⟨hle, hsame⟩ := ih hmore
    refine ⟨by simpa using hle, ?_⟩
    rw [List.cons_append, List.cons_append, quotedBody, if_neg hgo, hsame]
  | case5 more =>
    cases h
    refine ⟨by simp, ?_⟩
    rw [List.cons_append, quotedBody, if_pos rfl]
    · exact fun h => absurd h hslash
    · exact fun _ _ h => absurd h hslash
  | case6 c more hend hpair hne hstop =>
    cases h
    obtain ⟨rfl, -⟩ := hstop
    refine ⟨Nat.zero_le _, ?_⟩
    rw [List.cons_append, quotedBody, if_neg hne, if_pos ⟨rfl, rfl⟩]
    · intro h
      cases h
    · intro _ _ h
      cases h
  | case7 c more hend hpair hne hgo m closed' hmore ih =>
    cases h
    obtain ⟨hle, hsame⟩ := ih hmore
    have hc : c ≠ '\\' := by
      rintro rfl
      cases more with
      | nil => exact hend rfl rfl
      | cons d ds => exact hpair d ds rfl rfl
    refine ⟨by simpa using hle, ?_⟩
    rw [List.cons_append, quotedBody, if_neg hne, if_neg hgo, hsame]
    · exact fun h => absurd h hc
    · exact fun _ _ h => absurd h hc

theorem symbol_newline (h : symbol c ahead = (form, n)) (rest : List Char) :
    n ≤ ahead.length ∧ symbol c (ahead ++ '\n' :: rest) = (form, n) := by
  cases ahead with
  | nil =>
    unfold symbol at h
    split at h <;> cases h
    all_goals first
      | contradiction
      | exact ⟨Nat.le_refl _, rfl⟩
      | skip
    refine ⟨Nat.le_refl _, ?_⟩
    unfold symbol
    split <;> first | rfl | contradiction
  | cons d ahead =>
    refine ⟨?_, h⟩
    have hle : (symbol c (d :: ahead)).2 ≤ 1 := by
      unfold symbol
      split <;> first | exact Nat.le_refl _ | exact Nat.zero_le _
    rw [h] at hle
    simp only [List.length_cons]
    omega

/-- No other lexeme reaches beyond a newline that stands behind its text. -/
theorem measure_newline (h : measure c ahead = (form, n)) (hform : form.isOpen = false)
    (rest : List Char) : n ≤ ahead.length ∧ measure c (ahead ++ '\n' :: rest) = (form, n) := by
  unfold measure at h ⊢
  by_cases hsep : separates c = true
  · rw [if_pos hsep] at h ⊢
    cases h
    exact ⟨Nat.zero_le _, rfl⟩
  rw [if_neg hsep] at h ⊢
  by_cases hdigit : c.isDigit = true
  · rw [if_pos hdigit] at h ⊢
    exact number_newline h rest
  rw [if_neg hdigit] at h ⊢
  by_cases hstart : startsWord c = true
  · rw [if_pos hstart] at h ⊢
    cases h
    obtain ⟨hle, hsame⟩ := run_newline continuesWord rfl ahead rest
    exact ⟨hle, by rw [hsame]⟩
  rw [if_neg hstart] at h ⊢
  by_cases hdollar : c = '$'
  · rw [if_pos hdollar] at h ⊢
    exact afterDollar_newline h rest
  rw [if_neg hdollar] at h ⊢
  by_cases hslash : c = '/'
  · rw [if_pos hslash] at h ⊢
    exact afterSlash_newline h hform rest
  rw [if_neg hslash] at h ⊢
  by_cases hquote : c = '\'' ∨ c = '"'
  · rw [if_pos hquote] at h ⊢
    cases hbody : quotedBody c false ahead with
    | mk m closed =>
      have hline : c ≠ '\n' := by rcases hquote with rfl | rfl <;> decide
      have hback : c ≠ '\\' := by rcases hquote with rfl | rfl <;> decide
      obtain ⟨hle, hsame⟩ := quotedBody_newline hline hback hbody rest
      rw [hbody] at h
      cases h
      exact ⟨hle, by rw [hsame]⟩
  rw [if_neg hquote] at h ⊢
  by_cases hgrave : c = Text.grave
  · rw [if_pos hgrave] at h ⊢
    cases hbody : quotedBody c true ahead with
    | mk m closed =>
      rw [hbody] at h
      cases h
      cases closed with
      | false => cases hform
      | true =>
        have hback : c ≠ '\\' := by rw [hgrave]; decide
        obtain ⟨hle, hsame⟩ := quotedBody_take hback hbody (ahead.drop n ++ '\n' :: rest)
        rw [← List.append_assoc, List.take_append_drop] at hsame
        exact ⟨hle, by rw [hsame]⟩
  rw [if_neg hgrave] at h ⊢
  exact symbol_newline h rest

/-! ## Cutting -/

theorem cut_shift (bytes lines start line : Nat) (text : List Char) :
    cut (start + bytes) (line + lines) text = (cut start line text).map (shift bytes lines) := by
  fun_induction cut start line text with
  | case1 => rw [cut, List.map_nil]
  | case2 start line c rest form n hm piece ih =>
    have hstart : start + bytes + Text.byteLength piece
        = start + Text.byteLength piece + bytes := by omega
    have hline : line + lines + Text.newlines piece = line + Text.newlines piece + lines := by omega
    rw [cut, hm, List.map_cons, ← ih, ← hstart, ← hline]
    rfl

theorem cut_newline {start line : Nat} {text : List Char}
    (h : ∀ l ∈ cut start line text, l.form.isOpen = false) (rest : List Char) :
    cut start line (text ++ '\n' :: rest)
      = cut start line text
        ++ ⟨.separator, ['\n'], start + Text.byteLength text, line + Text.newlines text⟩
        :: cut (start + Text.byteLength text + 1) (line + Text.newlines text + 1) rest := by
  fun_induction cut start line text with
  | case1 start line =>
    rw [List.nil_append, cut]
    rfl
  | case2 start line c ahead form n hm piece ih =>
    rw [List.forall_mem_cons] at h
    obtain ⟨hle, hsame⟩ := measure_newline hm h.1 rest
    have hbytes : Text.byteLength (c :: ahead)
        = Text.byteLength piece + Text.byteLength (ahead.drop n) := by
      rw [← Text.byteLength_append, List.cons_append, List.take_append_drop]
    have hlines : Text.newlines (c :: ahead)
        = Text.newlines piece + Text.newlines (ahead.drop n) := by
      rw [← Text.newlines_append, List.cons_append, List.take_append_drop]
    rw [List.cons_append, cut, hsame, hbytes, hlines]
    simp only [List.take_append_of_le_length hle, List.drop_append_of_le_length hle]
    rw [ih h.2, List.cons_append]
    simp only [Nat.add_assoc]
    rfl

/-! ## Reading the lexemes -/

theorem span_shift (bytes lines : Nat) (l : Lexeme) :
    (l.shift bytes lines).span = l.span.shift bytes := by
  unfold span shift Span.shift
  simp only [Nat.add_right_comm]

theorem tokens_shift (bytes lines : Nat) (lexemes : List Lexeme) :
    (lexemes.map (shift bytes lines)).filterMap token?
      = (lexemes.filterMap token?).map (Token.shift bytes lines) := by
  rw [List.filterMap_map, List.map_filterMap]
  congr 1
  funext l
  unfold Function.comp token?
  rw [Option.map_map, span_shift]
  rfl

theorem faults_shift (bytes lines : Nat) (lexemes : List Lexeme) :
    (lexemes.map (shift bytes lines)).filterMap fault?
      = (lexemes.filterMap fault?).map (Fault.shift bytes lines) := by
  rw [List.filterMap_map, List.map_filterMap]
  congr 1
  funext l
  unfold Function.comp fault?
  rw [Option.map_map, span_shift]
  rfl

end Lexeme

/-- What stands in a text stands further on in a text around it. -/
theorem Text.slice_embed {source : List Char} {s : Span} (h : Bounds source s)
    (before after : List Char) :
    slice (before ++ (source ++ after)) (s.shift (byteLength before)) = slice source s := by
  obtain ⟨front, back, hsource, hspan, -⟩ := stands_slice h.start h.stop h.ordered
  generalize slice source s = piece at hsource hspan ⊢
  subst hsource
  have hmiddle := slice_middle (before ++ front) piece (back ++ after)
  have hshift : s.shift (byteLength before)
      = ⟨byteLength (before ++ front), byteLength (before ++ front) + byteLength piece⟩ := by
    have hspan : s = ⟨byteLength front, byteLength front + byteLength piece⟩ := hspan
    rw [hspan, Span.shift, byteLength_append]
    simp only [Span.mk.injEq]
    omega
  rw [hshift]
  simpa only [List.append_assoc] using hmiddle

namespace Token

/-! ## Merging in a text around -/

section Embedded

variable {source : List Char} {t u last : Token} {ahead tokens : List Token}
variable (before after : List Char) (lines : Nat)

theorem parted_embed (h : Text.Bounds source ⟨t.span.stop, u.span.start⟩) :
    parted (before ++ (source ++ after)) (t.shift (Text.byteLength before) lines)
        (u.shift (Text.byteLength before) lines)
      = parted source t u := by
  have hslice := Text.slice_embed h before after
  unfold parted
  simp only
  rw [← hslice]
  rfl

theorem spelled?_embed (words : List Keyword) (h : Placed source (last :: ahead)) :
    spelled? (before ++ (source ++ after)) (last.shift (Text.byteLength before) lines) words
        (ahead.map (shift (Text.byteLength before) lines))
      = (spelled? source last words ahead).map (shift (Text.byteLength before) lines) := by
  induction words generalizing last ahead with
  | nil => cases ahead <;> rfl
  | cons word words ih =>
    cases ahead with
    | nil => rfl
    | cons next ahead =>
      have hparted := parted_embed before after lines (h.gap List.mem_cons_self)
      rw [List.map_cons, spelled?, spelled?, hparted, ih (h.drop 1)]
      rw [apply_ite (Option.map _)]
      rfl

theorem wordOperator?_embed (h : Placed source (t :: ahead)) :
    wordOperator? (before ++ (source ++ after)) (t.shift (Text.byteLength before) lines)
        (ahead.map (shift (Text.byteLength before) lines))
      = (wordOperator? source t ahead).map
        (Prod.map id (shift (Text.byteLength before) lines)) := by
  unfold wordOperator?
  rw [List.map_findSome?]
  congr 1
  funext rule
  rw [spelled?_embed before after lines rule.others h, Function.comp_apply, apply_ite (Option.map _),
    Option.map_map, Option.map_map]
  rfl

theorem mergeFrom_embed (afterDot : Bool) (h : Placed source tokens) :
    mergeFrom (before ++ (source ++ after)) afterDot
        (tokens.map (shift (Text.byteLength before) lines))
      = (mergeFrom source afterDot tokens).map (shift (Text.byteLength before) lines) := by
  fun_induction mergeFrom source afterDot tokens with
  | case1 => rw [List.map_nil, mergeFrom]
  | case2 afterDot t ahead rule last hrule ih =>
    have hfound : wordOperator? source t ahead = some (rule, last) ∧ afterDot = false := by
      cases afterDot with
      | true => cases hrule
      | false => exact ⟨hrule, rfl⟩
    obtain ⟨hfound, rfl⟩ := hfound
    have hembedded := wordOperator?_embed before after lines h
    rw [hfound] at hembedded
    have hlast : last ∈ t :: ahead := by
      rcases mem_of_wordOperator? hfound with rfl | hlast
      · exact List.mem_cons_self
      · exact List.mem_cons_of_mem _ (List.mem_of_mem_take hlast)
    have hslice := Text.slice_embed (h.run hlast) before after
    have hfuse : fuse (before ++ (source ++ after)) rule.operator
        (t.shift (Text.byteLength before) lines) (last.shift (Text.byteLength before) lines)
          = (fuse source rule.operator t last).shift (Text.byteLength before) lines := by
      unfold fuse
      simp only
      rw [← hslice]
      rfl
    have hrest := ih (h.drop (rule.others.length + 1))
    rw [List.map_cons, mergeFrom, List.map_cons, ← hrest, ← hfuse, List.map_drop]
    simp only [Bool.false_eq_true, if_false, hembedded, Option.map_some]
    rfl
  | case3 afterDot t ahead hrule ih =>
    have hnone : (if afterDot = true then none
        else wordOperator? (before ++ (source ++ after))
          (t.shift (Text.byteLength before) lines)
          (ahead.map (shift (Text.byteLength before) lines))) = none := by
      cases afterDot with
      | true => rfl
      | false =>
        have hrule : wordOperator? source t ahead = none := hrule
        exact (wordOperator?_embed before after lines h).trans (by rw [hrule]; rfl)
    have hrest := ih (h.drop 1)
    rw [List.map_cons, mergeFrom, hnone, List.map_cons, ← hrest]
    rfl

end Embedded

/-! ## Merging one behind the other -/

/-- Whether what stands behind the tokens stands behind a point. -/
def behindDot (afterDot : Bool) : List Token → Bool
  | [] => afterDot
  | t :: ahead => behindDot (t.kind = .punctuation .dot) ahead

/-- An operator has its first words at the end of the one list and goes on at
the head of the other. -/
def Bridged (afterDot : Bool) (tokens more : List Token) : Prop :=
  ∃ rule ∈ wordOperators, ∃ before first others words word rest,
    tokens = before ++ first :: others ∧ behindDot afterDot before = false
      ∧ first.kind = .keyword rule.first ∧ rule.others = words ++ word :: rest
      ∧ others.map kind = words.map .keyword
      ∧ more.head?.map kind = some (.keyword word)

section Appended

variable {source : List Char} {t last : Token} {ahead tokens more : List Token}

theorem behindDot_append (afterDot : Bool) (tokens more : List Token) :
    behindDot afterDot (tokens ++ more) = behindDot (behindDot afterDot tokens) more := by
  induction tokens generalizing afterDot with
  | nil => rfl
  | cons t ahead ih => exact ih _

theorem behindDot_concat (afterDot : Bool) (front : List Token) (t : Token) :
    behindDot afterDot (front ++ [t]) = decide (t.kind = .punctuation .dot) :=
  behindDot_append afterDot front [t]

theorem behindDot_of_forall {tokens : List Token}
    (h : ∀ t ∈ tokens, t.kind ≠ .punctuation .dot) : behindDot false tokens = false := by
  induction tokens with
  | nil => rfl
  | cons t ahead ih =>
    rw [List.forall_mem_cons] at h
    rw [behindDot, decide_eq_false h.1, ih h.2]

theorem Bridged.behind {afterDot : Bool} (front : List Token)
    (h : Bridged (behindDot afterDot front) tokens more) :
    Bridged afterDot (front ++ tokens) more := by
  obtain ⟨rule, hrule, before, first, others, words, word, rest, rfl, hdot, hbridge⟩ := h
  refine ⟨rule, hrule, front ++ before, first, others, words, word, rest, ?_, ?_, hbridge⟩
  · rw [List.append_assoc]
  · rw [behindDot_append, hdot]

theorem spelled?_append (last : Token) (words : List Keyword) (ahead more : List Token) :
    spelled? source last words (ahead ++ more) = spelled? source last words ahead
      ∨ ∃ front word rest, words = front ++ word :: rest ∧ ahead.map kind = front.map .keyword
        ∧ more.head?.map kind = some (.keyword word) := by
  induction words generalizing last ahead with
  | nil => exact .inl (by cases ahead <;> cases more <;> rfl)
  | cons word words ih =>
    cases ahead with
    | nil =>
      cases more with
      | nil => exact .inl rfl
      | cons next more =>
        by_cases hnext : next.kind = .keyword word
        · exact .inr ⟨[], word, words, rfl, rfl, congrArg some hnext⟩
        · exact .inl (if_neg fun h => hnext h.1)
    | cons next ahead =>
      rw [List.cons_append, spelled?, spelled?]
      by_cases hnext : next.kind = .keyword word
      · rcases ih next ahead with hsame | ⟨front, word', rest, rfl, hkinds, hmore⟩
        · exact .inl (by rw [hsame])
        · refine .inr ⟨word :: front, word', rest, rfl, ?_, hmore⟩
          rw [List.map_cons, List.map_cons, hnext, hkinds]
      · exact .inl (by rw [if_neg fun h => hnext h.1, if_neg fun h => hnext h.1])

theorem wordOperator?_append (h : ¬ Bridged false (t :: ahead) more) :
    wordOperator? source t (ahead ++ more) = wordOperator? source t ahead := by
  have hsame : ∀ rule ∈ wordOperators, t.kind = .keyword rule.first →
      spelled? source t rule.others (ahead ++ more) = spelled? source t rule.others ahead := by
    intro rule hrule hkind
    rcases spelled?_append t rule.others ahead more with hsame | hbridge
    · exact hsame
    · obtain ⟨words, word, rest, hwords, hothers, hmore⟩ := hbridge
      exact absurd ⟨rule, hrule, [], t, ahead, words, word, rest, rfl, rfl, hkind, hwords,
        hothers, hmore⟩ h
  cases hfound : wordOperator? source t ahead with
  | some found =>
    obtain ⟨rule, last⟩ := found
    obtain ⟨hrule, hkind, hspelled⟩ := spelled_of_wordOperator? hfound
    exact wordOperator?_eq_some hrule hkind ((hsame rule hrule hkind).trans hspelled)
  | none =>
    refine wordOperator?_eq_none fun rule hrule hkind => (hsame rule hrule hkind).trans ?_
    have hnone := List.findSome?_eq_none_iff.1 hfound rule hrule
    rw [if_pos hkind] at hnone
    exact Option.map_eq_none_iff.1 hnone

/-- The words of an operator are no points. -/
theorem exists_run_of_wordOperator? {rule : WordOperator}
    (h : wordOperator? source t ahead = some (rule, last)) :
    ∃ run rest, ahead = run ++ rest ∧ rule.others.length = run.length
      ∧ ∀ afterDot, behindDot afterDot (t :: run) = false := by
  obtain ⟨-, hkind, hspelled⟩ := spelled_of_wordOperator? h
  obtain ⟨run, rest, hahead, hwords, -, -⟩ := exists_run_of_spelled? hspelled
  have hlength := congrArg List.length hwords
  rw [List.length_map, List.length_map] at hlength
  refine ⟨run, rest, hahead, hlength.symm, fun afterDot => ?_⟩
  have hrun : ∀ u ∈ run, u.kind ≠ .punctuation .dot := by
    intro u hu hpoint
    have hmem := List.mem_map_of_mem (f := kind) hu
    rw [hwords, hpoint] at hmem
    obtain ⟨word, -, hword⟩ := List.mem_map.1 hmem
    cases hword
  rw [behindDot, hkind, decide_eq_false nofun, behindDot_of_forall hrun]

/-- Operators are recognised in two lists as in each of them, unless one is
begun in the first and goes on in the second. -/
theorem mergeFrom_append (afterDot : Bool) (h : ¬ Bridged afterDot tokens more) :
    mergeFrom source afterDot (tokens ++ more)
      = mergeFrom source afterDot tokens
        ++ mergeFrom source (behindDot afterDot tokens) more := by
  fun_induction mergeFrom source afterDot tokens with
  | case1 => rfl
  | case2 afterDot t ahead rule last hrule ih =>
    have hfound : wordOperator? source t ahead = some (rule, last) ∧ afterDot = false := by
      cases afterDot with
      | true => cases hrule
      | false => exact ⟨hrule, rfl⟩
    obtain ⟨hfound, rfl⟩ := hfound
    have happended := (wordOperator?_append h).trans hfound
    obtain ⟨run, rest, rfl, hlength, hdot⟩ := exists_run_of_wordOperator? hfound
    have hbehind := behindDot_append false (t :: run) rest
    rw [List.cons_append, hdot] at hbehind
    rw [hlength, List.drop_left] at ih
    have hrest := ih fun hbridge => h (Bridged.behind (t :: run) (by rwa [hdot]))
    rw [List.append_assoc] at happended
    rw [List.cons_append, mergeFrom, hbehind]
    simp only [Bool.false_eq_true, if_false, List.append_assoc, happended, hlength, List.drop_left,
      List.cons_append, hrest]
  | case3 afterDot t ahead hrule ih =>
    have happended : (if afterDot = true then none
        else wordOperator? source t (ahead ++ more)) = none := by
      cases afterDot with
      | true => rfl
      | false => exact (wordOperator?_append h).trans hrule
    have hrest := ih fun hbridge => h (Bridged.behind [t] hbridge)
    rw [List.cons_append, mergeFrom, happended, List.cons_append]
    exact congrArg (t :: ·) hrest

/-- An operator is no point, and so is not its last word. -/
theorem behindDot_mergeFrom (source : List Char) (afterDot : Bool) (tokens : List Token) :
    behindDot afterDot (mergeFrom source afterDot tokens) = behindDot afterDot tokens := by
  fun_induction mergeFrom source afterDot tokens with
  | case1 => rfl
  | case2 afterDot t ahead rule last hrule ih =>
    have hfound : wordOperator? source t ahead = some (rule, last) := by
      cases afterDot with
      | true => cases hrule
      | false => exact hrule
    obtain ⟨run, rest, rfl, hlength, hdot⟩ := exists_run_of_wordOperator? hfound
    have hbehind := behindDot_append afterDot (t :: run) rest
    rw [List.cons_append, hdot] at hbehind
    rw [hlength, List.drop_left] at ih ⊢
    rw [hbehind, ← ih]
    rfl
  | case3 afterDot t ahead hrule ih => exact ih

theorem mergeFrom_singleton (source : List Char) (afterDot : Bool) (t : Token) :
    mergeFrom source afterDot [t] = [t] := by
  have hnone : wordOperator? source t [] = none := by
    refine wordOperator?_eq_none fun rule hrule _ => ?_
    obtain ⟨v, vs, hothers, -⟩ := joins_of_mem_wordOperators hrule
    rw [hothers]
    rfl
  rw [mergeFrom, hnone, ite_self, mergeFrom]

/-- The words that begin an operator, and the word that goes on with it. -/
inductive Pending : List Kind → Keyword → Prop
  | starts : Pending [.keyword .STARTS] .WITH
  | ends : Pending [.keyword .ENDS] .WITH
  | isNull : Pending [.keyword .IS] .NULL
  | isNot : Pending [.keyword .IS] .NOT
  | isNotNull : Pending [.keyword .IS, .keyword .NOT] .NULL

theorem pending_of_mem {rule : WordOperator} (hrule : rule ∈ wordOperators)
    {words rest : List Keyword} {word : Keyword} (hwords : rule.others = words ++ word :: rest) :
    Pending (.keyword rule.first :: words.map .keyword) word := by
  unfold wordOperators at hrule
  simp only [List.mem_cons, List.not_mem_nil, or_false] at hrule
  rcases hrule with rfl | rfl | rfl | rfl
  all_goals
    rcases words with _ | ⟨w, _ | ⟨w', words⟩⟩ <;> first | cases hwords | simp at hwords
  · exact .starts
  · exact .ends
  · exact .isNull
  · exact .isNot
  · exact .isNotNull

theorem Pending.mergeFrom {word : Keyword} (h : Pending (tokens.map kind) word)
    (source : List Char) (afterDot : Bool) : mergeFrom source afterDot tokens = tokens := by
  generalize hkinds : tokens.map kind = kinds at h
  cases h with
  | starts | ends | isNull | isNot =>
    obtain ⟨t, rfl, -⟩ := List.map_eq_singleton_iff.1 hkinds
    exact mergeFrom_singleton source afterDot t
  | isNotNull =>
    obtain ⟨t, us, rfl, ht, hus⟩ := List.map_eq_cons_iff.1 hkinds
    obtain ⟨u, rfl, hu⟩ := List.map_eq_singleton_iff.1 hus
    have hnone : wordOperator? source t [u] = none := by
      refine wordOperator?_eq_none fun rule hrule hkind => ?_
      unfold wordOperators at hrule
      simp only [List.mem_cons, List.not_mem_nil, or_false] at hrule
      rw [ht] at hkind
      rcases hrule with rfl | rfl | rfl | rfl <;> cases hkind
      · exact if_neg fun h => by rw [hu] at h; cases h.1
      · exact ite_self none
    rw [mergeFrom, hnone, ite_self]
    exact congrArg (t :: ·) (mergeFrom_singleton source _ u)

/-- The first words of an operator stand on their own at the end of a list. -/
theorem Bridged.ends {afterDot : Bool} (h : Bridged afterDot tokens more) (source : List Char) :
    ∃ front words word, Token.mergeFrom source afterDot tokens = front ++ words
      ∧ behindDot afterDot front = false ∧ Pending (words.map kind) word
      ∧ more.head?.map kind = some (.keyword word) := by
  obtain ⟨rule, hrule, before, first, others, words, word, rest, rfl, hdot, hfirst, hwords,
    hothers, hmore⟩ := h
  have hpending : Pending ((first :: others).map kind) word := by
    rw [List.map_cons, hfirst, hothers]
    exact pending_of_mem hrule hwords
  have hfront : ¬ Bridged afterDot before (first :: others) := by
    rintro ⟨rule', hrule', -, -, -, words', word', rest', -, -, -, hwords', -, hhead⟩
    have hdistinct : ∀ rule ∈ wordOperators, ∀ rule' ∈ wordOperators,
        rule.first ∉ rule'.others := by decide
    apply hdistinct rule hrule rule' hrule'
    rw [List.head?_cons, Option.map_some, hfirst] at hhead
    cases hhead
    rw [hwords']
    simp
  refine ⟨Token.mergeFrom source afterDot before, first :: others, word, ?_, ?_, hpending, hmore⟩
  · rw [mergeFrom_append afterDot hfront, hpending.mergeFrom]
  · rw [behindDot_mergeFrom, hdot]

/-- A word that goes on with an operator begins none. -/
theorem Pending.head?_mergeFrom {words : List Kind} {word : Keyword} (h : Pending words word)
    (source : List Char) (afterDot : Bool) (hhead : tokens.head?.map kind = some (.keyword word)) :
    (Token.mergeFrom source afterDot tokens).head?.map kind = some (.keyword word) := by
  cases tokens with
  | nil => cases hhead
  | cons t ahead =>
    have hkind : t.kind = .keyword word := Option.some.inj hhead
    have hnone : wordOperator? source t ahead = none := by
      refine wordOperator?_eq_none fun rule hrule hfirst => ?_
      unfold wordOperators at hrule
      simp only [List.mem_cons, List.not_mem_nil, or_false] at hrule
      rw [hkind] at hfirst
      cases h <;> rcases hrule with rfl | rfl | rfl | rfl <;> cases hfirst
    rw [Token.mergeFrom, hnone, ite_self]
    exact hhead

end Appended

end Token

namespace TokenStream

variable {a b : List Char}

theorem isOpen_of_faults (h : (ofChars a).faults = []) :
    ∀ l ∈ Lexeme.ofText a, l.form.isOpen = false := by
  intro l hl
  have hnone : l.cause? = none := Option.map_eq_none_iff.1 (List.filterMap_eq_nil_iff.1 h l hl)
  unfold Lexeme.Form.isOpen
  split
  · next hform =>
    unfold Lexeme.cause? at hnone
    rw [hform] at hnone
    cases hnone
  · next hform =>
    unfold Lexeme.cause? at hnone
    rw [hform] at hnone
    cases hnone
  · rfl

theorem ofText_newline (hopen : ∀ l ∈ Lexeme.ofText a, l.form.isOpen = false) (b : List Char) :
    ∃ separator, Lexeme.token? separator = none ∧ Lexeme.fault? separator = none
      ∧ Lexeme.ofText (a ++ '\n' :: b) = Lexeme.ofText a ++ separator
        :: (Lexeme.ofText b).map (Lexeme.shift (Text.byteLength a + 1) (Text.newlines a + 1)) := by
  refine ⟨⟨.separator, ['\n'], 0 + Text.byteLength a, 1 + Text.newlines a⟩, rfl, rfl,
    (Lexeme.cut_newline hopen b).trans ?_⟩
  have hshift := Lexeme.cut_shift (Text.byteLength a + 1) (Text.newlines a + 1) 0 1 b
  rw [← Nat.add_assoc, ← Nat.add_assoc] at hshift
  rw [hshift]
  rfl

/-- The tokens of the one text, and those of the other further on. -/
def followedBy (first second : TokenStream) (bytes lines : Nat) : TokenStream where
  tokens := first.tokens ++ second.tokens.map (Token.shift bytes lines)
  eof := second.eof.shift bytes lines
  faults := first.faults ++ second.faults.map (Fault.shift bytes lines)

/-- A newline parts the tokens of two texts, as it parts the texts, where
nothing that is begun in front of it goes on behind it. -/
theorem ofChars_newline (hopen : ∀ l ∈ Lexeme.ofText a, l.form.isOpen = false)
    (hdot : Token.behindDot false (ofChars a).tokens = false)
    (hseam : ∀ front words word, (ofChars a).tokens = front ++ words →
      Token.behindDot false front = false → Token.Pending (words.map Token.kind) word →
      (ofChars b).tokens.head?.map Token.kind ≠ some (.keyword word)) :
    ofChars (a ++ '\n' :: b)
      = (ofChars a).followedBy (ofChars b) (Text.byteLength a + 1) (Text.newlines a + 1) := by
  obtain ⟨separator, htoken, hfault, hlexemes⟩ := ofText_newline hopen b
  have hbridge : ¬ Token.Bridged false ((Lexeme.ofText a).filterMap Lexeme.token?)
      (((Lexeme.ofText b).filterMap Lexeme.token?).map
        (Token.shift (Text.byteLength a + 1) (Text.newlines a + 1))) := by
    intro hbridged
    obtain ⟨front, words, word, hends, hfront, hpending, hhead⟩ := hbridged.ends a
    refine hseam front words word hends hfront hpending (hpending.head?_mergeFrom b false ?_)
    rwa [List.head?_map, Option.map_map] at hhead
  have htokens : (ofChars (a ++ '\n' :: b)).tokens = (ofChars a).tokens
      ++ (ofChars b).tokens.map (Token.shift (Text.byteLength a + 1) (Text.newlines a + 1)) := by
    have hmiddle : Token.behindDot false ((Lexeme.ofText a).filterMap Lexeme.token?) = false :=
      (Token.behindDot_mergeFrom a false _).symm.trans hdot
    -- The first text has nothing in front of it, the second one nothing behind it.
    have hfront := Token.mergeFrom_embed [] ('\n' :: b) 0 false (placed_lexemes a)
    have hback := Token.mergeFrom_embed (a ++ ['\n']) [] (Text.newlines a + 1) false
      (placed_lexemes b)
    have hzero : Token.shift (Text.byteLength []) 0 = id := rfl
    have hbytes : Text.byteLength (a ++ ['\n']) = Text.byteLength a + 1 :=
      Text.byteLength_append a ['\n']
    rw [hzero, List.map_id, List.map_id] at hfront
    rw [List.append_nil, List.append_assoc, hbytes] at hback
    show Token.mergeFrom _ false ((Lexeme.ofText (a ++ '\n' :: b)).filterMap Lexeme.token?) = _
    rw [hlexemes, List.filterMap_append, List.filterMap_cons_none htoken, Lexeme.tokens_shift,
      Token.mergeFrom_append false hbridge, hmiddle]
    exact congrArg₂ (· ++ ·) hfront hback
  have heof : eofOf (a ++ '\n' :: b)
      = (eofOf b).shift (Text.byteLength a + 1) (Text.newlines a + 1) := by
    have hbytes : Text.byteLength (a ++ '\n' :: b)
        = Text.byteLength b + (Text.byteLength a + 1) := by
      rw [Text.byteLength_append, Text.byteLength]
      have hnewline : '\n'.utf8Size = 1 := rfl
      omega
    have hlines : 1 + Text.newlines (a ++ '\n' :: b)
        = 1 + Text.newlines b + (Text.newlines a + 1) := by
      have hnewline : Text.newlines ('\n' :: b) = Text.newlines b + 1 := List.count_cons_self
      rw [Text.newlines_append, hnewline]
      omega
    unfold eofOf Token.shift Span.shift
    rw [hbytes, hlines]
  have hfaults : (ofChars (a ++ '\n' :: b)).faults = (ofChars a).faults
      ++ (ofChars b).faults.map (Fault.shift (Text.byteLength a + 1) (Text.newlines a + 1)) := by
    show (Lexeme.ofText (a ++ '\n' :: b)).filterMap Lexeme.fault? = _
    rw [hlexemes, List.filterMap_append, List.filterMap_cons_none hfault, Lexeme.faults_shift]
    rfl
  calc ofChars (a ++ '\n' :: b)
      = ⟨(ofChars (a ++ '\n' :: b)).tokens, eofOf (a ++ '\n' :: b),
          (ofChars (a ++ '\n' :: b)).faults⟩ := rfl
    _ = _ := by
      rw [htokens, heof, hfaults]
      rfl

end TokenStream

end Cypher
