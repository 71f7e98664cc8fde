import Cypher.Proofs.Lexing.Edge
import Cypher.Proofs.Lexing.Place
import Cypher.Proofs.Lexing.Regrouped

/-!
# What becomes of every character

Each character of a text belongs to a token, to a comment, is reported as
illegal, or separates. One kind of character counts twice: an illegal one
that is blank. It is reported where the text is cut into lexemes, and then
passes for the white space between two words of an operator, whose token
takes it in. Where no such character stands, the tokens, the comments and
the illegal characters do not overlap.
-/

namespace Cypher

namespace Span

/-- One span stops before the other starts. -/
def Disjoint (s t : Span) : Prop := s.stop ≤ t.start ∨ t.stop ≤ s.start

/-- The byte at the offset lies under the span. -/
def Covers (s : Span) (offset : Nat) : Prop := s.start ≤ offset ∧ offset < s.stop

instance (s t : Span) : Decidable (s.Disjoint t) := inferInstanceAs (Decidable (_ ∨ _))

theorem Disjoint.symm {s t : Span} (h : s.Disjoint t) : t.Disjoint s := Or.symm h

end Span

/-! ## What the form of a lexeme tells -/

namespace Lexeme

variable {c : Char} {ahead text : List Char} {start line n : Nat} {l : Lexeme}

/-- Only a slash starts a comment. -/
theorem measure_comment {form : Form} (h : measure c ahead = (form, n))
    (hform : form.isComment = true) : c = '/' := by
  cases measured h with
  | slash hslash h => exact hslash
  | separator _ heq _ | word _ heq _ | string _ _ heq _ | name _ _ heq _ =>
    rw [heq] at hform
    cases hform
  | number _ h =>
    rcases form_number h with rfl | rfl <;> cases hform
  | dollar _ h =>
    rcases form_afterDollar h with rfl | ⟨rfl, -⟩ <;> cases hform
  | symbol _ h =>
    rcases form_symbol h with ⟨op, rfl⟩ | ⟨mark, rfl⟩ | ⟨rfl, -⟩ <;> cases hform

/-- An illegal character is measured alone. -/
theorem measure_illegal (h : measure c ahead = (.illegal, n)) :
    n = 0 ∧ separates c = false := by
  cases measured h with
  | separator _ heq _ | word _ heq _ | string _ _ heq _ | name _ _ heq _ => cases heq
  | number _ h =>
    rcases form_number h with heq | heq <;> cases heq
  | dollar hdollar h =>
    rcases form_afterDollar h with heq | ⟨-, hn⟩
    · cases heq
    · exact ⟨hn, by rw [hdollar]; decide⟩
  | slash _ h =>
    rcases form_afterSlash h with heq | ⟨closed, heq⟩ | heq <;> cases heq
  | symbol hsep h =>
    rcases form_symbol h with ⟨op, heq⟩ | ⟨mark, heq⟩ | ⟨-, hn⟩
    · cases heq
    · cases heq
    · exact ⟨hn, hsep⟩

/-- A separator is one character, and so is what is illegal; no character is both. -/
theorem exists_char (h : l ∈ cut start line text)
    (hform : l.form = .separator ∨ l.form = .illegal) :
    ∃ c, l.text = [c] ∧ (separates c = true ↔ l.form = .separator) := by
  obtain ⟨before, c, ahead, n, -, hmeasure, hpiece, -, -⟩ := exists_measure h
  rcases hform with hform | hform
  · rcases measure_cases hmeasure with ⟨hsep, -, rfl⟩ | ⟨-, hword, -⟩ | hother
    · exact ⟨c, hpiece, fun _ => hform, fun _ => hsep⟩
    · cases hform.symm.trans hword
    · exact absurd hform hother.1
  · rw [hform] at hmeasure
    obtain ⟨rfl, hsep⟩ := measure_illegal hmeasure
    refine ⟨c, hpiece, fun h => ?_, fun h => ?_⟩
    · rw [hsep] at h
      cases h
    · cases hform.symm.trans h

/-- Comments hold a character that is not blank. -/
theorem exists_not_isBlank (h : l ∈ cut start line text) (hform : l.form.isComment = true) :
    ∃ c ∈ l.text, Text.isBlank c = false := by
  obtain ⟨before, c, ahead, n, -, hmeasure, hpiece, -, -⟩ := exists_measure h
  rw [measure_comment hmeasure hform] at hpiece
  exact ⟨'/', by rw [hpiece]; exact List.mem_cons_self, by decide⟩

theorem token?_of_isComment (h : l.form.isComment = true) : l.token? = none := by
  unfold token? kind?
  cases hform : l.form with
  | lineComment | blockComment => rfl
  | _ =>
    rw [hform] at h
    cases h

theorem token?_illegal (h : l.form = .illegal) : l.token? = none := by
  rw [token?, kind?, h]
  rfl

/-- What is no token is a separator, a comment or illegal. -/
theorem form_of_token? (h : l.token? = none) :
    l.form = .separator ∨ l.form.isComment = true ∨ l.form = .illegal := by
  have hkind : l.kind? = none := Option.map_eq_none_iff.1 h
  unfold kind? at hkind
  cases hform : l.form with
  | separator => exact .inl rfl
  | lineComment | blockComment => exact .inr (.inl rfl)
  | illegal => exact .inr (.inr rfl)
  | word =>
    rw [hform] at hkind
    dsimp only at hkind
    split at hkind <;> cases hkind
  | _ =>
    rw [hform] at hkind
    cases hkind

/-- Two lexemes are one, or do not overlap. -/
theorem eq_or_disjoint {l' : Lexeme} (h : l ∈ ofText text) (h' : l' ∈ ofText text) :
    l = l' ∨ l.span.Disjoint l'.span := by
  have hpairs : (ofText text).Pairwise fun l l' => l.span.Disjoint l'.span :=
    (pairwise_cut 0 1 text).imp Or.inl
  have hsymm : Std.Symm fun l l' : Lexeme => l.span.Disjoint l'.span :=
    ⟨fun _ _ => Span.Disjoint.symm⟩
  by_cases heq : l = l'
  · exact .inl heq
  · exact .inr (hpairs.forall h h' heq)

end Lexeme

/-! ## Tokens and what stands between their words -/

namespace Token

variable {source : List Char} {ts us : List Token} {t u : Token}

/-- No token is lost: its bytes are taken up by one of those put together. -/
theorem Folded.exists_mem (h : Folded source ts us) (hapart : Apart ts) (ht : t ∈ ts) :
    ∃ u ∈ us, u.span.start ≤ t.span.start ∧ t.span.stop ≤ u.span.stop := by
  induction h with
  | nil => cases ht
  | keep v _ ih =>
    have hrest : Apart _ := ⟨(List.forall_mem_cons.1 hapart.nonempty).2,
      (List.pairwise_cons.1 hapart.apart).2⟩
    rcases List.mem_cons.1 ht with rfl | hmem
    · exact ⟨t, List.mem_cons_self, Nat.le_refl _, Nat.le_refl _⟩
    · obtain ⟨u, hu, hle⟩ := ih hrest hmem
      exact ⟨u, List.mem_cons_of_mem _ hu, hle⟩
  | @fuse rule first last others ts us _ _ _ ends _ ih =>
    obtain ⟨hnonempty, hpairs⟩ := hapart
    rw [← List.cons_append] at hnonempty hpairs ht
    rw [List.forall_mem_append] at hnonempty
    rw [List.pairwise_append] at hpairs
    rcases List.mem_append.1 ht with hmem | hmem
    · refine ⟨_, List.mem_cons_self, ?_, ?_⟩
      · show first.span.start ≤ t.span.start
        rcases List.mem_cons.1 hmem with rfl | hothers
        · exact Nat.le_refl _
        · have hbytes := hnonempty.1 first List.mem_cons_self
          have hbehind := (List.pairwise_cons.1 hpairs.1).1 t hothers
          omega
      · show t.span.stop ≤ last.span.stop
        obtain ⟨init, hinit⟩ := List.getLast?_eq_some_iff.1 ends
        rw [hinit] at hmem hpairs hnonempty
        rcases List.mem_append.1 hmem with hearlier | hlast
        · have hbytes := hnonempty.1 last (by simp)
          have hbehind := (List.pairwise_append.1 hpairs.1).2.2 t hearlier last (by simp)
          omega
        · rw [List.mem_singleton.1 hlast]
    · obtain ⟨u, hu, hle⟩ := ih ⟨hnonempty.2, hpairs.2.1⟩ hmem
      exact ⟨u, List.mem_cons_of_mem _ hu, hle⟩

/-- What overlaps none of the words that follow one another but lies between the ends of
the run stands between two of them. -/
theorem exists_gap_of_isChain {R : Token → Token → Prop} {first last : Token}
    {others : List Token} {s : Span} (h : (first :: others).IsChain R)
    (hlast : (first :: others).getLast? = some last)
    (hs : ∀ t ∈ first :: others, t.span.Disjoint s)
    (hoverlap : ¬ Span.Disjoint ⟨first.span.start, last.span.stop⟩ s) :
    ∃ t ∈ first :: others, ∃ u ∈ first :: others,
      R t u ∧ t.span.stop ≤ s.start ∧ s.stop ≤ u.span.start := by
  have hinside : first.span.start < s.stop ∧ s.start < last.span.stop := by
    unfold Span.Disjoint at hoverlap
    dsimp only at hoverlap
    omega
  have hfirst : first.span.stop ≤ s.start := by
    rcases hs first List.mem_cons_self with hbefore | hbehind <;> omega
  clear hoverlap
  induction others generalizing first with
  | nil =>
    obtain rfl : first = last := Option.some.inj hlast
    omega
  | cons next others ih =>
    rw [List.isChain_cons_cons] at h
    rw [List.getLast?_cons_cons] at hlast
    by_cases hnext : s.stop ≤ next.span.start
    · exact ⟨first, List.mem_cons_self, next, by simp, h.1, hfirst, hnext⟩
    · have hbehind : next.span.stop ≤ s.start := by
        rcases hs next (by simp) with hbefore | hbehind <;> omega
      obtain ⟨t, ht, u, hu, hfound⟩ :=
        ih h.2 hlast (fun t ht => hs t (List.mem_cons_of_mem _ ht)) ⟨by omega, hinside.2⟩ hbehind
      exact ⟨t, List.mem_cons_of_mem _ ht, u, List.mem_cons_of_mem _ hu, hfound⟩

/-- What overlaps no token of the list before the words are put together, but
one of the list after, stands between two words of an operator. -/
theorem Folded.exists_gap (h : Folded source ts us) (hu : u ∈ us) {s : Span}
    (hs : ∀ t ∈ ts, t.span.Disjoint s) (hoverlap : ¬ u.span.Disjoint s) :
    (∃ rule ∈ wordOperators, u.kind = .operator rule.operator)
      ∧ ∃ t ∈ ts, ∃ t' ∈ ts,
        parted source t t' = true ∧ t.span.stop ≤ s.start ∧ s.stop ≤ t'.span.start := by
  induction h with
  | nil => cases hu
  | keep v _ ih =>
    rw [List.forall_mem_cons] at hs
    rcases List.mem_cons.1 hu with rfl | hmem
    · exact absurd hs.1 hoverlap
    · obtain ⟨hrule, t, ht, t', ht', hgap⟩ := ih hmem hs.2
      exact ⟨hrule, t, List.mem_cons_of_mem _ ht, t', List.mem_cons_of_mem _ ht', hgap⟩
  | @fuse rule first last others ts us listed _ gaps ends _ ih =>
    rw [← List.cons_append] at hs ⊢
    rw [List.forall_mem_append] at hs
    rcases List.mem_cons.1 hu with rfl | hmem
    · obtain ⟨t, ht, t', ht', hgap⟩ := exists_gap_of_isChain gaps ends hs.1 hoverlap
      exact ⟨⟨rule, listed, rfl⟩, t, List.mem_append_left _ ht, t', List.mem_append_left _ ht',
        hgap⟩
    · obtain ⟨hrule, t, ht, t', ht', hgap⟩ := ih hmem hs.2
      exact ⟨hrule, t, List.mem_append_right _ ht, t', List.mem_append_right _ ht', hgap⟩

end Token

/-! ## The account of a text -/

namespace TokenStream

variable {text : List Char}

/-- The lexemes that are discarded or reported and make no token. -/
def leftOut (text : List Char) : List Lexeme :=
  (Lexeme.ofText text).filter fun l => l.form.isComment || l.form = .illegal

/-- The spans of the tokens, of the comments and of the illegal characters. -/
def marks (text : List Char) : List Span :=
  (ofChars text).tokens.map Token.span ++ (leftOut text).map Lexeme.span

/-- The byte at the offset belongs to a word, not to the space between two words of an
operator. -/
def InWord (text : List Char) (offset : Nat) : Prop :=
  ∃ l ∈ Lexeme.ofText text, l.token?.isSome ∧ l.span.Covers offset

/-- Every character is accounted for once: the marks do not overlap, and what is outside
them or in the gap of an operator is a separator. -/
structure AccountedOnce (text : List Char) : Prop where
  disjoint : (marks text).Pairwise Span.Disjoint
  outside : ∀ before c after, text = before ++ c :: after →
    (∀ s ∈ marks text, ¬ s.Covers (Text.byteLength before)) → Lexeme.separates c = true
  gaps : ∀ before c after, text = before ++ c :: after →
    ∀ t ∈ (ofChars text).tokens, t.span.Covers (Text.byteLength before) →
      ¬ InWord text (Text.byteLength before) → Lexeme.separates c = true

/-- Every character is accounted for, and an illegal one that is blank perhaps twice. -/
structure Accounted (text : List Char) : Prop where
  tokens : (ofChars text).tokens.Pairwise fun t u => t.span.Disjoint u.span
  leftOut : (leftOut text).Pairwise fun l l' => l.span.Disjoint l'.span
  comments : ∀ t ∈ (ofChars text).tokens, ∀ l ∈ Lexeme.ofText text,
    l.form.isComment = true → t.span.Disjoint l.span
  illegal : ∀ t ∈ (ofChars text).tokens, ∀ l ∈ Lexeme.ofText text, l.form = .illegal →
    t.span.Disjoint l.span ∨ (∃ rule ∈ Token.wordOperators, t.kind = .operator rule.operator)
      ∧ ∃ c, l.text = [c] ∧ Text.isBlank c = true ∧ Lexeme.separates c = false
  outside : ∀ before c after, text = before ++ c :: after →
    (∀ s ∈ marks text, ¬ s.Covers (Text.byteLength before)) → Lexeme.separates c = true
  gaps : ∀ before c after, text = before ++ c :: after →
    ∀ t ∈ (ofChars text).tokens, t.span.Covers (Text.byteLength before) →
      ¬ InWord text (Text.byteLength before) → Text.isBlank c = true
        ∧ (Lexeme.separates c = true ∨ ∃ l ∈ Lexeme.ofText text, l.form = .illegal
          ∧ l.span.Covers (Text.byteLength before) ∧ l.text = [c])

theorem folded_tokens (text : List Char) :
    Token.Folded text ((Lexeme.ofText text).filterMap Lexeme.token?) (ofChars text).tokens :=
  Token.folded_mergeFrom text false _

/-- A lexeme that makes no token and overlaps one stands in the gap of an operator, and
so all of it is blank. -/
theorem blank_of_overlap {t : Token} (ht : t ∈ (ofChars text).tokens) {l : Lexeme}
    (hl : l ∈ Lexeme.ofText text) (hnone : l.token? = none)
    (hoverlap : ¬ t.span.Disjoint l.span) :
    (∃ rule ∈ Token.wordOperators, t.kind = .operator rule.operator)
      ∧ ∀ c ∈ l.text, Text.isBlank c = true := by
  have hwords : ∀ u ∈ (Lexeme.ofText text).filterMap Lexeme.token?, u.span.Disjoint l.span := by
    intro u hu
    obtain ⟨l', hl', htoken⟩ := List.mem_filterMap.1 hu
    rcases Lexeme.eq_or_disjoint hl' hl with rfl | hdisjoint
    · cases hnone.symm.trans htoken
    · rwa [span_of_token? htoken]
  obtain ⟨hrule, u, hu, u', hu', hparted, hstart, hstop⟩ :=
    (folded_tokens text).exists_gap ht hwords hoverlap
  refine ⟨hrule, fun c hc => ?_⟩
  obtain ⟨m, hm, htoken⟩ := List.mem_filterMap.1 hu
  obtain ⟨m', hm', htoken'⟩ := List.mem_filterMap.1 hu'
  have hgap : c ∈ Text.slice text ⟨u.span.stop, u'.span.start⟩ :=
    (Lexeme.stands hl).mem_slice (stands_of_token? hm htoken).stop_boundary
      (stands_of_token? hm' htoken').start_boundary hstart hstop hc
  unfold Token.parted at hparted
  rw [Bool.and_eq_true, List.all_eq_true] at hparted
  exact hparted.2 c hgap

/-- The character at an offset belongs to the lexeme that covers the offset. -/
theorem mem_of_covers {before after : List Char} {c : Char} {l : Lexeme}
    (hl : l ∈ Lexeme.ofText (before ++ c :: after))
    (hcovers : l.span.Covers (Text.byteLength before)) : c ∈ l.text := by
  obtain ⟨front, back, htext, hspan, -⟩ := Lexeme.stands hl
  obtain ⟨hstart, hstop⟩ := hcovers
  rw [hspan] at hstart hstop
  obtain ⟨skipped, rfl, hrest⟩ := Text.exists_between htext.symm hstart
  rw [Text.byteLength_append] at hstop
  dsimp only at hstop
  obtain ⟨own, hpiece, htail⟩ := Text.exists_between hrest.symm (by omega)
  cases own with
  | nil =>
    rw [hpiece, List.append_nil] at hstop
    omega
  | cons d ds =>
    obtain ⟨rfl, -⟩ := List.cons.inj htail
    simp [hpiece]

/-- Each character of a text belongs to a lexeme. -/
theorem exists_lexeme {before after : List Char} {c : Char} (htext : text = before ++ c :: after) :
    ∃ l ∈ Lexeme.ofText text, l.span.Covers (Text.byteLength before) ∧ c ∈ l.text := by
  subst htext
  have hlt : Text.byteLength before < 0 + Text.byteLength (before ++ c :: after) := by
    have hpos := Text.byteLength_pos (List.cons_ne_nil c after)
    rw [Text.byteLength_append]
    omega
  obtain ⟨l, hl, hstart, hstop⟩ := Lexeme.exists_mem_cut (Nat.zero_le _) hlt 1
  exact ⟨l, hl, ⟨hstart, hstop⟩, mem_of_covers hl ⟨hstart, hstop⟩⟩

/-- Every mark covers the bytes of its token or lexeme. -/
theorem covers_of_token? {l : Lexeme} {offset : Nat} (hl : l ∈ Lexeme.ofText text)
    (hsome : l.token?.isSome) (hcovers : l.span.Covers offset) :
    ∃ s ∈ marks text, s.Covers offset := by
  obtain ⟨u, htoken⟩ := Option.isSome_iff_exists.1 hsome
  obtain ⟨t, ht, hstart, hstop⟩ :=
    (folded_tokens text).exists_mem (apart_lexemes text) (List.mem_filterMap.2 ⟨l, hl, htoken⟩)
  refine ⟨t.span, List.mem_append_left _ (List.mem_map_of_mem ht), ?_⟩
  rw [span_of_token? htoken] at hstart hstop
  exact ⟨hstart.trans hcovers.1, hcovers.2.trans_le hstop⟩

theorem mem_leftOut {l : Lexeme} (hl : l ∈ Lexeme.ofText text)
    (hform : l.form.isComment = true ∨ l.form = .illegal) : l ∈ leftOut text := by
  refine List.mem_filter.2 ⟨hl, ?_⟩
  rcases hform with hform | hform <;> simp [hform]

/-- Every character of a text is accounted for. -/
theorem accounted (text : List Char) : Accounted text where
  tokens := (apart_tokens text).apart.imp Or.inl
  leftOut := ((Lexeme.pairwise_cut 0 1 text).imp Or.inl).filter _
  comments := by
    intro t ht l hl hform
    by_contra hoverlap
    obtain ⟨c, hc, hnot⟩ := Lexeme.exists_not_isBlank hl hform
    have hnone := Lexeme.token?_of_isComment hform
    have hblank := (blank_of_overlap ht hl hnone hoverlap).2 c hc
    rw [hnot] at hblank
    cases hblank
  illegal := by
    intro t ht l hl hform
    by_cases hdisjoint : t.span.Disjoint l.span
    · exact .inl hdisjoint
    · obtain ⟨c, hpiece, hsep⟩ := Lexeme.exists_char hl (.inr hform)
      obtain ⟨hrule, hblank⟩ := blank_of_overlap ht hl (Lexeme.token?_illegal hform) hdisjoint
      refine .inr ⟨hrule, c, hpiece, hblank c (by simp [hpiece]), ?_⟩
      rw [Bool.eq_false_iff]
      intro hc
      cases hform.symm.trans (hsep.1 hc)
  outside := by
    intro before c after htext hnot
    obtain ⟨l, hl, hcovers, hc⟩ := exists_lexeme htext
    by_cases hsome : l.token?.isSome
    · obtain ⟨s, hs, hcovered⟩ := covers_of_token? hl hsome hcovers
      exact absurd hcovered (hnot s hs)
    · have hnone : l.token? = none := by simpa using hsome
      rcases Lexeme.form_of_token? hnone with hform | hform
      · obtain ⟨d, hpiece, hsep⟩ := Lexeme.exists_char hl (.inl hform)
        rw [hpiece, List.mem_singleton] at hc
        rw [hc]
        exact hsep.2 hform
      · have hmark : l.span ∈ marks text :=
          List.mem_append_right _ (List.mem_map_of_mem (mem_leftOut hl hform))
        exact absurd hcovers (hnot _ hmark)
  gaps := by
    intro before c after htext t ht hcovers hnot
    obtain ⟨l, hl, hcovers', hc⟩ := exists_lexeme htext
    have hnone : l.token? = none := by
      rw [← Option.not_isSome_iff_eq_none]
      exact fun hsome => hnot ⟨l, hl, hsome, hcovers'⟩
    have hoverlap : ¬ t.span.Disjoint l.span := by
      unfold Span.Disjoint
      unfold Span.Covers at hcovers hcovers'
      omega
    have hblank := (blank_of_overlap ht hl hnone hoverlap).2
    refine ⟨hblank c hc, ?_⟩
    rcases Lexeme.form_of_token? hnone with hform | hform | hform
    · obtain ⟨d, hpiece, hsep⟩ := Lexeme.exists_char hl (.inl hform)
      rw [hpiece, List.mem_singleton] at hc
      rw [hc]
      exact .inl (hsep.2 hform)
    · obtain ⟨d, hd, hnot⟩ := Lexeme.exists_not_isBlank hl hform
      rw [hblank d hd] at hnot
      cases hnot
    · obtain ⟨d, hpiece, -⟩ := Lexeme.exists_char hl (.inr hform)
      have hd : c = d := by rwa [hpiece, List.mem_singleton] at hc
      exact .inr ⟨l, hl, hform, hcovers', by rw [hpiece, hd]⟩

/-- Every character is accounted for; and it is accounted for once as soon as no illegal
character lies within a token. Where one does, it is blank and stands between two words
of an operator. -/
theorem accountedOnce_iff (text : List Char) :
    Accounted text ∧ (AccountedOnce text ↔
      ∀ t ∈ (ofChars text).tokens, ∀ l ∈ Lexeme.ofText text, l.form = .illegal →
        t.span.Disjoint l.span) := by
  have haccounted := accounted text
  refine ⟨haccounted, fun h => ?_, fun h => ?_⟩
  · intro t ht l hl hform
    have hpairs := (List.pairwise_append.1 h.disjoint).2.2
    exact hpairs t.span (List.mem_map_of_mem ht) l.span
      (List.mem_map_of_mem (mem_leftOut hl (.inr hform)))
  · constructor
    · rw [marks, List.pairwise_append, List.pairwise_map, List.pairwise_map]
      refine ⟨haccounted.tokens, haccounted.leftOut, ?_⟩
      intro s hs s' hs'
      obtain ⟨t, ht, rfl⟩ := List.mem_map.1 hs
      obtain ⟨l, hl, rfl⟩ := List.mem_map.1 hs'
      obtain ⟨hmem, hform⟩ := List.mem_filter.1 hl
      rw [Bool.or_eq_true, decide_eq_true_iff] at hform
      rcases hform with hcomment | hillegal
      · exact haccounted.comments t ht l hmem hcomment
      · exact h t ht l hmem hillegal
    · exact haccounted.outside
    · intro before c after htext t ht hcovers hnot
      rcases (haccounted.gaps before c after htext t ht hcovers hnot).2 with
        hsep | ⟨l, hl, hform, hcovers', -⟩
      · exact hsep
      · have hdisjoint := h t ht l hl hform
        unfold Span.Disjoint at hdisjoint
        unfold Span.Covers at hcovers hcovers'
        omega

/-- A vertical tab parts the words of an operator and is illegal, so it counts twice. -/
theorem not_accountedOnce_verticalTab : ¬ AccountedOnce "IS\x0bNULL".toList := by
  intro h
  have hpairs := h.disjoint
  have hmarks : marks "IS\x0bNULL".toList = [⟨0, 7⟩, ⟨2, 3⟩] := by decide +kernel
  rw [hmarks] at hpairs
  exact absurd hpairs (by decide)

end TokenStream

end Cypher
