import Cypher.Proofs.Lexing.Cut
import Cypher.Proofs.Lexing.Regrouped
import Cypher.Proofs.Lexing.Seam

/-!
# A word in the place of another

A word begins where the lexeme in front of it has ended, and that lexeme looks no
further than to the first character of the word. So one word can be put in the
place of another: the lexemes in front of it stay as they are, and those behind it
stand further on, or less far.

The tokens stay as well, unless the new word and what stands behind it spell an
operator of several words.
-/

namespace Cypher

namespace Lexeme

/-! ## Measuring in front of a word -/

theorem continuesWord_of_startsWord {d : Char} (hd : startsWord d = true) :
    continuesWord d = true := by
  unfold startsWord at hd
  unfold continuesWord Char.isAlphanum
  rcases Bool.or_eq_true_iff.1 hd with halpha | hline
  · rw [halpha, Bool.true_or, Bool.true_or]
  · rw [hline, Bool.or_true]

theorem ne_of_startsWord {d e : Char} (hd : startsWord d = true) (he : startsWord e = false) :
    d ≠ e := by
  rintro rfl
  rw [hd] at he
  cases he

section InFront

variable {c d d' : Char} {front back : List Char} {form : Form} {n : Nat}
  (hd : startsWord d = true) (hd' : startsWord d' = true) (back' : List Char)

theorem run_stopped {holds : Char → Bool} (hd : holds d = false) (front back : List Char) :
    run holds (front ++ d :: back) = run holds front := by
  obtain ⟨run, rest, rfl, hrun, hrest⟩ := exists_run holds front
  have hrest' : ∀ e ∈ (rest ++ d :: back).head?, holds e = false := by
    cases rest with
    | nil => exact fun e he => Option.some.inj he ▸ hd
    | cons e rest => exact hrest
  rw [List.append_assoc, run_append hrun hrest', run_append hrun hrest]

/-- A run that ends in front of a character that would go on with it ends there
whatever is behind. -/
theorem run_within {holds : Char → Bool} (hd : holds d = true)
    (hle : run holds (front ++ d :: back) ≤ front.length) (text : List Char) :
    run holds (front ++ text) = run holds (front ++ d :: back) := by
  unfold run at hle ⊢
  induction front with
  | nil =>
    rw [List.nil_append, List.takeWhile_cons_of_pos hd] at hle
    exact absurd hle (by simp)
  | cons e front ih =>
    rw [List.cons_append, List.cons_append]
    rw [List.cons_append] at hle
    cases he : holds e with
    | true =>
      rw [List.takeWhile_cons_of_pos he] at hle ⊢
      rw [List.takeWhile_cons_of_pos he, List.length_cons, List.length_cons,
        ih (by simpa using hle)]
    | false => simp only [List.takeWhile_cons, he, Bool.false_eq_true, if_false]

include hd

/-- A body that ends in front of a word ends there whatever is behind. -/
theorem commentBody?_within (h : commentBody? (front ++ d :: back) = some n)
    (hle : n ≤ front.length) (hd'' : d' ≠ '/') :
    commentBody? (front ++ d' :: back') = some n := by
  induction front generalizing n with
  | nil =>
    have hopen : ¬ (d = '*' ∧ back.head? = some '/') := fun h =>
      ne_of_startsWord hd (by decide) h.1
    rw [List.nil_append, commentBody?, if_neg hopen] at h
    obtain ⟨m, -, rfl⟩ := Option.map_eq_some_iff.1 h
    exact absurd hle (by simp)
  | cons e front ih =>
    have hslash : d ≠ '/' := ne_of_startsWord hd (by decide)
    have hhead : (front ++ d' :: back').head? = some '/' ↔ (front ++ d :: back).head? = some '/' := by
      cases front with
      | nil => simp [hslash, hd'']
      | cons e' front => rfl
    rw [List.cons_append, commentBody?] at h ⊢
    simp only [hhead]
    split at h
    · next hclose => rw [if_pos hclose, h]
    · next hopen =>
      obtain ⟨m, hm, rfl⟩ := Option.map_eq_some_iff.1 h
      rw [if_neg hopen, ih hm (by simpa using hle)]
      rfl

omit hd in
theorem quotedBody_cons {quote : Char} (multiline : Bool) (hc : c ≠ '\\') (text : List Char) :
    quotedBody quote multiline (c :: text) = if c = quote then (1, true)
      else if c = '\n' ∧ !multiline then (0, false)
      else ((quotedBody quote multiline text).1 + 1, (quotedBody quote multiline text).2) := by
  rw [quotedBody]
  · exact fun h _ => absurd h hc
  · exact fun _ _ h => absurd h hc

/-- A quoted body that ends in front of a word ends there whatever is behind. -/
theorem quotedBody_within {quote : Char} {multiline : Bool} (hquote : startsWord quote = false) :
    ∀ (front : List Char) {n : Nat} {closed : Bool},
      quotedBody quote multiline (front ++ d :: back) = (n, closed) → n ≤ front.length →
      startsWord d' = true → quotedBody quote multiline (front ++ d' :: back') = (n, closed)
  | [], n, closed, h, hle, hd' => by
    have hslash : d ≠ '\\' := ne_of_startsWord hd (by decide)
    have hline : ¬ (d = '\n' ∧ (!multiline) = true) := fun h =>
      ne_of_startsWord hd (by decide) h.1
    rw [List.nil_append, quotedBody_cons multiline hslash, if_neg (ne_of_startsWord hd hquote),
      if_neg hline] at h
    obtain ⟨rfl, -⟩ := Prod.mk.inj h
    exact absurd hle (by simp)
  | e :: front, n, closed, h, hle, hd' => by
    by_cases he : e = '\\'
    · subst he
      have hpair (e' : Char) (text : List Char) :
          quotedBody quote multiline ('\\' :: e' :: text)
            = if e' = '\n' ∧ !multiline then (1, false)
              else ((quotedBody quote multiline text).1 + 2,
                (quotedBody quote multiline text).2) := rfl
      cases front with
      | nil =>
        have hline : ¬ (d = '\n' ∧ (!multiline) = true) := fun h =>
          ne_of_startsWord hd (by decide) h.1
        rw [List.singleton_append, hpair, if_neg hline] at h
        obtain ⟨rfl, -⟩ := Prod.mk.inj h
        exact absurd hle (by simp)
      | cons e' front =>
        rw [List.cons_append, List.cons_append, hpair] at h ⊢
        split at h
        · next hstop => rw [if_pos hstop, h]
        · next hgo =>
          obtain ⟨rfl, rfl⟩ := Prod.mk.inj h
          rw [if_neg hgo, quotedBody_within hquote front rfl (by simpa using hle) hd']
    · rw [List.cons_append, quotedBody_cons multiline he] at h ⊢
      split at h
      · next hclose => rw [if_pos hclose, h]
      · next hopen =>
        rw [if_neg hopen]
        split at h
        · next hstop => rw [if_pos hstop, h]
        · next hgo =>
          obtain ⟨rfl, rfl⟩ := Prod.mk.inj h
          rw [if_neg hgo, quotedBody_within hquote front rfl (by simpa using hle) hd']

theorem number_within (h : number (front ++ d :: back) = (form, n)) (hd' : startsWord d' = true) :
    number (front ++ d' :: back') = (form, n) := by
  obtain ⟨digits, tail, rfl, hdigits, htail⟩ := exists_run Char.isDigit front
  have hstop {d : Char} (hd : startsWord d = true) (back : List Char) :
      ∀ e ∈ (tail ++ d :: back).head?, e.isDigit = false := by
    cases tail with
    | nil => exact fun e he => Option.some.inj he ▸ isDigit_of_startsWord hd
    | cons e tail => exact htail
  rw [List.append_assoc] at h ⊢
  by_cases hpoint : tail.head? = some '.'
  · obtain ⟨fraction, rfl⟩ := List.head?_eq_some_iff.1 hpoint
    unfold number at h ⊢
    simp only [run_append hdigits (hstop hd back), run_append hdigits (hstop hd' back'),
      List.drop_left] at h ⊢
    simp only [List.cons_append, run_stopped (isDigit_of_startsWord hd),
      run_stopped (isDigit_of_startsWord hd')] at h ⊢
    exact h
  · have hpoint' {d : Char} (hd : startsWord d = true) (back : List Char) :
        (tail ++ d :: back).head? ≠ some '.' := by
      cases tail with
      | nil => exact fun h => ne_of_startsWord hd (by decide) (Option.some.inj h)
      | cons e tail => exact hpoint
    rw [number_integer hdigits (hstop hd back) (hpoint' hd back)] at h
    rw [number_integer hdigits (hstop hd' back') (hpoint' hd' back'), h]

theorem afterDollar_within (h : afterDollar (front ++ d :: back) = (form, n))
    (hle : n ≤ front.length) : afterDollar (front ++ d' :: back') = (form, n) := by
  cases front with
  | nil =>
    unfold afterDollar at h
    simp only [List.nil_append, if_pos hd, Prod.mk.injEq] at h
    exact absurd (h.2 ▸ hle) (by simp)
  | cons e front =>
    unfold afterDollar at h ⊢
    simp only [List.cons_append] at h ⊢
    split at h
    · next he =>
      obtain ⟨rfl, rfl⟩ := Prod.mk.inj h
      rw [if_pos he, run_within (continuesWord_of_startsWord hd) (by simpa using hle)]
    · next he => rw [if_neg he, h]

omit hd in
theorem afterSlash_cons (hline : d ≠ '/') (hblock : d ≠ '*') (back : List Char) :
    afterSlash (d :: back) = (.operator .slash, 0) := by
  unfold afterSlash
  split
  · next heq => exact absurd (List.cons.inj heq).1 hline
  · next heq => exact absurd (List.cons.inj heq).1 hblock
  · rfl

theorem afterSlash_within (h : afterSlash (front ++ d :: back) = (form, n))
    (hle : n ≤ front.length) (hd' : startsWord d' = true) :
    afterSlash (front ++ d' :: back') = (form, n) := by
  have hplain {d : Char} (hd : startsWord d = true) (back : List Char) :
      afterSlash (d :: back) = (.operator .slash, 0) :=
    afterSlash_cons (ne_of_startsWord hd (by decide)) (ne_of_startsWord hd (by decide)) back
  cases front with
  | nil => rwa [List.nil_append, hplain hd, ← hplain hd' back'] at h
  | cons e front =>
    rw [List.cons_append] at h ⊢
    by_cases hline : e = '/'
    · subst hline
      obtain ⟨rfl, rfl⟩ := Prod.mk.inj h
      have hsame : run (· ≠ '\n') (front ++ d' :: back') = run (· ≠ '\n') (front ++ d :: back) :=
        run_within (by simpa using ne_of_startsWord hd (by decide)) (by simpa using hle) _
      exact congrArg (fun n => (Form.lineComment, n + 1)) hsame
    by_cases hblock : e = '*'
    · subst hblock
      unfold afterSlash at h ⊢
      simp only at h ⊢
      split at h
      · next m hbody =>
        obtain ⟨rfl, rfl⟩ := Prod.mk.inj h
        rw [commentBody?_within hd back' hbody (by simpa using hle)
          (ne_of_startsWord hd' (by decide))]
      · obtain ⟨-, rfl⟩ := Prod.mk.inj h
        simp only [List.length_append, List.length_cons] at hle
        omega
    · rwa [afterSlash_cons hline hblock, ← afterSlash_cons hline hblock (front ++ d' :: back')] at h

theorem symbol_within (h : symbol c (front ++ d :: back) = (form, n)) (hd' : startsWord d' = true) :
    symbol c (front ++ d' :: back') = (form, n) := by
  cases front with
  | cons e front => exact h
  | nil =>
    have hnone {d : Char} (hd : startsWord d = true) (back : List Char) :
        symbol c (d :: back) = symbol c [] := by
      have heq := ne_of_startsWord hd (show startsWord '=' = false by decide)
      have hgt := ne_of_startsWord hd (show startsWord '>' = false by decide)
      have hdot := ne_of_startsWord hd (show startsWord '.' = false by decide)
      unfold symbol
      simp only [List.head?_cons, List.head?_nil]
      split <;> first | rfl | simp_all
    rw [List.nil_append, hnone hd] at h
    rw [List.nil_append, hnone hd', h]

/-- What ends in front of a word ends there whatever the word is. -/
theorem measure_within (h : measure c (front ++ d :: back) = (form, n)) (hle : n ≤ front.length)
    (hd' : startsWord d' = true) : measure c (front ++ d' :: back') = (form, n) := by
  unfold measure at h ⊢
  split at h
  · next hsep => rw [if_pos hsep, h]
  next hsep =>
  rw [if_neg hsep]
  split at h
  · next hdigit => rw [if_pos hdigit, number_within hd back' h hd']
  next hdigit =>
  rw [if_neg hdigit]
  split at h
  · next hword =>
    obtain ⟨rfl, rfl⟩ := Prod.mk.inj h
    rw [if_pos hword, run_within (continuesWord_of_startsWord hd) hle]
  next hword =>
  rw [if_neg hword]
  split at h
  · next hdollar => rw [if_pos hdollar, afterDollar_within hd back' h hle]
  next hdollar =>
  rw [if_neg hdollar]
  split at h
  · next hslash => rw [if_pos hslash, afterSlash_within hd back' h hle hd']
  next hslash =>
  rw [if_neg hslash]
  split at h
  · next hquote =>
    have hquoted : startsWord c = false := by rcases hquote with rfl | rfl <;> decide
    obtain ⟨rfl, rfl⟩ := Prod.mk.inj h
    rw [if_pos hquote, quotedBody_within hd back' hquoted front rfl hle hd']
  next hquote =>
  rw [if_neg hquote]
  split at h
  · next hgrave =>
    have hquoted : startsWord c = false := by rw [hgrave]; decide
    obtain ⟨rfl, rfl⟩ := Prod.mk.inj h
    rw [if_pos hgrave, quotedBody_within hd back' hquoted front rfl hle hd']
  next hgrave =>
  rw [if_neg hgrave, symbol_within hd back' h hd']

end InFront

/-! ## Cutting in front of a word -/

/-- No word goes on to another line. -/
theorem newlines_of_isWord {word : List Char} (h : isWord word = true) :
    Text.newlines word = 0 := by
  refine List.count_eq_zero.2 fun hmem => ?_
  cases word with
  | nil => cases h
  | cons c cs =>
    unfold isWord at h
    rw [Bool.and_eq_true, List.all_eq_true] at h
    rcases List.mem_cons.1 hmem with rfl | hmem
    · exact absurd h.1 (by decide)
    · exact absurd (h.2 _ hmem) (by decide)

/-- A lexeme that is a word is made of the characters of one, and nothing more of
it is behind. -/
theorem isWord_of_measure {c : Char} {ahead : List Char} {n : Nat}
    (h : measure c ahead = (.word, n)) :
    isWord (c :: ahead.take n) = true ∧ ∀ e ∈ (ahead.drop n).head?, continuesWord e = false := by
  have hmeasured : startsWord c = true ∧ n = run continuesWord ahead := by
    rcases measure_cases h with ⟨-, hform, -⟩ | ⟨hc, -, hn⟩ | hother
    · cases hform
    · exact ⟨hc, hn⟩
    · exact absurd rfl hother.2
  obtain ⟨hc, rfl⟩ := hmeasured
  obtain ⟨front, back, rfl, hfront, hback⟩ := exists_run continuesWord ahead
  rw [run_append hfront hback, List.take_left, List.drop_left]
  refine ⟨?_, hback⟩
  show (startsWord c && front.all continuesWord) = true
  rw [hc, Bool.true_and, List.all_eq_true]
  exact hfront

/-- Lexemes in front of a word stay as they are when another word is put in its
place, and what stands behind it is cut as before. -/
theorem exists_cut_reworded {start line : Nat} {text : List Char} {front back : List Lexeme}
    {l : Lexeme} (h : cut start line text = front ++ l :: back) (hform : l.form = .word)
    {word : List Char} (hword : isWord word = true) :
    ∃ before after, text = before ++ (l.text ++ after) ∧ isWord l.text = true
      ∧ l.start = start + Text.byteLength before ∧ l.line = line + Text.newlines before
      ∧ back = cut l.stop l.line after
      ∧ cut start line (before ++ (word ++ after)) = front ++ ⟨.word, word, l.start, l.line⟩
        :: cut (l.start + Text.byteLength word) l.line after := by
  induction front generalizing start line text with
  | nil =>
    cases text with
    | nil =>
      rw [cut] at h
      cases h
    | cons c ahead =>
      rw [cut] at h
      generalize hmeasure : measure c ahead = measured at h
      obtain ⟨form, n⟩ := measured
      obtain ⟨rfl, rfl⟩ := List.cons.inj h
      cases hform
      obtain ⟨hold, hafter⟩ := isWord_of_measure hmeasure
      refine ⟨[], ahead.drop n, ?_, hold, rfl, rfl, ?_, ?_⟩
      · rw [List.nil_append, List.cons_append, List.take_append_drop]
      · rw [newlines_of_isWord hold]
        rfl
      · obtain ⟨d, ds, rfl⟩ := List.exists_cons_of_ne_nil (ne_nil_of_isWord hword)
        rw [List.nil_append, List.cons_append, cut, measure_word hword hafter]
        simp only [List.take_left, List.drop_left, newlines_of_isWord hword, Nat.add_zero,
          List.nil_append]
  | cons first front ih =>
    cases text with
    | nil =>
      rw [cut] at h
      cases h
    | cons c ahead =>
      rw [cut] at h
      generalize hmeasure : measure c ahead = measured at h
      obtain ⟨form, n⟩ := measured
      obtain ⟨rfl, hcut⟩ := List.cons.inj h
      obtain ⟨before, after, hahead, hold, hstart, hline, rfl, hnew⟩ := ih hcut
      -- The first lexeme ends in front of both words.
      obtain ⟨d, ds, hd⟩ := List.exists_cons_of_ne_nil (ne_nil_of_isWord hold)
      obtain ⟨e, es, rfl⟩ := List.exists_cons_of_ne_nil (ne_nil_of_isWord hword)
      have htaken : (ahead.take n).length = n := by
        have hne : ahead.drop n ≠ [] := by
          rw [hahead, hd]
          simp
        rw [List.length_take, Nat.min_eq_left]
        exact Nat.le_of_not_le fun hle => hne (List.drop_eq_nil_of_le hle)
      have hsplit : ahead = (ahead.take n ++ before) ++ d :: (ds ++ after) := by
        rw [List.append_assoc, ← List.cons_append, ← hd, ← hahead, List.take_append_drop]
      have hsame : measure c (ahead.take n ++ (before ++ (e :: es ++ after))) = (form, n) := by
        rw [hsplit] at hmeasure
        have hle : n ≤ (ahead.take n ++ before).length := by
          rw [List.length_append, htaken]
          exact Nat.le_add_right _ _
        rw [← List.append_assoc]
        exact measure_within (startsWord_head hold d (by rw [hd]; rfl)) _ hmeasure hle
          (startsWord_head hword e rfl)
      refine ⟨c :: ahead.take n ++ before, after, ?_, hold, ?_, ?_, rfl, ?_⟩
      · rw [List.append_assoc, ← hahead, List.cons_append, List.take_append_drop]
      · rw [hstart, Text.byteLength_append, Nat.add_assoc]
      · rw [hline, Text.newlines_append, Nat.add_assoc]
      · rw [List.append_assoc, List.cons_append, cut, hsame]
        simp only [List.take_left' htaken, List.drop_left' htaken, List.cons_append] at hnew ⊢
        rw [hnew]

end Lexeme

/-! ## Tokens in front of a word and behind it -/

/-- The text with another piece under the span. -/
def Text.replace (text : List Char) (s : Span) (piece : List Char) : List Char :=
  takeBytes s.start text ++ (piece ++ dropBytes s.stop text)

theorem Text.replace_middle (before middle after piece : List Char) :
    replace (before ++ (middle ++ after))
        ⟨byteLength before, byteLength before + byteLength middle⟩ piece
      = before ++ (piece ++ after) := by
  have hdrop := dropBytes_append (before ++ middle) after
  rw [byteLength_append, List.append_assoc] at hdrop
  unfold replace
  rw [takeBytes_append, hdrop]

theorem Text.IsBoundary.within {before rest : List Char} {offset : Nat}
    (h : IsBoundary (before ++ rest) offset) (hle : offset ≤ byteLength before) :
    IsBoundary before offset := by
  obtain ⟨front, back, htext, rfl⟩ := h
  obtain ⟨between, hbefore, -⟩ := exists_between htext.symm hle
  exact ⟨front, between, hbefore, rfl⟩

namespace Token

variable {source before rest : List Char} {first last t : Token} {ahead tokens : List Token}
  {words : List Keyword} {w : Keyword}

theorem Placed.within (h : Placed (before ++ rest) tokens)
    (hle : ∀ t ∈ tokens, t.span.stop ≤ Text.byteLength before) : Placed before tokens where
  bounds t ht :=
    have hbounds := h.bounds t ht
    ⟨hbounds.start.within (Nat.le_trans hbounds.ordered (hle t ht)),
      hbounds.stop.within (hle t ht), hbounds.ordered⟩
  apart := h.apart

theorem Placed.left {more : List Token} (h : Placed source (tokens ++ more)) :
    Placed source tokens where
  bounds t ht := h.bounds t (List.mem_append_left _ ht)
  apart := ⟨fun t ht => h.apart.nonempty t (List.mem_append_left _ ht),
    (List.pairwise_append.1 h.apart.apart).1⟩

/-- Tokens that end in front of a place are merged whatever is behind it. -/
theorem mergeFrom_within (afterDot : Bool) (h : Placed (before ++ rest) tokens)
    (hle : ∀ t ∈ tokens, t.span.stop ≤ Text.byteLength before) (rest' : List Char) :
    mergeFrom (before ++ rest) afterDot tokens = mergeFrom (before ++ rest') afterDot tokens := by
  have hembed (rest : List Char) :=
    mergeFrom_embed [] rest 0 afterDot (h.within hle)
  have hzero : shift (Text.byteLength []) 0 = id := rfl
  rw [hzero] at hembed
  simp only [List.map_id, List.nil_append] at hembed
  rw [hembed, hembed]

/-- A word that goes on with an operator begins none, and so stays. -/
theorem mergeFrom_others {rule : WordOperator} (hrule : rule ∈ wordOperators) (hw : w ∈ rule.others)
    (hkind : t.kind = .keyword w) (source : List Char) (afterDot : Bool) (ahead : List Token) :
    mergeFrom source afterDot (t :: ahead) = t :: mergeFrom source false ahead := by
  have hdistinct : ∀ rule ∈ wordOperators, ∀ rule' ∈ wordOperators,
      rule'.first ∉ rule.others := by decide
  have hnone : wordOperator? source t ahead = none := by
    refine wordOperator?_eq_none fun rule' hrule' hfirst => ?_
    cases hkind.symm.trans hfirst
    exact absurd hw (hdistinct rule hrule rule' hrule')
  rw [mergeFrom, hnone, ite_self, hkind, decide_eq_false (by simp)]

/-- The words that go on with an operator are there after the merge as well. -/
theorem spelled?_mergeFrom {rule : WordOperator} (hrule : rule ∈ wordOperators)
    (hwords : ∀ w ∈ words, w ∈ rule.others) (h : spelled? source last words ahead = some t) :
    spelled? source last words (mergeFrom source false ahead) = some t := by
  fun_induction spelled? source last words ahead with
  | case1 last ahead =>
    rw [← h]
    unfold spelled?
    rfl
  | case2 => cases h
  | case3 last word words next ahead hnext ih =>
    rw [List.forall_mem_cons] at hwords
    rw [mergeFrom_others hrule hwords.1 hnext.1, spelled?, if_pos hnext]
    exact ih hwords.2 h
  | case4 => cases h

theorem isSome_wordOperator? :
    (wordOperator? source first ahead).isSome = true ↔ ∃ rule ∈ wordOperators,
      first.kind = .keyword rule.first ∧ (spelled? source first rule.others ahead).isSome = true := by
  constructor
  · intro h
    obtain ⟨⟨rule, last⟩, hfound⟩ := Option.isSome_iff_exists.1 h
    obtain ⟨hrule, hkind, hspelled⟩ := spelled_of_wordOperator? hfound
    exact ⟨rule, hrule, hkind, by rw [hspelled]; rfl⟩
  · rintro ⟨rule, hrule, hkind, hspelled⟩
    obtain ⟨last, hlast⟩ := Option.isSome_iff_exists.1 hspelled
    rw [wordOperator?_eq_some hrule hkind hlast]
    rfl

/-- An operator that a word begins is there after the merge of what is behind it. -/
theorem isSome_wordOperator?_mergeFrom (h : (wordOperator? source first ahead).isSome = true) :
    (wordOperator? source first (mergeFrom source false ahead)).isSome = true := by
  obtain ⟨rule, hrule, hkind, hspelled⟩ := isSome_wordOperator?.1 h
  obtain ⟨last, hlast⟩ := Option.isSome_iff_exists.1 hspelled
  refine isSome_wordOperator?.2 ⟨rule, hrule, hkind, ?_⟩
  rw [spelled?_mergeFrom hrule (fun _ hw => hw) hlast]
  rfl

/-- The token put in front of a text. -/
def inFront (t : Token) : Token := ⟨t.kind, ⟨0, 0⟩, 0, ""⟩

/-- Whether words are spelled behind a token depends on where it ends only. -/
theorem isSome_spelled?_inFront (hlast : last.span.stop = Text.byteLength before)
    (h : Placed source ahead) (lines : Nat) (words : List Keyword) :
    (spelled? (before ++ source) last words
        (ahead.map (shift (Text.byteLength before) lines))).isSome
      = (spelled? source last.inFront words ahead).isSome := by
  cases words with
  | nil => cases ahead <;> rfl
  | cons word words =>
    cases ahead with
    | nil => rfl
    | cons next ahead =>
      have hbounds : Text.Bounds source ⟨0, next.span.start⟩ :=
        ⟨⟨[], source, rfl, rfl⟩, (h.bounds next List.mem_cons_self).start, Nat.zero_le _⟩
      have hgap : parted (before ++ source) last (next.shift (Text.byteLength before) lines)
          = parted source last.inFront next := by
        have hslice := Text.slice_embed hbounds before []
        rw [List.append_nil] at hslice
        have hspan : (⟨last.span.stop, (next.shift (Text.byteLength before) lines).span.start⟩ : Span)
            = Span.shift (Text.byteLength before) ⟨0, next.span.start⟩ := by
          rw [hlast]
          show _ = (⟨0 + _, _⟩ : Span)
          rw [Nat.zero_add]
          rfl
        unfold parted
        rw [hspan, hslice]
        rfl
      have hrest := spelled?_embed before [] lines words h
      rw [List.append_nil] at hrest
      have hkind : (next.shift (Text.byteLength before) lines).kind = next.kind := rfl
      rw [List.map_cons, spelled?, spelled?, hgap, hkind]
      split
      · rw [hrest, Option.isSome_map]
      · rfl

/-- So does whether a token begins an operator. -/
theorem isSome_wordOperator?_inFront (ht : t.span.stop = Text.byteLength before)
    (h : Placed source ahead) (lines : Nat) :
    (wordOperator? (before ++ source) t (ahead.map (shift (Text.byteLength before) lines))).isSome
        = true
      ↔ (wordOperator? source t.inFront ahead).isSome = true := by
  rw [isSome_wordOperator?, isSome_wordOperator?]
  simp only [isSome_spelled?_inFront ht h]
  rfl

/-- A token that is in no operator parts the merge. -/
theorem mergeFrom_around {afterDot : Bool} (hbridge : ¬ Bridged afterDot tokens (t :: ahead))
    (hnone : behindDot afterDot tokens = false → wordOperator? source t ahead = none)
    (hdot : t.kind ≠ .punctuation .dot) :
    mergeFrom source afterDot (tokens ++ t :: ahead)
      = mergeFrom source afterDot tokens ++ t :: mergeFrom source false ahead := by
  have hhere : (if behindDot afterDot tokens = true then none else wordOperator? source t ahead)
      = none := by
    cases hbehind : behindDot afterDot tokens with
    | true => rfl
    | false => exact hnone hbehind
  rw [mergeFrom_append afterDot hbridge, mergeFrom, hhere, decide_eq_false hdot]

/-- In the place of the token, the word begins an operator that goes on behind it,
and no point in front makes a key of it. -/
def Begins (source : List Char) (passed : List Token) (t : Token) (w : Keyword)
    (ahead : List Token) : Prop :=
  behindDot false passed = false
    ∧ (wordOperator? source { t with kind := .keyword w } ahead).isSome = true

instance (source : List Char) (passed : List Token) (t : Token) (w : Keyword)
    (ahead : List Token) : Decidable (Begins source passed t w ahead) :=
  inferInstanceAs (Decidable (_ ∧ _))

end Token

namespace Lexeme

theorem length_decodeName (cs : List Char) : (Text.decodeName cs).length ≤ cs.length := by
  fun_induction Text.decodeName cs with
  | case1 rest ih | case2 rest ih | case3 c rest _ _ ih =>
    simp only [List.length_cons]
    omega
  | case4 => exact Nat.le_refl _

/-- A name that shows itself is a word: quotes would be shown too. -/
theorem form_of_bare {text : List Char} {l : Lexeme} {t : Token} (hl : l ∈ ofText text)
    (htoken : l.token? = some t) (hbare : t.kind = .identifier t.text) : l.form = .word := by
  obtain ⟨kind, hkind, rfl⟩ := Option.map_eq_some_iff.1 htoken
  have hbare : kind = .identifier (String.ofList l.text) := hbare
  subst hbare
  unfold kind? at hkind
  cases hform : l.form with
  | word => rfl
  | quotedName closed =>
    rw [hform] at hkind
    have hname : String.ofList (Text.decodeName (l.body closed)) = String.ofList l.text := by
      simpa using hkind
    have hlength := length_decodeName (l.body closed)
    rw [String.ofList_injective hname] at hlength
    have hbody : (l.body closed).length ≤ l.text.length - 1 := by
      unfold body
      split <;> simp
    have hpos := List.length_pos_iff.2 (text_ne_nil hl)
    omega
  | _ =>
    rw [hform] at hkind
    cases hkind

end Lexeme

/-- A token stands only once among those of a text. -/
theorem Token.Apart.notMem {passed rest : List Token} {t : Token}
    (h : Apart (passed ++ t :: rest)) : t ∉ passed ∧ t ∉ rest := by
  have hpos := h.nonempty t (by simp)
  obtain ⟨-, hbehind, hfront⟩ := List.pairwise_append.1 h.apart
  refine ⟨fun ht => ?_, fun ht => ?_⟩
  · have hle := hfront t ht t List.mem_cons_self
    omega
  · have hle := (List.pairwise_cons.1 hbehind).1 t ht
    omega

namespace TokenStream

variable {before piece after : List Char} {front : List Lexeme} {t : Token}

theorem placed_tokens (text : List Char) : Token.Placed text (ofChars text).tokens where
  bounds _ ht := (stands_of_mem ht).bounds
  apart := apart_tokens text

/-- The lexemes behind a piece that has no line end. -/
theorem cut_behind (bytes lines : Nat) (after : List Char) :
    Lexeme.cut bytes (1 + lines) after
      = (Lexeme.ofText after).map (Lexeme.shift bytes lines) := by
  have hshift := Lexeme.cut_shift bytes lines 0 1 after
  rwa [Nat.zero_add] at hshift

section Around

variable {form : Lexeme.Form}
  (hcut : Lexeme.ofText (before ++ (piece ++ after))
    = front ++ ⟨form, piece, Text.byteLength before, 1 + Text.newlines before⟩
      :: Lexeme.cut (Text.byteLength (before ++ piece)) (1 + Text.newlines before) after)

include hcut

/-- What is wrong in front of a sound piece and behind it. -/
theorem faults_around
    (hsound : Lexeme.fault? ⟨form, piece, Text.byteLength before, 1 + Text.newlines before⟩ = none) :
    (ofChars (before ++ (piece ++ after))).faults
      = front.filterMap Lexeme.fault? ++ (ofChars after).faults.map
        (Fault.shift (Text.byteLength (before ++ piece)) (Text.newlines before)) := by
  show (Lexeme.ofText _).filterMap Lexeme.fault? = _
  rw [hcut, List.filterMap_append, List.filterMap_cons_none hsound, cut_behind, Lexeme.faults_shift]
  rfl

/-- The tokens in front of one that is in no operator are those of the lexemes in
front, and the ones behind it are those of the text behind. -/
theorem tokens_around
    (htoken : Lexeme.token? ⟨form, piece, Text.byteLength before, 1 + Text.newlines before⟩
      = some t)
    (hbridge : ∀ rest, ¬ Token.Bridged false (front.filterMap Lexeme.token?) (t :: rest))
    (hnone : Token.behindDot false (front.filterMap Lexeme.token?) = false →
      ¬ (Token.wordOperator? after t.inFront
        ((Lexeme.ofText after).filterMap Lexeme.token?)).isSome = true)
    (hdot : t.kind ≠ .punctuation .dot) :
    (ofChars (before ++ (piece ++ after))).tokens
      = Token.mergeFrom before false (front.filterMap Lexeme.token?)
        ++ t :: (ofChars after).tokens.map
          (Token.shift (Text.byteLength (before ++ piece)) (Text.newlines before)) := by
  have hplaced := placed_lexemes (before ++ (piece ++ after))
  have hspan := span_of_token? htoken
  show Token.mergeFrom _ false _ = _
  rw [hcut, List.filterMap_append, List.filterMap_cons_some htoken, cut_behind,
    Lexeme.tokens_shift] at hplaced ⊢
  generalize front.filterMap Lexeme.token? = some at hbridge hnone hplaced ⊢
  have hends : ∀ u ∈ some, u.span.stop ≤ Text.byteLength before := by
    intro u hu
    have hle := (List.pairwise_append.1 hplaced.apart.apart).2.2 u hu t List.mem_cons_self
    rwa [hspan] at hle
  have hfront := Token.mergeFrom_within false hplaced.left hends []
  have hback := Token.mergeFrom_embed (before ++ piece) [] (Text.newlines before) false
    (placed_lexemes after)
  rw [List.append_nil] at hfront
  rw [List.append_nil, List.append_assoc] at hback
  rw [Token.mergeFrom_around (hbridge _) (fun hbehind => ?_) hdot, hfront, hback]
  · rfl
  · rw [← List.append_assoc, ← Option.not_isSome_iff_eq_none]
    refine fun hsome => hnone hbehind ?_
    refine (Token.isSome_wordOperator?_inFront ?_ (placed_lexemes after) _).1 hsome
    rw [hspan, Text.byteLength_append]
    rfl

end Around

/-- A reserved word in the place of a bare name makes one token of another kind, and
the tokens behind it stand further on, or less far. Only an operator of several
words could be in the way: one that has begun in front, or one that the word begins. -/
theorem tokens_reworded {text : List Char} {passed rest : List Token}
    (htokens : (ofChars text).tokens = passed ++ t :: rest) (hbare : t.kind = .identifier t.text)
    (hfaults : (ofChars text).faults = []) {word : List Char} {w : Keyword}
    (hword : Keyword.ofLetters? word = some w)
    (hpassed : ∀ front words v, passed = front ++ words → ¬ Token.Pending (words.map Token.kind) v)
    (hbegins : ¬ Token.Begins text passed t w rest) :
    ∃ span line later, (ofChars (Text.replace text t.span word)).tokens
        = passed ++ ⟨.keyword w, span, line, String.ofList word⟩ :: later
      ∧ later.map (fun u => (u.kind, u.text)) = rest.map (fun u => (u.kind, u.text))
      ∧ (ofChars (Text.replace text t.span word)).faults = [] := by
  have hmem : t ∈ (Lexeme.ofText text).filterMap Lexeme.token? := by
    obtain ⟨u, hu, rfl | ⟨⟨op, hop⟩, -⟩⟩ := Token.exists_of_mem_mergeFrom
      (show t ∈ (ofChars text).tokens by rw [htokens]; simp)
    · exact hu
    · rw [hbare] at hop
      cases hop
  obtain ⟨⟨form, piece, start, line⟩, hl, htoken⟩ := List.mem_filterMap.1 hmem
  have hform : form = .word := Lexeme.form_of_bare hl htoken hbare
  have hspan := span_of_token? htoken
  obtain ⟨front, back, hcut⟩ := List.append_of_mem hl
  obtain ⟨before, after, rfl, -, hstart, hline, rfl, hnew⟩ :=
    Lexeme.exists_cut_reworded hcut hform (Keyword.isWord_of_ofLetters? hword)
  simp only [Nat.zero_add] at hstart hline
  subst hstart hline hform
  simp only [Lexeme.stop, ← Text.byteLength_append] at hcut hnew hspan htokens hfaults hbegins
  -- The tokens of the text are in front of the word and behind it.
  have hfirst := tokens_around hcut htoken
    (by
      rintro rest ⟨-, -, -, -, -, -, v, -, -, -, -, -, -, hv⟩
      cases hbare.symm.trans (Option.some.inj hv))
    (by
      rintro - hsome
      obtain ⟨rule, -, hkind, -⟩ := Token.isSome_wordOperator?.1 hsome
      cases hbare.symm.trans hkind)
    (by
      intro hdot
      cases hbare.symm.trans hdot)
  have honce := (htokens ▸ apart_tokens _ : Token.Apart (passed ++ t :: rest)).notMem
  obtain ⟨rfl, -, rfl⟩ := (List.append_cons_inj_of_notMem honce.1 honce.2).1
    (htokens.symm.trans hfirst)
  -- So are those of the other text.
  have htoken' : Lexeme.token? ⟨.word, word, Text.byteLength before, 1 + Text.newlines before⟩
      = some ⟨.keyword w, ⟨Text.byteLength before, Text.byteLength before + Text.byteLength word⟩,
        1 + Text.newlines before, String.ofList word⟩ := by
    unfold Lexeme.token? Lexeme.kind?
    simp only [hword]
    rfl
  have hsecond := tokens_around hnew htoken'
    (by
      rintro rest hbridged
      obtain ⟨front', words, v, hends, -, hpending, -⟩ := hbridged.ends before
      exact hpassed front' words v hends hpending)
    (by
      rintro hdot hsome
      refine hbegins ⟨(Token.behindDot_mergeFrom before false _).trans hdot, ?_⟩
      have hstop : ({ t with kind := .keyword w } : Token).span.stop
          = Text.byteLength (before ++ piece) := by
        rw [hspan, Text.byteLength_append]
      have hbehind := Token.isSome_wordOperator?_inFront hstop (placed_tokens after)
        (Text.newlines before)
      rw [List.append_assoc] at hbehind
      exact hbehind.2 (Token.isSome_wordOperator?_mergeFrom hsome))
    (by simp)
  have hreplace : Text.replace (before ++ (piece ++ after)) t.span word
      = before ++ (word ++ after) := by
    rw [hspan, Text.byteLength_append]
    exact Text.replace_middle before piece after word
  rw [faults_around hcut rfl, List.append_eq_nil_iff, List.map_eq_nil_iff] at hfaults
  rw [hreplace]
  refine ⟨_, _, _, hsecond, ?_, ?_⟩
  · rw [List.map_map, List.map_map]
    rfl
  · rw [faults_around hnew rfl, hfaults.1, hfaults.2]
    rfl

end TokenStream

end Cypher
