import Cypher.Proofs.Lexing.Cut

/-!
# Lexemes do not depend on their surroundings

What a lexeme is was decided on the characters behind it as well. But where
a separator stands behind it, or nothing, the decision is the same: so the
lexemes of a text can be set with any space between them, and are cut apart
again as they were.
-/

namespace Cypher.Lexeme

/-- The forms that tokens are read from, closed where they have to be. -/
def Form.isToken : Form → Bool
  | .integer | .float | .string true | .quotedName true | .word | .parameter
  | .operator _ | .punctuation _ => true
  | _ => false

/-- The text is empty or starts with a separator. -/
def Parted (text : List Char) : Prop := ∀ c ∈ text.head?, separates c = true

instance : (text : List Char) → Decidable (Parted text)
  | [] => .isTrue nofun
  | c :: _ => decidable_of_iff (separates c = true) (by simp [Parted])

variable {c : Char} {ahead rest : List Char} {form : Form} {n : Nat}

/-! ## Measuring before a separator -/

theorem mem_separators (h : separates c = true) :
    c = ' ' ∨ c = '\t' ∨ c = '\r' ∨ c = '\x0c' ∨ c = '\n' := by
  unfold separates at h
  simp only [Bool.or_eq_true, decide_eq_true_iff] at h
  tauto

/-- A separator belongs to no class that runs are made of. -/
theorem not_of_separates {holds : Char → Bool} (hholds : holds ' ' = false)
    (htab : holds '\t' = false) (hreturn : holds '\r' = false) (hfeed : holds '\x0c' = false)
    (hline : holds '\n' = false) (hrest : Parted rest) : ∀ d ∈ rest.head?, holds d = false := by
  intro d hd
  rcases mem_separators (hrest d hd) with rfl | rfl | rfl | rfl | rfl <;> assumption

/-- A text is a run of a class and what stands behind it. -/
theorem exists_run (holds : Char → Bool) (ahead : List Char) :
    ∃ front back, ahead = front ++ back ∧ (∀ d ∈ front, holds d = true)
      ∧ ∀ d ∈ back.head?, holds d = false := by
  refine ⟨ahead.takeWhile holds, ahead.dropWhile holds, List.takeWhile_append_dropWhile.symm,
    fun d hd => List.mem_takeWhile_imp hd, fun d hd => ?_⟩
  have hnot := List.head?_dropWhile_not holds ahead
  rwa [hd] at hnot

/-- Taking a run and parting it from the rest leaves it as long. -/
theorem run_parted (ahead : List Char) {holds : Char → Bool} (hrest : ∀ d ∈ rest.head?, holds d = false) :
    run holds ahead ≤ ahead.length
      ∧ run holds (ahead.take (run holds ahead) ++ rest) = run holds ahead := by
  obtain ⟨front, back, rfl, hfront, hback⟩ := exists_run holds ahead
  rw [run_append hfront hback, List.take_left, run_append hfront hrest, List.length_append]
  exact ⟨Nat.le_add_right _ _, rfl⟩

theorem number_parted (h : number ahead = (form, n)) (hrest : Parted rest) :
    n ≤ ahead.length ∧ number (ahead.take n ++ rest) = (form, n) := by
  have hdigit : ∀ d ∈ rest.head?, d.isDigit = false :=
    not_of_separates (by decide) (by decide) (by decide) (by decide) (by decide) hrest
  have hpoint : ∀ tail, rest ≠ '.' :: tail := by
    rintro tail rfl
    exact absurd (hrest '.' rfl) (by decide)
  obtain ⟨digits, tail, rfl, hdigits, htail⟩ := exists_run Char.isDigit ahead
  have hinteger (heq : (form, n) = (Form.integer, digits.length)) :
      n ≤ (digits ++ tail).length ∧ number ((digits ++ tail).take n ++ rest) = (form, n) := by
    cases heq
    refine ⟨by simp, ?_⟩
    unfold number
    simp only [List.take_left, run_append hdigits hdigit, List.drop_left]
  unfold number at h
  simp only [run_append hdigits htail, List.drop_left] at h
  split at h
  · next fraction =>
    split at h
    · exact hinteger h.symm
    · next hsome =>
      -- The digits, the point and the fraction are taken whole.
      obtain ⟨decimals, more, rfl, hdecimals, hmore⟩ := exists_run Char.isDigit fraction
      rw [run_append hdecimals hmore] at h hsome
      cases h
      have hwhole : (digits ++ '.' :: (decimals ++ more)).take
          (digits.length + 1 + decimals.length) = digits ++ '.' :: decimals := by
        rw [Nat.add_assoc, List.take_length_add_append, Nat.add_comm, List.take_succ_cons,
          List.take_left]
      refine ⟨by simp only [List.length_append, List.length_cons]; omega, ?_⟩
      rw [hwhole, List.append_assoc, List.cons_append]
      unfold number
      have hpoint : ∀ d ∈ ('.' :: (decimals ++ rest)).head?, Char.isDigit d = false := by
        intro d hd
        cases hd
        rfl
      rw [run_append hdigits hpoint]
      simp only [List.drop_left, run_append hdecimals hdigit, if_neg hsome]
  · exact hinteger h.symm

/-- A body that is closed is the same before anything. -/
theorem quotedBody_take {quote : Char} (hquote : quote ≠ '\\') {multiline : Bool}
    (h : quotedBody quote multiline ahead = (n, true)) (rest : List Char) :
    n ≤ ahead.length ∧ quotedBody quote multiline (ahead.take n ++ rest) = (n, true) := by
  fun_induction quotedBody quote multiline ahead generalizing n with
  | case1 => cases h
  | case2 => cases h
  | case3 c more hstop => cases h
  | case4 c more hgo m closed hmore ih =>
    obtain ⟨rfl, rfl⟩ := Prod.mk.inj h
    obtain ⟨hle, hih⟩ := ih hmore
    refine ⟨by simpa using hle, ?_⟩
    show quotedBody quote multiline ('\\' :: c :: (more.take m ++ rest)) = _
    rw [quotedBody, if_neg hgo, hih]
  | case5 more =>
    obtain ⟨rfl, -⟩ := Prod.mk.inj h
    refine ⟨by simp, ?_⟩
    show quotedBody quote multiline (quote :: rest) = _
    rw [quotedBody, if_pos rfl]
    · exact fun h => absurd h hquote
    · exact fun _ _ h => absurd h hquote
  | case6 c more hslash hslash' hne hstop => cases h
  | case7 c more hslash hslash' hne hgo m closed hmore ih =>
    obtain ⟨rfl, rfl⟩ := Prod.mk.inj h
    obtain ⟨hle, hih⟩ := ih hmore
    have hc : c ≠ '\\' := by
      rintro rfl
      cases more with
      | nil => exact hslash rfl rfl
      | cons d ds => exact hslash' d ds rfl rfl
    refine ⟨by simpa using hle, ?_⟩
    show quotedBody quote multiline (c :: (more.take m ++ rest)) = _
    rw [quotedBody, if_neg hne, if_neg hgo, hih]
    · exact fun h => absurd h hc
    · exact fun _ _ h => absurd h hc

theorem symbol_parted (h : symbol c ahead = (form, n)) (hform : form ≠ .illegal)
    (hrest : Parted rest) :
    n ≤ ahead.length ∧ symbol c (ahead.take n ++ rest) = (form, n) := by
  have hone {d : Char} (hd : ahead.head? = some d) (hn : n = 1) :
      n ≤ ahead.length ∧ symbol c (ahead.take n ++ rest) = (form, n) := by
    subst hn
    cases ahead with
    | nil => cases hd
    | cons e more =>
      refine ⟨by simp, ?_⟩
      rw [← h]
      rfl
  have hhead : rest.head? = none ∨ rest.head? = some ' ' ∨ rest.head? = some '\t'
      ∨ rest.head? = some '\r' ∨ rest.head? = some '\x0c' ∨ rest.head? = some '\n' := by
    cases hd : rest.head? with
    | none => exact .inl rfl
    | some d =>
      rcases mem_separators (hrest d hd) with rfl | rfl | rfl | rfl | rfl <;> simp
  have hzero (hn : n = 0) (hsame : symbol c rest = (form, 0)) :
      n ≤ ahead.length ∧ symbol c (ahead.take n ++ rest) = (form, n) := by
    subst hn
    exact ⟨Nat.zero_le _, hsame⟩
  unfold symbol at h
  split at h <;> cases h
  all_goals first
    | exact absurd rfl hform
    | exact hone ‹_› rfl
    | skip
  all_goals
    apply hzero rfl
    unfold symbol
    rcases hhead with hd | hd | hd | hd | hd | hd <;> (rw [hd]; rfl)

/-- A token is measured as before when a separator is put behind it. -/
theorem measure_parted (h : measure c ahead = (form, n)) (hform : form.isToken = true)
    (hrest : Parted rest) :
    n ≤ ahead.length ∧ measure c (ahead.take n ++ rest) = (form, n) := by
  unfold measure at h ⊢
  by_cases hsep : separates c = true
  · rw [if_pos hsep] at h
    cases h
    cases hform
  rw [if_neg hsep] at h ⊢
  by_cases hdigit : c.isDigit = true
  · rw [if_pos hdigit] at h ⊢
    exact number_parted h hrest
  rw [if_neg hdigit] at h ⊢
  have hword : ∀ d ∈ rest.head?, continuesWord d = false :=
    not_of_separates (by decide) (by decide) (by decide) (by decide) (by decide) hrest
  by_cases hstart : startsWord c = true
  · rw [if_pos hstart] at h ⊢
    cases h
    obtain ⟨hle, hrun⟩ := run_parted ahead hword
    exact ⟨hle, by rw [hrun]⟩
  rw [if_neg hstart] at h ⊢
  by_cases hdollar : c = '$'
  · rw [if_pos hdollar] at h ⊢
    unfold afterDollar at h
    split at h
    · next d more =>
      split at h
      · next hd =>
        cases h
        obtain ⟨hle, hrun⟩ := run_parted more hword
        refine ⟨by simpa using hle, ?_⟩
        rw [List.take_succ_cons, List.cons_append]
        unfold afterDollar
        simp only [if_pos hd, hrun]
      · cases h
        cases hform
    · cases h
      cases hform
  rw [if_neg hdollar] at h ⊢
  by_cases hslash : c = '/'
  · rw [if_pos hslash] at h ⊢
    have hzero : (form, n) = (Form.operator .slash, 0) := by
      unfold afterSlash at h
      split at h
      · cases h
        cases hform
      · split at h <;> cases h <;> cases hform
      · exact h.symm
    cases hzero
    refine ⟨Nat.zero_le _, ?_⟩
    show afterSlash rest = _
    cases rest with
    | nil => rfl
    | cons d more =>
      rcases mem_separators (hrest d rfl) with rfl | rfl | rfl | rfl | rfl <;> rfl
  rw [if_neg hslash] at h ⊢
  by_cases hquote : c = '\'' ∨ c = '"'
  · rw [if_pos hquote] at h ⊢
    have hne : c ≠ '\\' := by rcases hquote with rfl | rfl <;> decide
    cases hbody : quotedBody c false ahead with
    | mk m closed =>
      rw [hbody] at h
      cases h
      cases closed with
      | false => cases hform
      | true =>
        obtain ⟨hle, hsame⟩ := quotedBody_take hne hbody rest
        exact ⟨hle, by rw [hsame]⟩
  rw [if_neg hquote] at h ⊢
  by_cases hgrave : c = Text.grave
  · rw [if_pos hgrave] at h ⊢
    have hne : c ≠ '\\' := by rw [hgrave]; decide
    cases hbody : quotedBody c true ahead with
    | mk m closed =>
      rw [hbody] at h
      cases h
      cases closed with
      | false => cases hform
      | true =>
        obtain ⟨hle, hsame⟩ := quotedBody_take hne hbody rest
        exact ⟨hle, by rw [hsame]⟩
  rw [if_neg hgrave] at h ⊢
  exact symbol_parted h (fun hill => by rw [hill] at hform; cases hform) hrest

/-! ## The words of a text -/

/-- The lexemes of a text but for the separators. -/
def words (lexemes : List Lexeme) : List Lexeme :=
  lexemes.filter fun l => l.form ≠ .separator

/-- The lexeme is cut off alike wherever a separator or nothing follows it. -/
def Loose (l : Lexeme) : Prop :=
  ∃ c cs, l.text = c :: cs
    ∧ ∀ rest, Parted rest → measure c (cs ++ rest) = (l.form, cs.length)

theorem loose_of_mem_cut {start line : Nat} {text : List Char} {l : Lexeme}
    (h : l ∈ cut start line text) (hform : l.form.isToken = true) : l.Loose := by
  fun_induction cut start line text with
  | case1 => cases h
  | case2 start line c ahead form n hm piece ih =>
    rcases List.mem_cons.1 h with rfl | hmem
    · refine ⟨c, ahead.take n, rfl, fun rest hrest => ?_⟩
      obtain ⟨hle, hsame⟩ := measure_parted hm hform hrest
      rw [hsame, List.length_take, Nat.min_eq_left hle]
    · exact ih hmem

/-- The characters may be written for the lexeme: they are its own, or
spell the same reserved word. -/
def Respells (l : Lexeme) (text : List Char) : Prop :=
  text = l.text ∨ l.form = .word ∧ (Keyword.ofLetters? l.text).isSome
    ∧ text.map Char.toUpper = l.text.map Char.toUpper

/-- A text made of these lexemes, each in one of its spellings, with
separators before, between and behind them. -/
inductive Laid : List Lexeme → List Char → Prop
  | blank {gap : List Char} (hgap : ∀ c ∈ gap, separates c = true) : Laid [] gap
  | word {gap spelling rest : List Char} {l : Lexeme} {ls : List Lexeme}
      (hgap : ∀ c ∈ gap, separates c = true) (hl : l.Respells spelling)
      (hparted : Parted rest) (hrest : Laid ls rest) :
      Laid (l :: ls) (gap ++ (spelling ++ rest))

theorem words_cut_gap {gap : List Char} (hgap : ∀ c ∈ gap, separates c = true)
    (start line : Nat) (rest : List Char) :
    ∃ start' line', words (cut start line (gap ++ rest)) = words (cut start' line' rest) := by
  induction gap generalizing start line with
  | nil => exact ⟨start, line, rfl⟩
  | cons c gap ih =>
    rw [List.forall_mem_cons] at hgap
    have hm : measure c (gap ++ rest) = (.separator, 0) := by
      unfold measure
      rw [if_pos hgap.1]
    obtain ⟨start', line', heq⟩ := ih hgap.2 (start + Text.byteLength [c])
      (line + Text.newlines [c])
    refine ⟨start', line', ?_⟩
    rw [← heq, List.cons_append, cut, hm]
    exact List.filter_cons_of_neg (by simp)

/-- A reserved word is one in any case of its letters. -/
theorem Loose.respelled {l : Lexeme} {text : List Char} (hl : l.Loose) (h : l.Respells text) :
    ∃ c cs, text = c :: cs
      ∧ ∀ rest, Parted rest → measure c (cs ++ rest) = (l.form, cs.length) := by
  rcases h with rfl | ⟨hform, hword, hupper⟩
  · exact hl
  · obtain ⟨w, hw⟩ := Option.isSome_iff_exists.1 hword
    have hw' : Keyword.ofLetters? text = some w := by
      unfold Keyword.ofLetters? at hw ⊢
      rw [hupper, hw]
    have hisWord := Keyword.isWord_of_ofLetters? hw'
    cases text with
    | nil => cases hisWord
    | cons c cs =>
      refine ⟨c, cs, rfl, fun rest hrest => ?_⟩
      rw [hform]
      exact measure_word hisWord
        (not_of_separates (by decide) (by decide) (by decide) (by decide) (by decide) hrest)

/-- A text that is laid out from lexemes is cut into them again. -/
theorem words_cut_of_laid {ls : List Lexeme} {text : List Char} (h : Laid ls text)
    (hls : ∀ l ∈ ls, l.Loose ∧ l.form.isToken = true) (start line : Nat) :
    List.Forall₂ (fun l l' => l'.form = l.form ∧ l.Respells l'.text) ls
      (words (cut start line text)) := by
  induction h generalizing start line with
  | @blank gap hgap =>
    obtain ⟨start', line', heq⟩ := words_cut_gap hgap start line []
    rw [List.append_nil] at heq
    rw [heq, cut]
    exact .nil
  | @word gap spelling rest l ls hgap hl hparted hrest ih =>
    rw [List.forall_mem_cons] at hls
    obtain ⟨⟨hloose, htoken⟩, hls⟩ := hls
    obtain ⟨start', line', heq⟩ := words_cut_gap hgap start line (spelling ++ rest)
    obtain ⟨c, cs, rfl, hm⟩ := hloose.respelled hl
    have hne : l.form ≠ .separator := by
      intro hsep
      rw [hsep] at htoken
      cases htoken
    rw [heq, List.cons_append, cut, hm rest hparted]
    simp only [List.take_left, List.drop_left]
    rw [words, List.filter_cons_of_pos (by simpa using hne)]
    exact .cons ⟨rfl, hl⟩ (ih hls _ _)

end Cypher.Lexeme
