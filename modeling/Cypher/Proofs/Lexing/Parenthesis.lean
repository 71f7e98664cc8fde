import Cypher.Proofs.Lexing.Accounted
import Cypher.Proofs.Lexing.Reworded

/-!
# A parenthesis put between two lexemes

A parenthesis belongs to no other lexeme, but for a comment and what is quoted. So
it can be put between two lexemes, unless the one in front goes on to the end of
its line: those in front of it stay as they are, and those behind it stand
further on.

The tokens stay as well. No operator of several words has it between its words,
for there no token ends.
-/

namespace Cypher

namespace Lexeme

/-! ## Measuring in front of a parenthesis -/

/-- The parenthesis that opens a group, or the one that closes it. -/
def parenthesis (opens : Bool) : Char := if opens then '(' else ')'

/-- The form of a parenthesis. -/
def Form.parenthesis (opens : Bool) : Form := .punctuation (if opens then .lparen else .rparen)

theorem measure_parenthesis (opens : Bool) (ahead : List Char) :
    measure (parenthesis opens) ahead = (.parenthesis opens, 0) := by
  cases opens <;> rfl

/-- Whether the form has the delimiter behind it that it needs. -/
def Form.isClosed : Form → Bool
  | .blockComment closed | .string closed | .quotedName closed => closed
  | _ => true

section Behind

variable {c : Char} {front back : List Char} {form : Form} {n : Nat} {opens : Bool}
  (back' : List Char)

/-- A run that ends in the text in front ends there whatever is behind. -/
theorem run_inside {holds : Char → Bool} (hlt : run holds (front ++ back) < front.length) :
    run holds (front ++ back') = run holds (front ++ back) := by
  unfold run at hlt ⊢
  induction front with
  | nil => cases hlt
  | cons e front ih =>
    rw [List.cons_append] at hlt
    rw [List.cons_append, List.cons_append]
    cases he : holds e with
    | true =>
      rw [List.takeWhile_cons_of_pos he] at hlt ⊢
      rw [List.takeWhile_cons_of_pos he, List.length_cons, List.length_cons,
        ih (Nat.lt_of_succ_lt_succ hlt)]
    | false => simp only [List.takeWhile_cons, he, Bool.false_eq_true, if_false]

/-- A run that does not go beyond the text in front ends in front of what stops it. -/
theorem run_beside {holds : Char → Bool} {d : Char} (hd : holds d = false)
    (hle : run holds (front ++ back) ≤ front.length) :
    run holds (front ++ d :: back') = run holds (front ++ back) := by
  rw [run_stopped hd]
  unfold run at hle ⊢
  induction front with
  | nil => exact (Nat.le_zero.1 hle).symm
  | cons e front ih =>
    rw [List.cons_append] at hle ⊢
    cases he : holds e with
    | true =>
      rw [List.takeWhile_cons_of_pos he] at hle ⊢
      rw [List.takeWhile_cons_of_pos he, List.length_cons, List.length_cons,
        ih (Nat.le_of_succ_le_succ hle)]
    | false => simp only [List.takeWhile_cons, he, Bool.false_eq_true, if_false]

/-- How many digits a number has in front of its point. -/
theorem run_le_number (h : number front = (form, n)) : run Char.isDigit front ≤ n := by
  unfold number at h
  simp only at h
  split at h
  · split at h <;> cases h
    · exact Nat.le_refl _
    · omega
  · cases h
    exact Nat.le_refl _

theorem number_beside {d : Char} (hdigit : d.isDigit = false) (hpoint : d ≠ '.')
    (h : number (front ++ back) = (form, n)) (hle : n ≤ front.length) :
    number (front ++ d :: back') = (form, n) := by
  have hwhole := Nat.le_trans (run_le_number h) hle
  have hsame := run_beside back' hdigit hwhole
  unfold number at h ⊢
  simp only [hsame] at h ⊢
  generalize run Char.isDigit (front ++ back) = whole at h hwhole ⊢
  rw [List.drop_append_of_le_length hwhole] at h ⊢
  have hlength : (front.drop whole).length = front.length - whole := List.length_drop
  generalize front.drop whole = tail at h hlength ⊢
  cases tail with
  | nil =>
    rw [List.nil_append] at h ⊢
    have hzero : (form, n) = (Form.integer, whole) := by
      split at h
      · split at h
        · exact h.symm
        · cases h
          simp only [List.length_nil] at hlength
          omega
      · exact h.symm
    rw [hzero]
    split
    · next heq => exact absurd (List.cons.inj heq).1 hpoint
    · rfl
  | cons e tail =>
    rw [List.cons_append] at h ⊢
    by_cases he : e = '.'
    · subst he
      simp only [List.length_cons] at h hlength ⊢
      have hfraction : run Char.isDigit (tail ++ back) ≤ tail.length := by
        split at h
        · next hnone => omega
        · cases h
          omega
      rw [run_beside back' hdigit hfraction]
      exact h
    · split at h
      · next heq => exact absurd (List.cons.inj heq).1 he
      · split
        · next heq => exact absurd (List.cons.inj heq).1 he
        · exact h

theorem afterDollar_beside {d : Char} (hstarts : startsWord d = false)
    (hcontinues : continuesWord d = false) (h : afterDollar (front ++ back) = (form, n))
    (hle : n ≤ front.length) : afterDollar (front ++ d :: back') = (form, n) := by
  cases front with
  | nil =>
    have hnone : afterDollar back = (.illegal, 0) := by
      unfold afterDollar
      split
      · next e rest =>
        split
        · next he =>
          unfold afterDollar at h
          simp only [List.nil_append, if_pos he] at h
          cases h
          cases hle
        · rfl
      · rfl
    rw [List.nil_append, hnone] at h
    rw [← h]
    unfold afterDollar
    simp only [List.nil_append, hstarts, Bool.false_eq_true, if_false]
  | cons e front =>
    unfold afterDollar at h ⊢
    simp only [List.cons_append] at h ⊢
    split at h
    · next he =>
      cases h
      rw [if_pos he, run_beside back' hcontinues (Nat.le_of_succ_le_succ hle)]
    · next he => rw [if_neg he, h]

/-- A comment that is closed is the same if what is behind it is left out. -/
theorem commentBody?_left (h : commentBody? (front ++ back) = some n) (hle : n ≤ front.length) :
    commentBody? front = some n := by
  induction front generalizing n with
  | nil =>
    obtain rfl : n = 0 := Nat.le_zero.1 hle
    cases back with
    | nil => cases h
    | cons e back =>
      rw [List.nil_append, commentBody?] at h
      split at h
      · cases h
      · obtain ⟨m, -, hm⟩ := Option.map_eq_some_iff.1 h
        cases hm
  | cons e front ih =>
    rw [List.cons_append, commentBody?] at h
    rw [commentBody?]
    cases front with
    | nil =>
      -- The star and the slash are two characters.
      split at h
      · cases h
        simp at hle
      · obtain ⟨m, hm, rfl⟩ := Option.map_eq_some_iff.1 h
        cases ih hm (Nat.le_of_succ_le_succ hle)
    | cons e' front =>
      rw [List.cons_append, List.head?_cons] at h
      rw [List.head?_cons]
      split at h
      · next hclose => rw [if_pos hclose, h]
      · next hopen =>
        obtain ⟨m, hm, rfl⟩ := Option.map_eq_some_iff.1 h
        rw [if_neg hopen, ih hm (Nat.le_of_succ_le_succ hle)]
        rfl

theorem afterSlash_beside {d : Char} (hslash : d ≠ '/') (hstar : d ≠ '*')
    (h : afterSlash (front ++ back) = (form, n)) (hle : n ≤ front.length)
    (hclosed : form.isClosed = true) (hcomment : form = .lineComment → n < front.length) :
    afterSlash (front ++ d :: back') = (form, n) := by
  cases front with
  | nil =>
    obtain rfl : n = 0 := Nat.le_zero.1 hle
    have hform : form = .operator .slash := by
      rw [List.nil_append] at h
      unfold afterSlash at h
      split at h
      · cases h
      · split at h <;> cases h
      · cases h
        rfl
    rw [hform, List.nil_append, afterSlash_cons hslash hstar]
  | cons e front =>
    rw [List.cons_append] at h ⊢
    by_cases hline : e = '/'
    · subst hline
      obtain ⟨rfl, rfl⟩ := Prod.mk.inj h
      have hlt : run (· ≠ '\n') (front ++ back) < front.length :=
        Nat.lt_of_succ_lt_succ (hcomment rfl)
      exact congrArg (fun n => (Form.lineComment, n + 1)) (run_inside _ hlt)
    by_cases hblock : e = '*'
    · subst hblock
      unfold afterSlash at h ⊢
      simp only at h ⊢
      split at h
      · next m hbody =>
        obtain ⟨rfl, rfl⟩ := Prod.mk.inj h
        have hfront := commentBody?_left hbody (Nat.le_of_succ_le_succ hle)
        rw [(commentBody?_append hfront _).2]
      · cases h
        cases hclosed
    · rwa [afterSlash_cons hline hblock, ← afterSlash_cons hline hblock (front ++ d :: back')] at h

/-- What is quoted and closed is the same whatever is behind. -/
theorem quotedBody_beside {quote : Char} (hquote : quote ≠ '\\') {multiline : Bool}
    (h : quotedBody quote multiline (front ++ back) = (n, true)) (hle : n ≤ front.length) :
    quotedBody quote multiline (front ++ back') = (n, true) := by
  have hsame := (quotedBody_take hquote h ((front ++ back').drop n)).2
  rwa [List.take_append_of_le_length hle, ← List.take_append_of_le_length hle,
    List.take_append_drop] at hsame

theorem symbol_beside {d : Char} (heq : d ≠ '=') (hgt : d ≠ '>') (hdot : d ≠ '.')
    (h : symbol c (front ++ back) = (form, n)) (hle : n ≤ front.length) :
    symbol c (front ++ d :: back') = (form, n) := by
  cases front with
  | cons e front => exact h
  | nil =>
    obtain rfl : n = 0 := Nat.le_zero.1 hle
    rw [List.nil_append] at h ⊢
    have hnone : symbol c (d :: back') = symbol c [] := by
      unfold symbol
      simp only [List.head?_cons, List.head?_nil]
      split <;> first | rfl | simp_all
    rw [hnone, ← h]
    unfold symbol at h ⊢
    simp only [List.head?_nil]
    split at h <;> first | (cases h; done) | rfl | simp_all

/-- What ends in front of a parenthesis ends there whatever else could be there. -/
theorem measure_beside (opens : Bool) (h : measure c (front ++ back) = (form, n))
    (hle : n ≤ front.length) (hclosed : form.isClosed = true)
    (hcomment : form = .lineComment → n < front.length) :
    measure c (front ++ parenthesis opens :: back') = (form, n) := by
  have hne {d : Char} (hd : d ≠ '(' ∧ d ≠ ')') : parenthesis opens ≠ d := by
    cases opens
    · exact hd.2.symm
    · exact hd.1.symm
  have hclass {holds : Char → Bool} (hholds : holds '(' = false ∧ holds ')' = false) :
      holds (parenthesis opens) = false := by
    cases opens
    · exact hholds.2
    · exact hholds.1
  unfold measure at h ⊢
  split at h
  · next hsep => rw [if_pos hsep, h]
  next hsep =>
  rw [if_neg hsep]
  split at h
  · next hdigit =>
    rw [if_pos hdigit, number_beside back' (hclass (by decide)) (hne (by decide)) h hle]
  next hdigit =>
  rw [if_neg hdigit]
  split at h
  · next hword =>
    obtain ⟨rfl, rfl⟩ := Prod.mk.inj h
    rw [if_pos hword, run_beside back' (hclass (by decide)) hle]
  next hword =>
  rw [if_neg hword]
  split at h
  · next hdollar =>
    rw [if_pos hdollar, afterDollar_beside back' (hclass (by decide)) (hclass (by decide)) h hle]
  next hdollar =>
  rw [if_neg hdollar]
  split at h
  · next hslash =>
    rw [if_pos hslash,
      afterSlash_beside back' (hne (by decide)) (hne (by decide)) h hle hclosed hcomment]
  next hslash =>
  rw [if_neg hslash]
  split at h
  · next hquote =>
    have hback : c ≠ '\\' := by rcases hquote with rfl | rfl <;> decide
    obtain ⟨rfl, rfl⟩ := Prod.mk.inj h
    rw [if_pos hquote, quotedBody_beside _ hback (Prod.ext rfl hclosed) hle]
    exact Prod.ext (congrArg Form.string hclosed.symm) rfl
  next hquote =>
  rw [if_neg hquote]
  split at h
  · next hgrave =>
    have hback : c ≠ '\\' := by rw [hgrave]; decide
    obtain ⟨rfl, rfl⟩ := Prod.mk.inj h
    rw [if_pos hgrave, quotedBody_beside _ hback (Prod.ext rfl hclosed) hle]
    exact Prod.ext (congrArg Form.quotedName hclosed.symm) rfl
  next hgrave =>
  rw [if_neg hgrave,
    symbol_beside back' (hne (by decide)) (hne (by decide)) (hne (by decide)) h hle]

end Behind

/-! ## Cutting around a parenthesis -/

theorem isOpen_of_isClosed {form : Form} (h : form.isClosed = true) : form.isOpen = false := by
  unfold Form.isClosed at h
  unfold Form.isOpen
  split at h <;> first | rfl | (subst h; rfl) | skip
  split <;> first | rfl | simp_all

/-- What is cut off first is never empty. -/
theorem text_pos_of_cut {start line : Nat} {text : List Char} {first : Lexeme}
    {front back : List Lexeme} (h : cut start line text = first :: front ++ back) :
    0 < ((first :: front).flatMap Lexeme.text).length := by
  have hmem : first ∈ cut start line text := h ▸ List.mem_cons_self
  obtain ⟨_, d, _, _, -, -, htext, -⟩ := exists_measure hmem
  rw [List.flatMap_cons, htext, List.cons_append, List.length_cons]
  exact Nat.succ_pos _

/-- Lexemes stay as they are when a parenthesis is put behind them, and what stands
behind it is cut as before. -/
theorem exists_cut_parenthesis {start line : Nat} {text : List Char} {front back : List Lexeme}
    (h : cut start line text = front ++ back) (hclosed : ∀ l ∈ front, l.form.isClosed = true)
    (hlast : ∀ l ∈ front.getLast?, l.form ≠ .lineComment) :
    ∃ before after, text = before ++ after ∧ before = front.flatMap Lexeme.text
      ∧ back = cut (start + Text.byteLength before) (line + Text.newlines before) after
      ∧ (∀ l ∈ front.getLast?, l.stop = start + Text.byteLength before)
      ∧ ∀ opens, cut start line (before ++ parenthesis opens :: after)
        = front ++ ⟨.parenthesis opens, [parenthesis opens], start + Text.byteLength before,
            line + Text.newlines before⟩
          :: cut (start + Text.byteLength before + 1) (line + Text.newlines before) after := by
  induction front generalizing start line text with
  | nil =>
    refine ⟨[], text, rfl, rfl, h.symm, nofun, fun opens => ?_⟩
    have hbytes : Text.byteLength [parenthesis opens] = 1 := by cases opens <;> rfl
    have hlines : Text.newlines [parenthesis opens] = 0 := by cases opens <;> rfl
    rw [List.nil_append, cut, measure_parenthesis]
    simp only [List.take_zero, List.drop_zero, hbytes, hlines, List.nil_append]
    rfl
  | cons first front ih =>
    cases text with
    | nil =>
      rw [cut] at h
      cases h
    | cons c ahead =>
      rw [cut] at h
      generalize hmeasure : measure c ahead = measured at h
      obtain ⟨form, n⟩ := measured
      obtain ⟨rfl, hcut⟩ := List.cons.inj h
      rw [List.forall_mem_cons] at hclosed
      have hlast' : ∀ l ∈ front.getLast?, l.form ≠ .lineComment := fun l hl =>
        hlast l (List.mem_getLast?_cons hl)
      obtain ⟨before, after, hahead, hbefore, hback, hstop, hnew⟩ := ih hcut hclosed.2 hlast'
      have hle := (measure_newline hmeasure (isOpen_of_isClosed hclosed.1) []).1
      have htaken : (ahead.take n).length = n := List.length_take_of_le hle
      have hsplit : ahead = (ahead.take n ++ before) ++ after := by
        rw [List.append_assoc, ← hahead, List.take_append_drop]
      have hcomment : form = .lineComment → n < (ahead.take n ++ before).length := by
        intro hform
        cases front with
        | nil => exact absurd hform (hlast _ rfl)
        | cons next front =>
          have hpos := text_pos_of_cut hcut
          rw [hbefore, List.length_append, htaken]
          omega
      have hsame (opens : Bool) : measure c (ahead.take n ++ (before ++ parenthesis opens :: after))
          = (form, n) := by
        rw [hsplit] at hmeasure
        rw [← List.append_assoc]
        exact measure_beside _ opens hmeasure (by rw [List.length_append, htaken]; omega) hclosed.1
          hcomment
      generalize hpiece : c :: ahead.take n = piece at hcut hback hstop hnew ⊢
      refine ⟨piece ++ before, after, ?_, ?_, ?_, ?_, fun opens => ?_⟩
      · rw [List.append_assoc, ← hahead, ← hpiece, List.cons_append, List.take_append_drop]
      · rw [List.flatMap_cons, hbefore]
      · rw [hback, Text.byteLength_append, Text.newlines_append, Nat.add_assoc, Nat.add_assoc]
      · rw [Text.byteLength_append, ← Nat.add_assoc]
        cases front with
        | nil =>
          obtain rfl : before = [] := hbefore
          rintro l ⟨⟩
          rfl
        | cons next front =>
          rw [List.getLast?_cons_cons]
          exact hstop
      · rw [Text.byteLength_append, Text.newlines_append, ← Nat.add_assoc, ← Nat.add_assoc,
          List.cons_append, ← hnew opens, List.append_assoc, ← hpiece, List.cons_append, cut, hsame]
        simp only [List.take_left' htaken, List.drop_left' htaken]

theorem measure_lineComment {c : Char} {ahead : List Char} {n : Nat}
    (h : measure c ahead = (.lineComment, n)) :
    ∃ comment, ahead = '/' :: comment ∧ n = run (· ≠ '\n') comment + 1 := by
  obtain rfl := measure_comment h rfl
  have hslash : afterSlash ahead = (.lineComment, n) := h
  unfold afterSlash at hslash
  split at hslash
  · next comment =>
    cases hslash
    exact ⟨comment, rfl, rfl⟩
  · split at hslash <;> cases hslash
  · cases hslash

/-- A comment that goes on to the end of its line has the line end behind it. -/
theorem separator_of_lineComment {start line : Nat} {text : List Char} {front back : List Lexeme}
    {l l' : Lexeme} (h : cut start line text = front ++ l :: l' :: back)
    (hform : l.form = .lineComment) : l'.form = .separator := by
  induction front generalizing start line text with
  | nil =>
    cases text with
    | nil =>
      rw [cut] at h
      cases h
    | cons c ahead =>
      rw [cut] at h
      generalize hmeasure : measure c ahead = measured at h
      obtain ⟨form, n⟩ := measured
      obtain ⟨rfl, hcut⟩ := List.cons.inj h
      obtain rfl : form = .lineComment := hform
      obtain ⟨comment, rfl, rfl⟩ := measure_lineComment hmeasure
      obtain ⟨taken, more, rfl, htaken, hmore⟩ := exists_run (· ≠ '\n') comment
      rw [run_append htaken hmore, List.drop_succ_cons, List.drop_left] at hcut
      cases more with
      | nil =>
        rw [cut] at hcut
        cases hcut
      | cons d more =>
        obtain rfl : d = '\n' := by simpa using hmore d rfl
        rw [cut] at hcut
        exact congrArg Lexeme.form (List.cons.inj hcut).1.symm
  | cons first front ih =>
    cases text with
    | nil =>
      rw [cut] at h
      cases h
    | cons c ahead =>
      rw [cut] at h
      exact ih (List.cons.inj h).2

end Lexeme

namespace Token

variable {source : List Char} {first last t : Token} {ahead more tokens : List Token}
  {words : List Keyword}

/-! ## Merging on both sides of a place -/

theorem spelled?_right (h : spelled? source first words ahead = some last) (more : List Token) :
    spelled? source first words (ahead ++ more) = some last := by
  fun_induction spelled? source first words ahead with
  | case1 first ahead =>
    rw [← h]
    unfold spelled?
    rfl
  | case2 => cases h
  | case3 first word words next ahead hnext ih =>
    rw [List.cons_append, spelled?, if_pos hnext]
    exact ih h
  | case4 => cases h

theorem spelled?_left (h : spelled? source first words (ahead ++ more) = some last)
    (hlast : last ∉ more) : spelled? source first words ahead = some last := by
  induction words generalizing first ahead with
  | nil =>
    rw [← h]
    unfold spelled?
    rfl
  | cons word words ih =>
    cases ahead with
    | nil =>
      cases more with
      | nil => cases h
      | cons next more =>
        rw [List.nil_append, spelled?] at h
        split at h
        · rcases mem_of_spelled? h with rfl | hmem
          · exact absurd List.mem_cons_self hlast
          · exact absurd (List.mem_cons_of_mem _ (List.mem_of_mem_take hmem)) hlast
        · cases h
    | cons next ahead =>
      rw [List.cons_append, spelled?] at h
      rw [spelled?]
      split at h
      · next hnext => rw [if_pos hnext, ih h]
      · cases h

/-- No operator is found that reaches over the place. -/
theorem wordOperator?_apart {place : Nat} (ht : t.span.start < place)
    (hback : ∀ u ∈ more, place < u.span.stop)
    (h : ∀ u ∈ mergeFrom source false (t :: ahead ++ more), u.span.start < place →
      u.span.stop ≤ place)
    (hnone : wordOperator? source t ahead = none) : wordOperator? source t (ahead ++ more) = none := by
  cases hfound : wordOperator? source t (ahead ++ more) with
  | none => rfl
  | some found =>
    obtain ⟨rule, last⟩ := found
    obtain ⟨hlisted, hkind, hspelled⟩ := spelled_of_wordOperator? hfound
    have hfuse : fuse source rule.operator t last
        ∈ mergeFrom source false (t :: ahead ++ more) := by
      rw [List.cons_append, mergeFrom]
      simp only [Bool.false_eq_true, if_false, hfound]
      exact List.mem_cons_self
    have hstop := h _ hfuse ht
    have hlast : last ∉ more := fun hlast => Nat.not_lt_of_le hstop (hback last hlast)
    rw [wordOperator?_eq_some hlisted hkind (spelled?_left hspelled hlast)] at hnone
    cases hnone

/-- Where no operator goes beyond a place, the tokens in front of it and those behind
it are merged apart. -/
theorem mergeFrom_apart {place : Nat} (afterDot : Bool)
    (hfront : ∀ t ∈ tokens, t.span.start < place) (hback : ∀ t ∈ more, place < t.span.stop)
    (h : ∀ t ∈ mergeFrom source afterDot (tokens ++ more), t.span.start < place →
      t.span.stop ≤ place) :
    mergeFrom source afterDot (tokens ++ more)
      = mergeFrom source afterDot tokens
        ++ mergeFrom source (behindDot afterDot tokens) more := by
  fun_induction mergeFrom source afterDot tokens with
  | case1 => rfl
  | case2 afterDot t ahead rule last hrule ih =>
    have hfound : wordOperator? source t ahead = some (rule, last) ∧ afterDot = false := by
      cases afterDot with
      | true => cases hrule
      | false => exact ⟨hrule, rfl⟩
    obtain ⟨hfound, rfl⟩ := hfound
    obtain ⟨hlisted, hkind, hspelled⟩ := spelled_of_wordOperator? hfound
    have happended := wordOperator?_eq_some hlisted hkind (spelled?_right hspelled more)
    obtain ⟨run, rest, rfl, hlength, hdot⟩ := exists_run_of_wordOperator? hfound
    have hbehind := behindDot_append false (t :: run) rest
    rw [List.cons_append, hdot] at hbehind
    rw [hlength, List.drop_left] at ih
    rw [List.append_assoc] at happended
    have hunfold : mergeFrom source false (t :: (run ++ rest) ++ more)
        = fuse source rule.operator t last :: mergeFrom source false (rest ++ more) := by
      rw [List.cons_append, List.append_assoc, mergeFrom]
      simp only [Bool.false_eq_true, if_false, happended, hlength, List.drop_left]
    rw [hunfold] at h ⊢
    have hrest := ih (fun u hu => hfront u (List.mem_cons_of_mem _ (List.mem_append_right _ hu)))
      fun u hu => h u (List.mem_cons_of_mem _ hu)
    rw [hrest, hbehind, hlength, List.drop_left]
    rfl
  | case3 afterDot t ahead hrule ih =>
    have hnone : (if afterDot = true then none else wordOperator? source t (ahead ++ more)) = none := by
      cases afterDot with
      | true => rfl
      | false => exact wordOperator?_apart (hfront t List.mem_cons_self) hback h hrule
    have hunfold : mergeFrom source afterDot (t :: ahead ++ more)
        = t :: mergeFrom source (t.kind = .punctuation .dot) (ahead ++ more) := by
      rw [List.cons_append, mergeFrom, hnone]
    rw [hunfold] at h ⊢
    exact congrArg (t :: ·) (ih (fun u hu => hfront u (List.mem_cons_of_mem _ hu))
      fun u hu => h u (List.mem_cons_of_mem _ hu))

end Token

namespace TokenStream

variable {text before after : List Char} {front : List Lexeme} {passed rest op : List Token}
  {l : Lexeme} {opens : Bool}

theorem isClosed_of_faults (h : (ofChars text).faults = []) :
    ∀ l ∈ Lexeme.ofText text, l.form.isClosed = true := by
  intro l hl
  have hnone : l.cause? = none := Option.map_eq_none_iff.1 (List.filterMap_eq_nil_iff.1 h l hl)
  unfold Lexeme.cause? at hnone
  cases hform : l.form with
  | blockComment closed | string closed | quotedName closed =>
    rw [hform] at hnone
    cases closed with
    | true => rfl
    | false => cases hnone
  | _ => rfl

/-- The tokens of a text are those further on where the text stands further on. -/
theorem tokens_behind (before after : List Char) (lines : Nat) :
    Token.mergeFrom (before ++ after) false
        ((Lexeme.cut (Text.byteLength before) (1 + lines) after).filterMap Lexeme.token?)
      = (ofChars after).tokens.map (Token.shift (Text.byteLength before) lines) := by
  have hback := Token.mergeFrom_embed before [] lines false (placed_lexemes after)
  rw [List.append_nil] at hback
  rw [cut_behind, Lexeme.tokens_shift, hback]
  rfl

/-- Tokens that come to an end at a place are those in front of it, and the others are
those behind it. -/
theorem eq_of_parted {place : Nat} {passed rest passed' rest' : List Token}
    (h : passed ++ rest = passed' ++ rest') (hsome : ∀ t ∈ passed ++ rest, t.span.start < t.span.stop)
    (hpassed : ∀ t ∈ passed, t.span.stop ≤ place) (hrest : ∀ t ∈ rest, place ≤ t.span.start)
    (hpassed' : ∀ t ∈ passed', t.span.stop ≤ place) (hrest' : ∀ t ∈ rest', place ≤ t.span.start) :
    passed' = passed ∧ rest' = rest := by
  have hfilter {passed rest : List Token} (hsome : ∀ t ∈ passed ++ rest, t.span.start < t.span.stop)
      (hpassed : ∀ t ∈ passed, t.span.stop ≤ place) (hrest : ∀ t ∈ rest, place ≤ t.span.start) :
      (passed ++ rest).filter (fun t => t.span.stop ≤ place) = passed := by
    rw [List.filter_append, List.filter_eq_self.2 fun t ht => by simpa using hpassed t ht,
      List.filter_eq_nil_iff.2 fun t ht => ?_, List.append_nil]
    have hlt := hsome t (List.mem_append_right _ ht)
    have hle := hrest t ht
    simp only [decide_eq_true_eq]
    omega
  have hsame : passed' = passed := by
    rw [← hfilter hsome hpassed hrest, h, hfilter (h ▸ hsome) hpassed' hrest']
  subst hsame
  exact ⟨rfl, (List.append_cancel_left h).symm⟩

/-- Where no token reaches over a place between lexemes, those in front of it are the tokens of
the lexemes in front, and those behind it are the tokens of the text behind. -/
theorem tokens_apart
    (hcut : Lexeme.ofText (before ++ after)
      = front ++ Lexeme.cut (Text.byteLength before) (1 + Text.newlines before) after)
    (hfront : ∀ l ∈ front, l.stop ≤ Text.byteLength before)
    (htokens : (ofChars (before ++ after)).tokens = passed ++ rest)
    (hpassed : ∀ t ∈ passed, t.span.stop ≤ Text.byteLength before)
    (hrest : ∀ t ∈ rest, Text.byteLength before ≤ t.span.start)
    (hdot : Token.behindDot false passed = false) :
    passed = Token.mergeFrom before false (front.filterMap Lexeme.token?)
      ∧ rest = (ofChars after).tokens.map
        (Token.shift (Text.byteLength before) (Text.newlines before)) := by
  have hplaced := placed_lexemes (before ++ after)
  have hmerged : (ofChars (before ++ after)).tokens
      = Token.mergeFrom (before ++ after) false ((Lexeme.ofText (before ++ after)).filterMap _) := rfl
  rw [hcut, List.filterMap_append] at hplaced hmerged
  have hends : ∀ t ∈ front.filterMap Lexeme.token?, t.span.stop ≤ Text.byteLength before := by
    intro t ht
    obtain ⟨l, hl, htoken⟩ := List.mem_filterMap.1 ht
    rw [span_of_token? htoken]
    exact hfront l hl
  have hbegins : ∀ t ∈ (Lexeme.cut (Text.byteLength before) (1 + Text.newlines before)
      after).filterMap Lexeme.token?, Text.byteLength before ≤ t.span.start := by
    intro t ht
    obtain ⟨l, hl, htoken⟩ := List.mem_filterMap.1 ht
    rw [span_of_token? htoken]
    exact (Lexeme.bounds_of_mem_cut hl).1
  have hnonempty := (apart_tokens (before ++ after)).nonempty
  have hparted := Token.mergeFrom_apart false
    (fun t ht => Nat.lt_of_lt_of_le (hplaced.apart.nonempty t (List.mem_append_left _ ht)) (hends t ht))
    (fun t ht =>
      Nat.lt_of_le_of_lt (hbegins t ht) (hplaced.apart.nonempty t (List.mem_append_right _ ht)))
    (fun t ht hlt => by
      rw [← hmerged, htokens] at ht
      rcases List.mem_append.1 ht with ht | ht
      · exact hpassed t ht
      · exact absurd hlt (Nat.not_lt_of_le (hrest t ht)))
  have hwithin := Token.mergeFrom_within false hplaced.left hends []
  rw [List.append_nil] at hwithin
  rw [hparted, hwithin, htokens] at hmerged
  obtain ⟨rfl, rfl⟩ := eq_of_parted hmerged.symm
    (fun t ht => hnonempty t (by rw [htokens, hmerged]; exact ht))
    (fun t ht => by
      obtain ⟨u, hu, hstop⟩ := Token.exists_stop_of_mem_mergeFrom ht
      rw [hstop]
      exact hends u hu)
    (fun t ht => by
      obtain ⟨u, hu, hstart⟩ := Token.exists_start_of_mem_mergeFrom ht
      rw [hstart]
      exact hbegins u hu)
    hpassed hrest
  rw [Token.behindDot_mergeFrom] at hdot
  exact ⟨rfl, by rw [hdot, tokens_behind]⟩

/-- Between two tokens a parenthesis makes a token more, and those behind it stand
further on. -/
theorem tokens_parenthesis
    (hcut : Lexeme.ofText (before ++ after)
      = front ++ Lexeme.cut (Text.byteLength before) (1 + Text.newlines before) after)
    (hnew : Lexeme.ofText (before ++ ([Lexeme.parenthesis opens] ++ after))
      = front ++ ⟨.parenthesis opens, [Lexeme.parenthesis opens], Text.byteLength before,
          1 + Text.newlines before⟩
        :: Lexeme.cut (Text.byteLength (before ++ [Lexeme.parenthesis opens]))
          (1 + Text.newlines before) after)
    (hfaults : (ofChars (before ++ after)).faults = [])
    (htokens : (ofChars (before ++ after)).tokens = passed ++ rest)
    (hpassed : ∀ t ∈ passed, t.span.stop ≤ Text.byteLength before)
    (hrest : ∀ t ∈ rest, Text.byteLength before ≤ t.span.start)
    (hdot : Token.behindDot false passed = false) :
    ∃ t : Token, t.kind = .punctuation (if opens then .lparen else .rparen)
      ∧ (ofChars (before ++ ([Lexeme.parenthesis opens] ++ after))).tokens
        = passed ++ t :: rest.map (Token.shift 1 0)
      ∧ (ofChars (before ++ ([Lexeme.parenthesis opens] ++ after))).faults = [] := by
  have hfront : ∀ l ∈ front, l.stop ≤ Text.byteLength before := by
    intro l hl
    have hpairwise := Lexeme.pairwise_cut 0 1 (before ++ ([Lexeme.parenthesis opens] ++ after))
    rw [show Lexeme.cut 0 1 _ = _ from hnew] at hpairwise
    exact (List.pairwise_append.1 hpairwise).2.2 l hl _ List.mem_cons_self
  obtain ⟨rfl, rfl⟩ := tokens_apart hcut hfront htokens hpassed hrest hdot
  obtain ⟨t, htoken, hkind⟩ : ∃ t : Token, Lexeme.token? ⟨.parenthesis opens,
      [Lexeme.parenthesis opens], Text.byteLength before, 1 + Text.newlines before⟩ = some t
        ∧ t.kind = .punctuation (if opens then .lparen else .rparen) := ⟨_, rfl, rfl⟩
  have haround := tokens_around hnew htoken
    (by
      rintro rest ⟨-, -, -, -, -, -, v, -, -, -, -, -, -, hv⟩
      cases hkind.symm.trans (Option.some.inj hv))
    (by
      rintro - hsome
      obtain ⟨rule, -, hfirst, -⟩ := Token.isSome_wordOperator?.1 hsome
      cases hkind.symm.trans hfirst)
    (by
      intro hpoint
      cases opens <;> cases hkind.symm.trans hpoint)
  have hbytes : Text.byteLength [Lexeme.parenthesis opens] = 1 := by cases opens <;> rfl
  refine ⟨t, hkind, haround.trans ?_, ?_⟩
  · rw [List.map_map, Text.byteLength_append, hbytes]
    rfl
  · have hsame : (ofChars (before ++ after)).faults = front.filterMap Lexeme.fault?
        ++ (ofChars after).faults.map
          (Fault.shift (Text.byteLength before) (Text.newlines before)) := by
      show (Lexeme.ofText _).filterMap Lexeme.fault? = _
      rw [hcut, List.filterMap_append, cut_behind, Lexeme.faults_shift]
      rfl
    rw [hsame, List.append_eq_nil_iff, List.map_eq_nil_iff] at hfaults
    rw [faults_around hnew rfl, hfaults.1, hfaults.2]
    rfl

/-- A parenthesis can be put where a lexeme ends, or where one begins, unless it would be in a
comment. -/
theorem exists_parenthesis {back : List Lexeme} {place : Nat}
    (hcut : Lexeme.ofText text = front ++ back)
    (hlast : ∀ l ∈ front.getLast?, l.form ≠ .lineComment)
    (hplace : (∃ l ∈ front.getLast?, l.stop = place) ∨ ∃ l ∈ back.head?, l.start = place)
    (hfaults : (ofChars text).faults = []) (htokens : (ofChars text).tokens = passed ++ rest)
    (hpassed : ∀ t ∈ passed, t.span.stop ≤ place) (hrest : ∀ t ∈ rest, place ≤ t.span.start)
    (hdot : Token.behindDot false passed = false) (opens : Bool) :
    ∃ before after, text = before ++ after ∧ Text.byteLength before = place
      ∧ ∃ t : Token, t.kind = .punctuation (if opens then .lparen else .rparen)
        ∧ (ofChars (before ++ ([Lexeme.parenthesis opens] ++ after))).tokens
          = passed ++ t :: rest.map (Token.shift 1 0)
        ∧ (ofChars (before ++ ([Lexeme.parenthesis opens] ++ after))).faults = [] := by
  have hclosed : ∀ l ∈ front, l.form.isClosed = true := fun l hl =>
    isClosed_of_faults hfaults l (hcut ▸ List.mem_append_left _ hl)
  obtain ⟨before, after, rfl, -, rfl, hstop, hnew⟩ :=
    Lexeme.exists_cut_parenthesis hcut hclosed hlast
  have hnew := hnew opens
  rw [Nat.zero_add] at hcut hplace hstop hnew
  obtain rfl : Text.byteLength before = place := by
    rcases hplace with ⟨l, hl, hplace⟩ | ⟨l, hl, hplace⟩
    · exact (hstop l hl).symm.trans hplace
    · cases after with
      | nil =>
        rw [Lexeme.cut] at hl
        cases hl
      | cons c after =>
        rw [Lexeme.cut] at hl
        rw [← hplace]
        exact congrArg Lexeme.start (Option.some.inj hl)
  refine ⟨before, after, rfl, rfl, tokens_parenthesis hcut ?_ hfaults htokens hpassed hrest hdot⟩
  have hbytes : Text.byteLength [Lexeme.parenthesis opens] = 1 := by cases opens <;> rfl
  rw [Text.byteLength_append, hbytes]
  exact hnew

/-- Behind a token a parenthesis can be put that closes a group. -/
theorem exists_closing {last : Token} (hfaults : (ofChars text).faults = [])
    (htokens : (ofChars text).tokens = (passed ++ [last]) ++ rest)
    (hdot : last.kind ≠ .punctuation .dot) :
    ∃ before after, text = before ++ after ∧ Text.byteLength before = last.span.stop
      ∧ ∃ t : Token, t.kind = .punctuation .rparen
        ∧ (ofChars (before ++ ([')'] ++ after))).tokens
          = (passed ++ [last]) ++ t :: rest.map (Token.shift 1 0)
        ∧ (ofChars (before ++ ([')'] ++ after))).faults = [] := by
  have hapart := apart_tokens text
  rw [htokens] at hapart
  obtain ⟨hpassed, -, hrest⟩ := List.pairwise_append.1 hapart.apart
  have hmem : last ∈ (ofChars text).tokens := by rw [htokens]; simp
  obtain ⟨u, hu, hstop⟩ := Token.exists_stop_of_mem_mergeFrom hmem
  obtain ⟨l, hl, htoken⟩ := List.mem_filterMap.1 hu
  obtain ⟨front, back, hcut⟩ := List.append_of_mem hl
  rw [List.append_cons] at hcut
  refine exists_parenthesis hcut ?_ (.inl ⟨l, ?_, ?_⟩) hfaults htokens (fun t ht => ?_) (fun t ht => ?_)
    ?_ false
  · rw [List.getLast?_concat]
    rintro _ ⟨⟩ hform
    rw [Lexeme.token?_of_isComment (by rw [hform]; rfl)] at htoken
    cases htoken
  · rw [List.getLast?_concat]
    rfl
  · rw [hstop, span_of_token? htoken]
  · rcases List.mem_append.1 ht with ht | ht
    · have hle := (List.pairwise_append.1 hpassed).2.2 t ht last List.mem_cons_self
      have hlt := hapart.nonempty last (by simp)
      omega
    · cases List.mem_singleton.1 ht
      exact Nat.le_refl _
  · exact hrest last (by simp) t ht
  · rw [Token.behindDot_concat, decide_eq_false hdot]

/-- In front of a token a parenthesis can be put that opens a group. -/
theorem exists_opening {first : Token} (hfaults : (ofChars text).faults = [])
    (htokens : (ofChars text).tokens = passed ++ first :: rest)
    (hdot : Token.behindDot false passed = false) :
    ∃ before after, text = before ++ after ∧ Text.byteLength before = first.span.start
      ∧ ∃ t : Token, t.kind = .punctuation .lparen
        ∧ (ofChars (before ++ (['('] ++ after))).tokens
          = passed ++ t :: (first :: rest).map (Token.shift 1 0)
        ∧ (ofChars (before ++ (['('] ++ after))).faults = [] := by
  have hapart := apart_tokens text
  rw [htokens] at hapart
  obtain ⟨-, hrest, hpassed⟩ := List.pairwise_append.1 hapart.apart
  have hmem : first ∈ (ofChars text).tokens := by rw [htokens]; simp
  obtain ⟨u, hu, hstart⟩ := Token.exists_start_of_mem_mergeFrom hmem
  obtain ⟨l, hl, htoken⟩ := List.mem_filterMap.1 hu
  obtain ⟨front, back, hcut⟩ := List.append_of_mem hl
  refine exists_parenthesis hcut (fun l' hl' hform => ?_) (.inr ⟨l, rfl, ?_⟩) hfaults htokens
    (fun t ht => hpassed t ht first List.mem_cons_self) (fun t ht => ?_) hdot true
  · obtain ⟨front', rfl⟩ := List.getLast?_eq_some_iff.1 hl'
    rw [List.append_assoc] at hcut
    have hseparator := Lexeme.separator_of_lineComment hcut hform
    rw [Lexeme.token?_separator hseparator] at htoken
    cases htoken
  · rw [hstart, span_of_token? htoken]
  · rcases List.mem_cons.1 ht with rfl | ht
    · exact Nat.le_refl _
    · have hle := (List.pairwise_cons.1 hrest).1 t ht
      have hlt := hapart.nonempty first (by simp)
      omega

end TokenStream

/-- The text with a parenthesis in front of what is under the span, and one behind it. -/
def Text.parenthesize (text : List Char) (s : Span) : List Char :=
  replace text s ('(' :: (slice text s ++ [')']))

theorem Text.parenthesize_middle (before middle after : List Char) :
    parenthesize (before ++ (middle ++ after))
        ⟨byteLength before, byteLength before + byteLength middle⟩
      = before ++ (['('] ++ (middle ++ ([')'] ++ after))) := by
  unfold parenthesize
  rw [slice_middle, replace_middle, List.cons_append, List.append_assoc]
  rfl

/-- The tokens under a span are put in parentheses where their text is. -/
theorem TokenStream.tokens_parenthesized {text : List Char} {front op rest : List Token}
    {first last : Token} (htokens : (ofChars text).tokens = front ++ (op ++ rest))
    (hfirst : op.head? = some first) (hlast : op.getLast? = some last)
    (hfaults : (ofChars text).faults = []) (hdot : Token.behindDot false front = false)
    (hdot' : last.kind ≠ .punctuation .dot) :
    ∃ opening closing : Token, opening.kind = .punctuation .lparen
      ∧ closing.kind = .punctuation .rparen
      ∧ (ofChars (Text.parenthesize text ⟨first.span.start, last.span.stop⟩)).tokens
        = front ++ opening :: (op.map (Token.shift 1 0)
          ++ closing :: rest.map (Token.shift 2 0))
      ∧ (ofChars (Text.parenthesize text ⟨first.span.start, last.span.stop⟩)).faults = [] := by
  obtain ⟨passed, hpassed⟩ := List.getLast?_eq_some_iff.1 hlast
  have hapart := apart_tokens text
  rw [htokens] at hapart
  have hbehind : (ofChars text).tokens = (front ++ passed ++ [last]) ++ rest := by
    rw [htokens, hpassed]
    simp only [List.append_assoc]
  obtain ⟨before, after, rfl, hstop, t, ht, htokens₁, hfaults₁⟩ :=
    exists_closing hfaults hbehind hdot'
  obtain ⟨more, rfl⟩ := List.head?_eq_some_iff.1 hfirst
  have hinFront : (ofChars (before ++ ([')'] ++ after))).tokens
      = front ++ first :: (more ++ t :: rest.map (Token.shift 1 0)) := by
    rw [htokens₁, List.append_assoc front, ← hpassed, List.append_assoc]
    rfl
  obtain ⟨before', after', htext, hstart, t', ht', htokens₂, hfaults₂⟩ :=
    exists_opening hfaults₁ hinFront hdot
  have hle : Text.byteLength before' ≤ Text.byteLength before := by
    rw [hstart, hstop]
    have hmem : last ∈ first :: more := List.mem_of_getLast? hlast
    have hpos := hapart.nonempty
    rcases List.mem_cons.1 hmem with rfl | hmore
    · exact Nat.le_of_lt (hpos last (by simp))
    · have hle := (List.pairwise_cons.1 (List.pairwise_append.1 hapart.apart).2.1).1 last
        (List.mem_append_left _ hmore)
      have hfirst := hpos first (by simp)
      have hlast := hpos last (by simp [hmore])
      omega
  obtain ⟨middle, rfl, rfl⟩ := Text.exists_between htext.symm hle
  have hspan : (⟨first.span.start, last.span.stop⟩ : Span)
      = ⟨Text.byteLength before', Text.byteLength before' + Text.byteLength middle⟩ := by
    rw [← hstart, ← hstop, Text.byteLength_append]
  refine ⟨t', t.shift 1 0, ht', ht, ?_, ?_⟩
  · rw [hspan, List.append_assoc, Text.parenthesize_middle, htokens₂]
    simp only [List.map_cons, List.map_append, List.map_map, List.cons_append]
    rfl
  · rw [hspan, List.append_assoc, Text.parenthesize_middle, hfaults₂]

end Cypher
