import Cypher.Proofs.Lexing.Edge

/-!
# Cutting the text of glyphs

The text of a legible run is cut where its glyphs meet: every glyph is one
lexeme, save for the operators of several words, which are one for each
word and one for each space between them. That nothing else is cut off or
taken in follows from the edges.
-/

namespace Cypher

namespace Lexeme

variable {start line : Nat} {rest : List Char}

/-! ## Measures -/

/-- The longest run of a class is all of it that stands before something
else. -/
theorem run_append {holds : Char → Bool} {cs : List Char} (hcs : ∀ c ∈ cs, holds c = true)
    (hrest : ∀ c ∈ rest.head?, holds c = false) : run holds (cs ++ rest) = cs.length := by
  unfold run
  rw [List.takeWhile_append_of_pos hcs]
  cases rest with
  | nil => simp
  | cons c cs' => simp [hrest c rfl]

theorem measure_word {c : Char} {cs : List Char} (h : isWord (c :: cs) = true)
    (hrest : ∀ c ∈ rest.head?, continuesWord c = false) :
    measure c (cs ++ rest) = (.word, cs.length) := by
  have hstart := startsWord_head h c rfl
  unfold isWord at h
  rw [Bool.and_eq_true, List.all_eq_true] at h
  unfold measure
  rw [separates_of_startsWord hstart, isDigit_of_startsWord hstart, hstart,
    if_neg Bool.false_ne_true, if_neg Bool.false_ne_true, if_pos rfl, run_append h.2 hrest]

theorem measure_integer {c : Char} {cs : List Char} (h : ∀ d ∈ c :: cs, d.isDigit = true)
    (hrest : ∀ c ∈ rest.head?, c.isDigit = false)
    (hpoint : ∀ c tail, rest = '.' :: c :: tail → c.isDigit = false) :
    measure c (cs ++ rest) = (.integer, cs.length) := by
  rw [List.forall_mem_cons] at h
  have hwhole := run_append h.2 hrest
  unfold measure number
  rw [separates_of_isDigit h.1, if_neg Bool.false_ne_true, if_pos h.1]
  simp only [hwhole, List.drop_left]
  split
  · next fraction =>
    have hnone : run Char.isDigit fraction = 0 := by
      cases fraction with
      | nil => rfl
      | cons d tail => simp [run, hpoint d tail rfl]
    rw [if_pos hnone]
  · rfl

theorem measure_float {c : Char} {cs fraction : List Char}
    (h : ∀ d ∈ c :: cs, d.isDigit = true) (hfraction : Digits fraction)
    (hrest : ∀ c ∈ rest.head?, c.isDigit = false) :
    measure c ((cs ++ '.' :: fraction) ++ rest)
      = (.float, (cs ++ '.' :: fraction).length) := by
  rw [List.forall_mem_cons] at h
  have hwhole : run Char.isDigit (cs ++ '.' :: (fraction ++ rest)) = cs.length :=
    run_append h.2 fun d hd => by cases hd; rfl
  have hdigits := run_append hfraction.2 hrest
  have hsome : ¬ fraction.length = 0 := fun hnil =>
    hfraction.1 (List.length_eq_zero_iff.1 hnil)
  unfold measure number
  rw [separates_of_isDigit h.1, if_neg Bool.false_ne_true, if_pos h.1, List.append_assoc,
    List.cons_append]
  simp only [hwhole, List.drop_left, hdigits, if_neg hsome, List.length_append,
    List.length_cons]
  congr 1
  omega

theorem measure_parameter {cs : List Char} (h : isWord cs = true)
    (hrest : ∀ c ∈ rest.head?, continuesWord c = false) :
    measure '$' (cs ++ rest) = (.parameter, cs.length) := by
  cases cs with
  | nil => cases h
  | cons c cs =>
    have hstart := startsWord_head h c rfl
    unfold isWord at h
    rw [Bool.and_eq_true, List.all_eq_true] at h
    show afterDollar (c :: (cs ++ rest)) = _
    unfold afterDollar
    simp only [hstart, if_true, run_append h.2 hrest, List.length_cons]

/-- A quoted body ends at the first quote that no backslash hides. -/
theorem quotedBody_append (quote : Char) (multiline : Bool) (encode : Char → List Char)
    (hquote : quote ≠ '\\')
    (hencode : ∀ c, (∃ d, d ≠ '\n' ∧ encode c = ['\\', d])
      ∨ (c ≠ '\\' ∧ c ≠ quote ∧ (c = '\n' → multiline = true) ∧ encode c = [c]))
    (cs rest : List Char) :
    quotedBody quote multiline (cs.flatMap encode ++ quote :: rest)
      = ((cs.flatMap encode).length + 1, true) := by
  induction cs with
  | nil =>
    rw [List.flatMap_nil, List.nil_append, quotedBody, if_pos rfl]
    · rfl
    · exact fun h => absurd h hquote
    · exact fun _ _ h => absurd h hquote
  | cons c cs ih =>
    rw [List.flatMap_cons, List.append_assoc]
    rcases hencode c with ⟨d, hd, hc⟩ | ⟨hslash, hc, hline, henc⟩
    · rw [hc, List.cons_append, List.cons_append, List.nil_append, quotedBody,
        if_neg fun h => hd h.1, ih]
      simp only [List.length_append, List.length_cons, List.length_nil]
      congr 1
      omega
    · have hstays : ¬ (c = '\n' ∧ (!multiline) = true) := fun h => by
        rw [hline h.1] at h
        exact Bool.false_ne_true h.2
      rw [henc, List.cons_append, List.nil_append, quotedBody, if_neg hc, if_neg hstays, ih]
      · simp only [List.length_append, List.length_cons, List.length_nil]
        congr 1
        omega
      · exact fun h => absurd h hslash
      · exact fun _ _ h => absurd h hslash

theorem measure_string (value rest : List Char) :
    measure '\'' (Text.encodeString value ++ ['\''] ++ rest)
      = (.string true, (Text.encodeString value ++ ['\'']).length) := by
  have hbody := quotedBody_append '\'' false Text.encodeStringChar (by decide) (fun c => ?_) value rest
  · rw [← Text.encodeString] at hbody
    rw [List.append_assoc, List.singleton_append, List.length_append]
    show ((Form.string (quotedBody '\'' false _).2, (quotedBody '\'' false _).1) : _ × _) = _
    rw [hbody]
    rfl
  · unfold Text.encodeStringChar
    split
    · exact .inl ⟨_, by decide, rfl⟩
    · exact .inl ⟨_, by decide, rfl⟩
    · exact .inl ⟨_, by decide, rfl⟩
    · exact .inl ⟨_, by decide, rfl⟩
    · exact .inl ⟨_, by decide, rfl⟩
    · next hquote hslash hline _ _ =>
      exact .inr ⟨hslash, hquote, fun h => absurd h hline, rfl⟩

theorem measure_quotedName (name rest : List Char) :
    measure Text.grave (Text.encodeName name ++ [Text.grave] ++ rest)
      = (.quotedName true, (Text.encodeName name ++ [Text.grave]).length) := by
  have hbody := quotedBody_append Text.grave true Text.encodeNameChar (by decide) (fun c => ?_) name rest
  · rw [← Text.encodeName] at hbody
    rw [List.append_assoc, List.singleton_append, List.length_append]
    show ((Form.quotedName (quotedBody Text.grave true _).2,
      (quotedBody Text.grave true _).1) : _ × _) = _
    rw [hbody]
    rfl
  · unfold Text.encodeNameChar
    split
    · next h =>
      refine .inl ⟨c, ?_, rfl⟩
      rcases h with rfl | rfl <;> decide
    · next h =>
      rw [not_or] at h
      exact .inr ⟨h.2, h.1, fun _ => rfl, rfl⟩

/-- A sign is told from what follows it by one character. -/
theorem measure_operator {op : Operator} (hop : op.words = []) {c : Char} {cs : List Char}
    (hc : op.text.toList = c :: cs)
    (hrest : ∀ d ∈ rest.head?, (Edge.sign op).bars d = false) :
    measure c (cs ++ rest) = (.operator op, cs.length) := by
  have hbars {d : Char} (h : rest.head? = some d) : (Edge.sign op).bars d = false := hrest d h
  cases op <;> cases hop <;> cases hc
  case plus =>
    show symbol '+' rest = _
    unfold symbol
    split
    all_goals first | rfl | contradiction | exact absurd (hbars ‹_›) (by decide)
  case minus =>
    show symbol '-' rest = _
    unfold symbol
    split
    all_goals first | rfl | contradiction | exact absurd (hbars ‹_›) (by decide)
  case slash =>
    show afterSlash rest = _
    unfold afterSlash
    split
    all_goals first | rfl | exact absurd (hbars rfl) (by decide)
  case lt =>
    show symbol '<' rest = _
    unfold symbol
    split
    all_goals first | rfl | contradiction | exact absurd (hbars ‹_›) (by decide)
  case gt =>
    show symbol '>' rest = _
    unfold symbol
    split
    all_goals first | rfl | contradiction | exact absurd (hbars ‹_›) (by decide)
  all_goals rfl

theorem measure_mark {m : Punctuation} {c : Char} {cs : List Char}
    (hc : m.text.toList = c :: cs) (hrest : m = .dot → rest.head? ≠ some '.') :
    measure c (cs ++ rest) = (.punctuation m, cs.length) := by
  cases m <;> cases hc
  case dot =>
    show symbol '.' rest = _
    unfold symbol
    split
    all_goals first | rfl | contradiction | exact absurd ‹_› (hrest rfl)
  all_goals rfl

end Lexeme

/-! ## The lexemes of glyphs -/

namespace Glyph

/-- The glyphs of one lexeme each that a glyph is written as. -/
def spread : Glyph → List Glyph
  | .operator op =>
    if op.words = [] then [.operator op]
    else joined [.space] (op.words.map fun word => [.keyword word])
  | g => [g]

theorem flatMap_chars_spread (g : Glyph) : g.spread.flatMap chars = g.chars := by
  cases g with
  | operator op => cases op <;> decide
  | _ => exact List.append_nil _

/-- The form of the lexeme that a glyph is cut off as. -/
def form : Glyph → Lexeme.Form
  | .space => .separator
  | .keyword _ => .word
  | .operator op => .operator op
  | .mark m => .punctuation m
  | .name n =>
    if Lexeme.isWord n.toList ∧ Keyword.ofName? n = none then .word else .quotedName true
  | .symbol n => if Lexeme.isWord n.toList then .word else .quotedName true
  | .parameter _ => .parameter
  | .number digits => if '.' ∈ digits.toList then .float else .integer
  | .string _ => .string true
  | .hole => .illegal

/-- The edge that a glyph leaves to the characters behind it. -/
def edge (g : Glyph) : Edge := Edge.clear.behind g

theorem bars_ofWord (w : Keyword) (c : Char) :
    (Edge.ofWord w).bars c = Lexeme.continuesWord c := by
  unfold Edge.ofWord
  split <;> rfl

theorem bars_edge_symbol (n : String) (c : Char) :
    (Glyph.symbol n).edge.bars c = Lexeme.continuesWord c := by
  show ((Keyword.ofName? n).elim .word Edge.ofWord).bars c = _
  cases Keyword.ofName? n with
  | none => rfl
  | some w => exact bars_ofWord w c

/-- What stands before a glyph makes no difference to the characters that
would be taken for a part of it. -/
theorem bars_behind (e : Edge) (g : Glyph) (c : Char) :
    (e.behind g).bars c = g.edge.bars c := by
  cases g with
  | symbol n => cases e <;> first | rfl | exact (bars_edge_symbol n c).symm
  | mark m => cases m <;> cases e <;> rfl
  | _ => cases e <;> rfl

theorem separate_edge {e : Edge} {g : Glyph} {rest : List Char}
    (h : (e.behind g).Separate rest) : g.edge.Separate rest := by
  refine ⟨fun c hc => (bars_behind e g c).symm.trans (h.first c hc), fun hnumber => ?_⟩
  refine h.fraction ?_
  cases g with
  | number digits => cases e <;> rfl
  | operator op =>
    have hbranch : (if op.words = [] then Edge.sign op else .word) = .number := hnumber
    split at hbranch <;> cases hbranch
  | mark m => cases m <;> cases hnumber
  | keyword w =>
    have hbranch : Edge.ofWord w = .number := hnumber
    unfold Edge.ofWord at hbranch
    split at hbranch <;> cases hbranch
  | symbol n =>
    have hbranch : (Keyword.ofName? n).elim .word Edge.ofWord = .number := hnumber
    cases hn : Keyword.ofName? n with
    | none =>
      rw [hn] at hbranch
      cases hbranch
    | some w =>
      rw [hn, Option.elim_some, Edge.ofWord] at hbranch
      split at hbranch <;> cases hbranch
  | _ => cases hnumber

/-- A glyph of one lexeme is measured as a whole. -/
theorem measure_chars {g : Glyph} (hg : g.Written) (hone : g.spread = [g]) {c : Char}
    {cs rest : List Char} (hc : g.chars = c :: cs) (hrest : g.edge.Separate rest) :
    Lexeme.measure c (cs ++ rest) = (g.form, cs.length) := by
  cases g with
  | space =>
    cases hc
    rfl
  | keyword w =>
    have hword := w.isWord_text
    rw [show w.text.toList = c :: cs from hc] at hword
    exact Lexeme.measure_word hword fun d hd =>
      (bars_ofWord w d).symm.trans (hrest.first d hd)
  | operator op =>
    have hop : op.words = [] := by
      cases op <;> first | rfl | cases hone
    refine Lexeme.measure_operator hop hc fun d hd => ?_
    have hedge : (Glyph.operator op).edge = .sign op := if_pos hop
    rw [← hedge]
    exact hrest.first d hd
  | mark m =>
    refine Lexeme.measure_mark hc ?_
    rintro rfl hdot
    exact absurd (hrest.first '.' hdot) (by decide)
  | name n =>
    rw [chars_name] at hc
    simp only [form]
    split at hc
    · next hn =>
      rw [if_pos hn]
      refine Lexeme.measure_word ?_ hrest.first
      rw [← hc]
      exact hn.1
    · next hn =>
      rw [if_neg hn]
      cases hc
      exact Lexeme.measure_quotedName _ _
  | symbol n =>
    rw [chars_symbol] at hc
    simp only [form]
    split at hc
    · next hn =>
      rw [if_pos hn]
      refine Lexeme.measure_word ?_ fun d hd =>
        (bars_edge_symbol n d).symm.trans (hrest.first d hd)
      rw [← hc]
      exact hn
    · next hn =>
      rw [if_neg hn]
      cases hc
      exact Lexeme.measure_quotedName _ _
  | parameter n =>
    cases hc
    exact Lexeme.measure_parameter hg hrest.first
  | number digits =>
    have hc : digits.toList = c :: cs := hc
    simp only [form]
    rcases hg with hdigits | ⟨whole, fraction, heq, hwhole, hfraction⟩
    · rw [hc] at hdigits
      rw [hc, if_neg fun hdot => absurd (hdigits.2 '.' hdot) (by decide)]
      exact Lexeme.measure_integer hdigits.2 hrest.first (hrest.fraction rfl)
    · obtain ⟨d, ds, rfl⟩ := List.exists_cons_of_ne_nil hwhole.1
      rw [if_pos (by rw [heq]; simp)]
      have hcs := hc.symm.trans heq
      rw [List.cons_append, List.cons.injEq] at hcs
      obtain ⟨rfl, rfl⟩ := hcs
      exact Lexeme.measure_float hwhole.2 hfraction hrest.first
  | string value =>
    cases hc
    exact Lexeme.measure_string _ _
  | hole => exact hg.elim

/-! ## The cut -/

/-- The lexemes of a run of glyphs of one lexeme each. -/
def lexemes (start line : Nat) : List Glyph → List Lexeme
  | [] => []
  | g :: gs =>
    ⟨g.form, g.chars, start, line⟩
      :: lexemes (start + Text.byteLength g.chars) (line + Text.newlines g.chars) gs

/-- Each glyph of the run is separate from what follows it. -/
def Apart : List Glyph → Prop
  | [] => True
  | g :: gs => g.edge.Separate (gs.flatMap chars) ∧ Apart gs

/-- A text is cut where its glyphs meet. -/
theorem cut_chars {gs : List Glyph} (hgs : ∀ g ∈ gs, g.Written ∧ g.spread = [g])
    (h : Apart gs) (start line : Nat) :
    Lexeme.cut start line (gs.flatMap chars) = lexemes start line gs := by
  induction gs generalizing start line with
  | nil => rw [List.flatMap_nil, Lexeme.cut, lexemes]
  | cons g gs ih =>
    rw [List.forall_mem_cons] at hgs
    obtain ⟨c, cs, hc⟩ := List.exists_cons_of_ne_nil (chars_ne_nil hgs.1.1)
    have hmeasure := measure_chars hgs.1.1 hgs.1.2 hc h.1
    rw [List.flatMap_cons, lexemes, hc, List.cons_append, Lexeme.cut, hmeasure]
    simp only [List.take_left, List.drop_left]
    rw [ih hgs.2 h.2]

/-- A written glyph is no fault. -/
theorem fault?_lexemes {gs : List Glyph} (hgs : ∀ g ∈ gs, g.Written) (start line : Nat) :
    (lexemes start line gs).filterMap Lexeme.fault? = [] := by
  induction gs generalizing start line with
  | nil => rfl
  | cons g gs ih =>
    rw [List.forall_mem_cons] at hgs
    have hcause : (⟨g.form, g.chars, start, line⟩ : Lexeme).fault? = none := by
      unfold Lexeme.fault? Lexeme.cause?
      cases g with
      | hole => exact hgs.1.elim
      | name n =>
        simp only [form]
        split <;> rfl
      | symbol n =>
        simp only [form]
        split <;> rfl
      | number digits =>
        simp only [form]
        split <;> rfl
      | _ => rfl
    rw [lexemes, List.filterMap_cons_none hcause]
    exact ih hgs.2 _ _

/-! ## Legible runs -/

/-- The words of an operator are parted from each other by its spaces. -/
theorem apart_words {words : List Keyword} {gs : List Glyph}
    (h : Edge.word.Separate (gs.flatMap chars)) (hgs : Apart gs) :
    Apart (joined [.space] (words.map fun word => [.keyword word]) ++ gs) := by
  have hclear (rest : List Char) : Edge.clear.Separate rest := ⟨fun _ _ => rfl, nofun⟩
  have hword (w : Keyword) {rest : List Char} (hrest : Edge.word.Separate rest) :
      (keyword w).edge.Separate rest := by
    refine ⟨fun c hc => (bars_ofWord w c).trans (hrest.first c hc), fun hnumber => ?_⟩
    have hbranch : Edge.ofWord w = .number := hnumber
    unfold Edge.ofWord at hbranch
    split at hbranch <;> cases hbranch
  match words with
  | [] => exact hgs
  | [w] => exact ⟨hword w h, hgs⟩
  | w :: v :: words =>
    refine ⟨hword w ⟨fun c hc => ?_, nofun⟩, hclear _, apart_words h hgs⟩
    cases hc
    rfl

/-- Whether a glyph is one lexeme: all are, save for the operators of
several words. -/
theorem spread_eq (g : Glyph) :
    g.spread = [g] ∨ ∃ op : Operator, g = .operator op ∧ op.words ≠ []
      ∧ g.spread = joined [.space] (op.words.map fun word => [.keyword word]) := by
  cases g with
  | operator op =>
    by_cases hop : op.words = []
    · exact .inl (if_pos hop)
    · exact .inr ⟨op, rfl, hop, if_neg hop⟩
  | _ => exact .inl rfl

theorem flatMap_chars_flatMap_spread (gs : List Glyph) :
    (gs.flatMap spread).flatMap chars = gs.flatMap chars := by
  rw [List.flatMap_assoc]
  simp only [flatMap_chars_spread]

/-- The glyphs of a legible run are apart. -/
theorem apart_spread {gs : List Glyph} (hgs : ∀ g ∈ gs, g.Written) {e e' : Edge}
    (h : e.run gs = some e') : Apart (gs.flatMap spread) := by
  induction gs generalizing e with
  | nil => trivial
  | cons g gs ih =>
    rw [List.forall_mem_cons] at hgs
    obtain ⟨-, -, hrun⟩ := Edge.run_cons h
    have hrest := separate_edge (Edge.separate_of_run hgs.2 hrun)
    rw [← flatMap_chars_flatMap_spread] at hrest
    rw [List.flatMap_cons]
    obtain hone | ⟨op, rfl, hop, hwords⟩ := spread_eq g
    · rw [hone]
      exact ⟨hrest, ih hgs.2 hrun⟩
    · rw [hwords]
      have hedge : (operator op).edge = .word := if_neg hop
      rw [hedge] at hrest
      exact apart_words hrest (ih hgs.2 hrun)

/-- What a written glyph is spread into is written, and of one lexeme
each. -/
theorem written_spread {g : Glyph} (hg : g.Written) :
    ∀ p ∈ g.spread, p.Written ∧ p.spread = [p] := by
  obtain hone | ⟨op, rfl, hop, hwords⟩ := spread_eq g
  · rw [hone]
    rintro p hp
    rw [List.mem_singleton] at hp
    subst hp
    exact ⟨hg, hone⟩
  · cases op with
    | startsWith | endsWith | isNull | isNotNull =>
      rw [hwords]
      simp [joined, Operator.words, Written, spread]
    | _ => exact absurd rfl hop

/-- A legible text is cut into the lexemes of its glyphs. -/
theorem cut_legible {gs : List Glyph} (hgs : ∀ g ∈ gs, g.Written) {e e' : Edge}
    (h : e.run gs = some e') (start line : Nat) :
    Lexeme.cut start line (gs.flatMap chars) = lexemes start line (gs.flatMap spread) := by
  rw [← flatMap_chars_flatMap_spread]
  refine cut_chars (fun p hp => ?_) (apart_spread hgs h) start line
  rw [List.mem_flatMap] at hp
  obtain ⟨g, hg, hp⟩ := hp
  exact written_spread (hgs g hg) p hp

end Glyph

end Cypher
