import Cypher.Proofs.Lexing.Edge

/-!
# Legible runs of glyphs

`Legible P gs Q` says of a run of glyphs that it can be read back behind
every edge in `P`, and that it ends with an edge in `Q`. Runs are put
together from the rules below as programs are from their statements, so a
proof that a tree is legible follows its layout.

The edges that matter are few. An operand may stand behind an edge that
`Opens`, and leaves one that `Closes`, so that a mark or a space may follow.
A space leaves the text clear, unless the word before it leads an operator.
Which words may do that is a parameter: where a label may be any word, so
may these.
-/

namespace Cypher

namespace Edge

/-- An operand may follow. -/
def Opens (e : Edge) : Prop := e = .clear ∨ e = .sign .minus ∨ e = .sign .dotDot

/-- A space may follow, and an operator is led to by none but these words. -/
structure Ends (S : Keyword → Prop) (e : Edge) : Prop where
  undotted : e ≠ .dot
  unparted : ∀ w, e ≠ .parted w
  words : ∀ w, e = .leading w → S w

/-- An operand may have ended here. -/
structure Closes (S : Keyword → Prop) (e : Edge) : Prop extends Ends S e where
  slash : e ≠ .sign .slash

/-- A space was the last thing, and an operator is led to by none but these
words. -/
def Parts (S : Keyword → Prop) (e : Edge) : Prop := e = .clear ∨ ∃ w, S w ∧ e = .parted w

/-- Any word may lead. -/
abbrev AnyWord : Keyword → Prop := fun _ => True

/-- No word has led to an operator. -/
abbrev NoWord : Keyword → Prop := fun _ => False

section

variable {S : Keyword → Prop} {e : Edge}

theorem closes_clear : Closes S .clear :=
  ⟨⟨nofun, nofun, nofun⟩, nofun⟩

theorem closes_word : Closes S .word :=
  ⟨⟨nofun, nofun, nofun⟩, nofun⟩

theorem closes_number : Closes S .number :=
  ⟨⟨nofun, nofun, nofun⟩, nofun⟩

theorem ends_sign (op : Operator) : Ends S (.sign op) :=
  ⟨nofun, nofun, nofun⟩

theorem closes_star : Closes S (.sign .star) := ⟨ends_sign _, nofun⟩

theorem Closes.any (h : Closes S e) : Closes AnyWord e :=
  ⟨⟨h.undotted, h.unparted, fun _ _ => trivial⟩, h.slash⟩

theorem Parts.eq_clear (h : Parts NoWord e) : e = .clear := by
  rcases h with h | ⟨_, hw, -⟩
  · exact h
  · exact hw.elim

end

end Edge

namespace Glyph

open Edge (Opens Ends Closes Parts AnyWord NoWord)

/-- The run can be read back behind the edges in `P` and ends with one in
`Q`. -/
structure Legible (P : Edge → Prop) (gs : List Glyph) (Q : Edge → Prop) : Prop where
  written : ∀ g ∈ gs, g.Written
  run : ∀ e, P e → ∃ e', e.run gs = some e' ∧ Q e'

variable {P P' Q Q' R : Edge → Prop} {S : Keyword → Prop} {g : Glyph} {gs xs ys : List Glyph}

/-! ## Composition -/

namespace Legible

theorem nil (h : ∀ e, P e → Q e) : Legible P [] Q :=
  ⟨nofun, fun e he => ⟨e, rfl, h e he⟩⟩

theorem conseq (h : Legible P gs Q) (hP : ∀ e, P' e → P e) (hQ : ∀ e, Q e → Q' e) :
    Legible P' gs Q' := by
  refine ⟨h.written, fun e he => ?_⟩
  obtain ⟨e', hrun, he'⟩ := h.run e (hP e he)
  exact ⟨e', hrun, hQ e' he'⟩

theorem pre (h : Legible P gs Q) (hP : ∀ e, P' e → P e) : Legible P' gs Q :=
  h.conseq hP fun _ => id

theorem post (h : Legible P gs Q) (hQ : ∀ e, Q e → Q' e) : Legible P gs Q' :=
  h.conseq (fun _ => id) hQ

theorem append (hx : Legible P xs Q) (hy : Legible Q ys R) : Legible P (xs ++ ys) R := by
  refine ⟨List.forall_mem_append.2 ⟨hx.written, hy.written⟩, fun e he => ?_⟩
  obtain ⟨e', hrun, he'⟩ := hx.run e he
  obtain ⟨e'', hrun', he''⟩ := hy.run e' he'
  exact ⟨e'', by rw [Edge.run_append, hrun]; exact hrun', he''⟩

theorem cons (hg : Legible P [g] Q) (hgs : Legible Q gs R) : Legible P (g :: gs) R :=
  hg.append hgs

/-- A glyph that is not barred and does not mislead is legible. -/
theorem single (hg : g.Written) (hbars : ∀ e, P e → g.chars.head?.any e.bars = false)
    (hmisleads : ∀ e, P e → e.misleads g = false) (hQ : ∀ e, P e → Q (e.behind g)) :
    Legible P [g] Q := by
  refine ⟨by simpa using hg, fun e he => ⟨e.behind g, ?_, hQ e he⟩⟩
  rw [Edge.run, Edge.step, hbars e he, hmisleads e he]
  rfl

theorem flatMap {α : Type} {f : α → List Glyph} {as : List α}
    (h : ∀ a ∈ as, Legible P (f a) P) : Legible P (as.flatMap f) P := by
  induction as with
  | nil => exact nil fun _ => id
  | cons a as ih =>
    rw [List.forall_mem_cons] at h
    exact h.1.append (ih h.2)

end Legible

/-! ## Single glyphs -/

/-- A mark other than a point may stand anywhere. -/
theorem legible_mark {m : Punctuation} (hm : m ≠ .dot) : Legible P [.mark m] (· = .clear) := by
  refine .single trivial (fun e _ => ?_) (fun e _ => ?_) (fun e _ => ?_)
  · cases e with
    | sign op => cases m <;> cases op <;> rfl
    | _ => cases m <;> first | rfl | exact absurd rfl hm
  · cases e <;> rfl
  · cases m <;> cases e <;> first | rfl | exact absurd rfl hm

theorem legible_dot : Legible (Ends S) [.mark .dot] (· = .dot) := by
  refine .single trivial (fun e he => ?_) (fun e _ => ?_) (fun e _ => ?_)
  · cases e with
    | dot => exact absurd rfl he.undotted
    | sign op => cases op <;> rfl
    | _ => rfl
  · cases e <;> rfl
  · cases e <;> rfl

theorem legible_space : Legible (Ends S) [.space] (Parts S) := by
  refine .single trivial (fun e he => ?_) (fun e _ => ?_) (fun e he => ?_)
  · cases e with
    | dot => exact absurd rfl he.undotted
    | sign op => cases op <;> rfl
    | _ => rfl
  · cases e <;> rfl
  · cases e with
    | leading w => exact .inr ⟨w, he.words w rfl, rfl⟩
    | parted w => exact absurd rfl (he.unparted w)
    | _ => exact .inl rfl

/-- Behind these edges any word, number or quote may stand. -/
def Free (S : Keyword → Prop) (e : Edge) : Prop := Parts S e ∨ ∃ op, e = .sign op

theorem free_of_opens {e : Edge} (h : Opens e) : Free S e := by
  rcases h with rfl | rfl | rfl
  · exact .inl (.inl rfl)
  · exact .inr ⟨_, rfl⟩
  · exact .inr ⟨_, rfl⟩

/-- What starts a word, a number or a quote is no part of a sign. -/
theorem bars_of_free {e : Edge} (he : Free S e) {c : Char} (hc : c ∉ ['=', '>', '/', '*']) :
    e.bars c = false := by
  simp only [List.mem_cons, List.not_mem_nil, or_false, not_or] at hc
  rcases he with (rfl | ⟨w, -, rfl⟩) | ⟨op, rfl⟩
  · rfl
  · rfl
  · cases op <;> simp [Edge.bars, hc]

theorem any_bars_of_free {e : Edge} (he : Free S e)
    (hg : ∀ c ∈ g.chars.head?, c ∉ ['=', '>', '/', '*']) : g.chars.head?.any e.bars = false := by
  cases hc : g.chars.head? with
  | none => rfl
  | some c => exact bars_of_free he (hg c hc)

theorem not_sign_of_startsWord {c : Char} (h : Lexeme.startsWord c = true) :
    c ∉ ['=', '>', '/', '*'] := by
  intro hc
  simp only [List.mem_cons, List.not_mem_nil, or_false] at hc
  rcases hc with rfl | rfl | rfl | rfl <;> cases h

theorem not_sign_of_isDigit {c : Char} (h : c.isDigit = true) :
    c ∉ ['=', '>', '/', '*'] := by
  intro hc
  simp only [List.mem_cons, List.not_mem_nil, or_false] at hc
  rcases hc with rfl | rfl | rfl | rfl <;> cases h

theorem not_sign_of_isWord {cs : List Char} (h : Lexeme.isWord cs = true) :
    ∀ c ∈ cs.head?, c ∉ ['=', '>', '/', '*'] :=
  fun c hc => not_sign_of_startsWord (Lexeme.startsWord_head h c hc)

theorem legible_keyword {w : Keyword} (hleads : w.leads = false)
    (hjoins : ∀ v, S v → v.joins w = false) : Legible (Free S) [.keyword w] (· = .word) := by
  have hofWord : Edge.ofWord w = .word := if_neg (by rw [hleads]; exact Bool.false_ne_true)
  refine .single trivial (fun e he => any_bars_of_free he (not_sign_of_isWord w.isWord_text))
    (fun e he => ?_) (fun e he => ?_)
  · rcases he with (rfl | ⟨v, hv, rfl⟩) | ⟨op, rfl⟩
    · rfl
    · exact hjoins v hv
    · rfl
  · rcases he with (rfl | ⟨v, -, rfl⟩) | ⟨op, rfl⟩ <;> exact hofWord

theorem not_sign_of_name (n : String) : ∀ c ∈ (name n).chars.head?, c ∉ ['=', '>', '/', '*'] := by
  rw [chars_name]
  split
  · next hn => exact not_sign_of_isWord hn.1
  · intro c hc
    cases hc
    decide

theorem not_sign_of_symbol (n : String) :
    ∀ c ∈ (symbol n).chars.head?, c ∉ ['=', '>', '/', '*'] := by
  rw [chars_symbol]
  split
  · next hn => exact not_sign_of_isWord hn
  · intro c hc
    cases hc
    decide

theorem legible_name (n : String) : Legible (Free S) [.name n] (· = .word) := by
  refine .single trivial (fun e he => any_bars_of_free he (not_sign_of_name n)) (fun e _ => ?_)
    (fun e _ => ?_)
  · cases e <;> rfl
  · cases e <;> rfl

theorem legible_parameter {n : String} (hn : Lexeme.isWord n.toList) :
    Legible (Free S) [.parameter n] (· = .word) := by
  refine .single hn (fun e he => any_bars_of_free he ?_) (fun e _ => ?_) (fun e _ => ?_)
  · intro c hc
    cases hc
    decide
  · cases e <;> rfl
  · cases e <;> rfl

theorem legible_number {n : String} (hn : Digits n.toList ∨ PointedDigits n.toList) :
    Legible (Free S) [.number n] (· = .number) := by
  refine .single hn (fun e he => any_bars_of_free he ?_) (fun e _ => ?_) (fun e _ => ?_)
  · intro c hc
    have hc : n.toList.head? = some c := hc
    refine not_sign_of_isDigit ?_
    rcases hn with hdigits | ⟨whole, fraction, hdigits, hwhole, -⟩
    · exact hdigits.2 c (List.mem_of_head? hc)
    · obtain ⟨d, ds, rfl⟩ := List.exists_cons_of_ne_nil hwhole.1
      rw [hdigits] at hc
      cases hc
      exact hwhole.2 _ List.mem_cons_self
  · cases e <;> rfl
  · cases e <;> rfl

theorem legible_string (value : String) : Legible (Free S) [.string value] (· = .clear) := by
  refine .single trivial (fun e he => any_bars_of_free he ?_) (fun e _ => ?_) (fun e _ => ?_)
  · intro c hc
    cases hc
    decide
  · cases e <;> rfl
  · cases e <;> rfl

/-- If the name leads an operator where it stands bare, it does so as one of
these words. -/
def LeadsIn (S : Keyword → Prop) (n : String) : Prop :=
  ∀ w, Keyword.ofName? n = some w → w.leads = true → S w

theorem legible_symbol {n : String} (hn : LeadsIn S n) :
    Legible (Free NoWord) [.symbol n] (Closes S) := by
  refine .single trivial (fun e he => any_bars_of_free he (not_sign_of_symbol n)) (fun e he => ?_)
    (fun e he => ?_)
  · rcases he with (rfl | ⟨_, hw, -⟩) | ⟨op, rfl⟩
    · rfl
    · exact hw.elim
    · rfl
  · have hbehind : e.behind (.symbol n) = (Keyword.ofName? n).elim .word Edge.ofWord := by
      rcases he with (rfl | ⟨_, hw, -⟩) | ⟨op, rfl⟩
      · rfl
      · exact hw.elim
      · rfl
    rw [hbehind]
    cases hw : Keyword.ofName? n with
    | none => exact Edge.closes_word
    | some w =>
      rw [Option.elim_some, Edge.ofWord]
      split
      · next hleads =>
        refine ⟨⟨nofun, nofun, fun v hv => ?_⟩, nofun⟩
        cases hv
        exact hn w hw hleads
      · exact Edge.closes_word

/-- Behind a point a name leads no operator. -/
theorem legible_symbol_of_dot (n : String) : Legible (· = .dot) [.symbol n] (· = .word) := by
  refine .single trivial ?_ ?_ ?_
  · rintro e rfl
    rw [chars_symbol]
    split
    · next hn =>
      obtain ⟨c, cs, hcs⟩ := List.exists_cons_of_ne_nil (Lexeme.ne_nil_of_isWord hn)
      rw [hcs] at hn ⊢
      have hstart := Lexeme.startsWord_head hn c rfl
      rw [List.head?_cons, Option.any_some]
      show (c = '.' || c = ' ' || c.isDigit) = false
      rw [Lexeme.isDigit_of_startsWord hstart, Bool.or_false, Bool.or_eq_false_iff,
        decide_eq_false_iff_not, decide_eq_false_iff_not]
      constructor <;> rintro rfl <;> cases hstart
    · rfl
  · rintro e rfl
    rfl
  · rintro e rfl
    rfl

/-- Behind a space any operator may stand. -/
theorem legible_operator (op : Operator) : Legible (Parts S) [.operator op] (Ends NoWord) := by
  have hhead : ∀ w ∈ op.words.head?, ∀ v : Keyword, v.joins w = false := by
    intro w hw v
    cases op <;> cases hw <;> cases v <;> rfl
  refine .single trivial ?_ ?_ ?_
  · rintro e (rfl | ⟨w, -, rfl⟩)
    · cases op <;> rfl
    · cases op <;> rfl
  · rintro e (rfl | ⟨w, -, rfl⟩)
    · rfl
    · show op.words.head?.any w.joins = false
      cases hw : op.words.head? with
      | none => rfl
      | some v => exact hhead v hw w
  · intro e he
    have hbehind : e.behind (.operator op) = if op.words = [] then .sign op else .word := by
      rcases he with rfl | ⟨w, -, rfl⟩ <;> rfl
    rw [hbehind]
    split
    · exact ⟨nofun, nofun, nofun⟩
    · exact Edge.closes_word.toEnds

/-- Signs that start with no sign of two characters may stand behind an
operand. -/
theorem legible_sign {op : Operator} (hop : op = .dotDot ∨ op = .pipe ∨ op = .star) :
    Legible (Closes S) [.operator op] (· = .sign op) := by
  refine .single trivial (fun e he => ?_) (fun e he => ?_) (fun e _ => ?_)
  · rcases hop with rfl | rfl | rfl
    all_goals
      cases e with
      | dot => exact absurd rfl he.undotted
      | sign op =>
        cases op <;> first | rfl | exact absurd rfl he.slash
      | _ => rfl
  · rcases hop with rfl | rfl | rfl <;> cases e <;> rfl
  · rcases hop with rfl | rfl | rfl <;> cases e <;> rfl

theorem legible_minus : Legible Opens [.operator .minus] (· = .sign .minus) := by
  refine .single trivial ?_ ?_ ?_
  all_goals
    rintro e (rfl | rfl | rfl) <;> rfl

theorem legible_star : Legible Opens [.operator .star] (Closes S) := by
  refine .single trivial ?_ ?_ ?_
  · rintro e (rfl | rfl | rfl) <;> rfl
  · rintro e (rfl | rfl | rfl) <;> rfl
  · rintro e (rfl | rfl | rfl) <;> exact Edge.closes_star

/-! ## Parts of a layout -/

theorem free_of_clear {e : Edge} (h : e = .clear) : Free S e := .inl (.inl h)

theorem ends_of_clear {e : Edge} (h : e = .clear) : Ends S e := h ▸ Edge.closes_clear.toEnds

theorem closes_of_clear {e : Edge} (h : e = .clear) : Closes S e := h ▸ Edge.closes_clear

theorem closes_of_word {e : Edge} (h : e = .word) : Closes S e := h ▸ Edge.closes_word

/-- A space behind what leads no operator leaves the text clear. -/
theorem legible_clearSpace : Legible (Ends NoWord) [.space] (· = .clear) :=
  legible_space.post fun _ => Edge.Parts.eq_clear

/-- A reserved word with a space behind it. -/
theorem legible_lead {w : Keyword} (hleads : w.leads = false)
    (hjoins : ∀ v, S v → v.joins w = false) :
    Legible (Free S) [.keyword w, .space] (· = .clear) :=
  (legible_keyword hleads hjoins).cons
    (legible_clearSpace.pre fun _ he => (closes_of_word he).toEnds)

theorem legible_after {w : Keyword} (hleads : w.leads = false)
    (hjoins : ∀ v, S v → v.joins w = false) (h : Legible (· = .clear) gs Q) :
    Legible (Ends S) (after w gs) Q :=
  (legible_space.post fun _ he => .inl he).cons ((legible_lead hleads hjoins).append h)

theorem legible_named {n : Option String} : Legible (Closes S) (named n) (Closes S) := by
  cases n with
  | none => exact .nil fun _ => id
  | some n =>
    refine (legible_after rfl (fun v _ => by cases v <;> rfl) ?_).pre fun _ he => he.toEnds
    exact (legible_name n (S := NoWord)).conseq (fun _ => free_of_clear) fun _ => closes_of_word

/-- Runs with commas between them. -/
theorem legible_separated {runs : List (List Glyph)}
    (h : ∀ run ∈ runs, Legible (· = .clear) run (Closes S)) :
    Legible (· = .clear) (separated runs) (Closes S) := by
  unfold separated
  match runs with
  | [] => exact .nil fun _ => closes_of_clear
  | [run] => exact h run List.mem_cons_self
  | run :: next :: runs =>
    rw [List.forall_mem_cons] at h
    exact (h.1.append ((legible_mark (m := .comma) nofun).cons
      (legible_clearSpace.pre fun _ => ends_of_clear))).append (legible_separated h.2)

theorem legible_labels {names : List String} (h : ∀ n ∈ names, LeadsIn S n) :
    Legible (Closes S) (labels names) (Closes S) :=
  .flatMap fun n hn => (legible_mark (m := .colon) nofun).cons
    ((legible_symbol (h n hn)).pre fun _ => free_of_clear)

theorem legible_dotted {parts : List String} (hparts : parts ≠ [])
    (h : ∀ n, parts = [n] → LeadsIn S n) :
    Legible (Free NoWord) (dotted parts) (Closes S) := by
  have htail (ns : List String) (hns : ns ≠ []) :
      Legible (· = .dot) (dotted ns) (Closes S) := by
    unfold dotted
    induction ns with
    | nil => exact absurd rfl hns
    | cons n ns ih =>
      have hn := (legible_symbol_of_dot n).post fun _ => closes_of_word (S := S)
      cases ns with
      | nil => exact hn
      | cons m ns => exact (hn.append (legible_dot.pre fun _ he => he.toEnds)).append (ih nofun)
  match parts with
  | [] => exact absurd rfl hparts
  | [n] => exact legible_symbol (h n rfl)
  | n :: m :: ns =>
    have hn : Legible (Free NoWord) [.symbol n] (Closes AnyWord) :=
      legible_symbol fun _ _ _ => trivial
    exact (hn.append (legible_dot.pre fun _ he => he.toEnds)).append (htail (m :: ns) nofun)

/-- Two runs with a space between them if both hold something. -/
theorem legible_spaced {left right : List Glyph}
    (hleft : Legible (· = .clear) left (Ends AnyWord))
    (hright : right ≠ [] → Legible (Free AnyWord) right (Ends AnyWord)) :
    Legible (· = .clear) (spaced left right) (Ends AnyWord) := by
  unfold spaced
  by_cases hr : right = []
  · subst hr
    simpa using hleft
  · by_cases hl : left = []
    · subst hl
      simpa using (hright hr).pre fun _ => free_of_clear
    · rw [if_neg (by simp [hl, hr])]
      exact hleft.append (legible_space.cons ((hright hr).pre fun _ he => .inl he))

end Glyph

end Cypher
