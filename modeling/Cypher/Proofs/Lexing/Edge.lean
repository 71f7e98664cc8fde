import Cypher.Glyph
import Cypher.Proofs.Lexing.Word
import Cypher.Proofs.Tree.Formed

/-!
# Where one glyph ends and the next begins

Glyphs are written one after another, and a reader of the text has to find
the same pieces again. That can go wrong in two ways. Characters of two
neighbours can be taken for one lexeme: `-` and `>` for an arrow. And a
name that spells a reserved word can be taken, together with the words
behind it, for an operator of several words.

The EDGE of a run of glyphs is what matters of it for the glyph behind it.
A run is legible when, from one edge to the next, no glyph stands where it
would be misread.
-/

namespace Cypher

/-- What a run of glyphs ends with. -/
inductive Edge
  /-- Anything may follow. -/
  | clear
  | word
  | number
  | sign (op : Operator)
  | dot
  /-- A reserved word that an operator of several words starts with, on its
  own. -/
  | leading (word : Keyword)
  /-- The same with a space behind it. -/
  | parted (word : Keyword)
  deriving DecidableEq

/-- Whether an operator of several words starts with the word. -/
def Keyword.leads : Keyword → Bool
  | .STARTS | .ENDS | .IS => true
  | _ => false

/-- Whether the second word goes on with an operator that the first one
starts. -/
def Keyword.joins : Keyword → Keyword → Bool
  | .STARTS, .WITH | .ENDS, .WITH | .IS, .NULL | .IS, .NOT => true
  | _, _ => false

/-- The words of an operator that is spelled with words. -/
def Operator.words : Operator → List Keyword
  | .startsWith => [.STARTS, .WITH]
  | .endsWith => [.ENDS, .WITH]
  | .isNull => [.IS, .NULL]
  | .isNotNull => [.IS, .NOT, .NULL]
  | _ => []

namespace Glyph

/-- The glyph can be read back at all. -/
def Written : Glyph → Prop
  | .parameter n => Lexeme.isWord n.toList
  | .number digits => Digits digits.toList ∨ PointedDigits digits.toList
  | .hole => False
  | _ => True

/-- The reserved word that a glyph starts with, if it does. -/
def firstWord? : Glyph → Option Keyword
  | .keyword word => some word
  | .symbol n => Keyword.ofName? n
  | .operator op => op.words.head?
  | _ => none

end Glyph

namespace Edge

/-- The characters that would be taken for a part of what stands before
them. A point must not look like that of a number, and bars what no key
starts with. -/
def bars : Edge → Char → Bool
  | .word, c | .leading _, c => Lexeme.continuesWord c
  | .number, c => c.isDigit
  | .sign .plus, c | .sign .gt, c => c = '='
  | .sign .minus, c => c = '>'
  | .sign .lt, c => c = '>' || c = '='
  | .sign .slash, c => c = '/' || c = '*'
  | .dot, c => c = '.' || c = ' ' || c.isDigit
  | _, _ => false

/-- Whether the words of a glyph would be taken for other words than
they are. -/
def misleads : Edge → Glyph → Bool
  | .parted w, g => g.firstWord?.any w.joins
  | .dot, .operator op => !op.words.isEmpty
  | _, _ => false

/-- The edge of a reserved word. -/
def ofWord (w : Keyword) : Edge := if w.leads then .leading w else .word

/-- The edge behind a glyph. A word behind a point starts no operator. -/
def behind : Edge → Glyph → Edge
  | .leading w, .space | .parted w, .space => .parted w
  | _, .space => .clear
  | _, .keyword w => ofWord w
  | .dot, .symbol _ => .word
  | _, .symbol n => (Keyword.ofName? n).elim .word ofWord
  | _, .name _ | _, .parameter _ => .word
  | _, .number _ => .number
  | _, .mark .dot => .dot
  | _, .mark _ | _, .string _ | _, .hole => .clear
  | _, .operator op => if op.words = [] then .sign op else .word

/-- The edge behind a glyph, if it may stand there. -/
def step (e : Edge) (g : Glyph) : Option Edge :=
  if g.chars.head?.any e.bars || e.misleads g then none else some (e.behind g)

/-- The edge behind a run of glyphs, if all of it is legible. -/
def run (e : Edge) : List Glyph → Option Edge
  | [] => some e
  | g :: gs => (e.step g).bind (run · gs)

theorem run_append (e : Edge) (xs ys : List Glyph) :
    e.run (xs ++ ys) = (e.run xs).bind (run · ys) := by
  induction xs generalizing e with
  | nil => rfl
  | cons g gs ih =>
    rw [List.cons_append, run, run]
    cases e.step g with
    | none => rfl
    | some e' => exact ih e'

/-- A legible run starts with a glyph that may stand there, and goes on
legibly. -/
theorem run_cons {e e' : Edge} {g : Glyph} {gs : List Glyph} (h : e.run (g :: gs) = some e') :
    g.chars.head?.any e.bars = false ∧ e.misleads g = false
      ∧ (e.behind g).run gs = some e' := by
  rw [run, step] at h
  split at h
  · cases h
  · next hstep =>
    rw [Bool.not_eq_true, Bool.or_eq_false_iff] at hstep
    exact ⟨hstep.1, hstep.2, h⟩

/-- The characters ahead are not taken for a part of what ends with the
edge. -/
structure Separate (e : Edge) (ahead : List Char) : Prop where
  first : ∀ c ∈ ahead.head?, e.bars c = false
  fraction : e = .number → ∀ c rest, ahead = '.' :: c :: rest → c.isDigit = false

end Edge

namespace Glyph

theorem chars_space : space.chars = [' '] := rfl

theorem chars_keyword (w : Keyword) : (keyword w).chars = w.text.toList := rfl

theorem chars_name (n : String) :
    (name n).chars = if Lexeme.isWord n.toList ∧ Keyword.ofName? n = none then n.toList
      else quotedName n.toList := rfl

theorem chars_symbol (n : String) :
    (symbol n).chars = if Lexeme.isWord n.toList then n.toList else quotedName n.toList := rfl

theorem chars_parameter (n : String) : (parameter n).chars = '$' :: n.toList := rfl

theorem chars_string (value : String) :
    (string value).chars = '\'' :: Text.encodeString value.toList ++ ['\''] := rfl

theorem chars_number (digits : String) : (number digits).chars = digits.toList := rfl

/-- Only a point and a range start with a point. -/
theorem eq_of_head_dot {g : Glyph} (hg : g.Written) (h : g.chars.head? = some '.') :
    g = .mark .dot ∨ g = .operator .dotDot := by
  have hword {cs : List Char} (hcs : Lexeme.isWord cs = true) : cs.head? ≠ some '.' :=
    fun hhead => absurd (Lexeme.startsWord_head hcs '.' hhead) (by decide)
  cases g with
  | space => cases h
  | keyword w => exact absurd h (hword w.isWord_text)
  | operator op => cases op <;> first | exact .inr rfl | cases h
  | mark m => cases m <;> first | exact .inl rfl | cases h
  | name n =>
    rw [chars_name] at h
    split at h
    · next hn => exact absurd h (hword hn.1)
    · cases h
  | symbol n =>
    rw [chars_symbol] at h
    split at h
    · next hn => exact absurd h (hword hn)
    · cases h
  | parameter | string => cases h
  | number digits =>
    rw [chars_number] at h
    rcases hg with hdigits | ⟨whole, fraction, hdigits, hwhole, -⟩
    · exact absurd (hdigits.2 '.' (List.mem_of_head? h)) (by decide)
    · obtain ⟨c, cs, rfl⟩ := List.exists_cons_of_ne_nil hwhole.1
      rw [hdigits] at h
      cases h
      exact absurd (hwhole.2 '.' List.mem_cons_self) (by decide)
  | hole => exact hg.elim

/-- A glyph has at least one character. -/
theorem chars_ne_nil {g : Glyph} (hg : g.Written) : g.chars ≠ [] := by
  cases g with
  | space => exact List.cons_ne_nil _ _
  | keyword w => exact Lexeme.ne_nil_of_isWord w.isWord_text
  | operator op => cases op <;> exact List.cons_ne_nil _ _
  | mark m => cases m <;> exact List.cons_ne_nil _ _
  | name n =>
    rw [chars_name]
    split
    · next hn => exact Lexeme.ne_nil_of_isWord hn.1
    · exact List.cons_ne_nil _ _
  | symbol n =>
    rw [chars_symbol]
    split
    · next hn => exact Lexeme.ne_nil_of_isWord hn
    · exact List.cons_ne_nil _ _
  | parameter | string => exact List.cons_ne_nil _ _
  | number digits =>
    rcases hg with hdigits | ⟨whole, fraction, hdigits, -, -⟩
    · exact hdigits.1
    · rw [chars_number]
      rw [hdigits]
      simp
  | hole => exact hg.elim

end Glyph

namespace Edge

/-- What follows an edge legibly is separate from it. -/
theorem separate_of_run {e e' : Edge} {gs : List Glyph} (hgs : ∀ g ∈ gs, g.Written)
    (h : e.run gs = some e') : e.Separate (gs.flatMap Glyph.chars) := by
  cases gs with
  | nil => exact ⟨nofun, nofun⟩
  | cons g gs =>
    rw [List.forall_mem_cons] at hgs
    obtain ⟨hbars, -, hrun⟩ := run_cons h
    obtain ⟨c, cs, hcs⟩ := List.exists_cons_of_ne_nil (Glyph.chars_ne_nil hgs.1)
    rw [List.flatMap_cons, hcs]
    rw [hcs, List.head?_cons, Option.any_some] at hbars
    refine ⟨fun d hd => ?_, fun hnumber d rest hrest => ?_⟩
    · cases hd
      exact hbars
    · subst hnumber
      rw [List.cons_append, List.cons.injEq] at hrest
      obtain ⟨rfl, hrest⟩ := hrest
      rcases Glyph.eq_of_head_dot hgs.1 (by rw [hcs]; rfl) with rfl | rfl
      · -- The point is a glyph of its own, and bars a digit behind it.
        have hnil : cs = [] := (List.cons.inj hcs).2.symm
        subst hnil
        cases gs with
        | nil => cases hrest
        | cons g gs =>
          rw [List.forall_mem_cons] at hgs
          obtain ⟨hbars', -, -⟩ := run_cons hrun
          obtain ⟨c, cs', hcs'⟩ :=
            List.exists_cons_of_ne_nil (Glyph.chars_ne_nil hgs.2.1)
          rw [List.nil_append, List.flatMap_cons, hcs'] at hrest
          have hc : c = d := (List.cons.inj hrest).1
          subst hc
          rw [hcs', List.head?_cons, Option.any_some] at hbars'
          have hdot : (c = '.' || c = ' ' || c.isDigit) = false := hbars'
          rw [Bool.or_eq_false_iff] at hdot
          exact hdot.2
      · have htail : cs = ['.'] := (List.cons.inj hcs).2.symm
        subst htail
        have hd : '.' = d := (List.cons.inj hrest).1
        subst hd
        rfl

end Edge

end Cypher
