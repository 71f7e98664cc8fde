import Cypher.Proofs.Ensured.Basic
import Cypher.Proofs.Lexing.Order

/-!
# The tokens that are cut from a text

A lexeme is as long as the run of characters that its form allows, so what a
token holds is what its kind promises: digits in a number, a word in a
parameter. Putting words together makes operators only, which hold nothing.
-/

namespace Cypher

namespace Lexeme

/-- The characters of a run are all of its class. -/
theorem forall_mem_take_run (holds : Char → Bool) (ahead : List Char) :
    ∀ c ∈ ahead.take (run holds ahead), holds c = true := by
  have htake : ahead.take (run holds ahead) = ahead.takeWhile holds :=
    (List.prefix_iff_eq_take.1 (List.takeWhile_prefix holds)).symm
  rw [htake]
  exact fun c hc => List.mem_takeWhile_imp hc

/-- The characters are what the form promises. -/
def Form.Holds (piece : List Char) : Form → Prop
  | .integer => Digits piece
  | .float => PointedDigits piece
  | .parameter => isWord piece.tail
  | _ => True

/-- A point belongs to a number only between digits. -/
theorem holds_number {c : Char} (hc : c.isDigit = true) (ahead : List Char) :
    (number ahead).1.Holds (c :: ahead.take (number ahead).2) := by
  have hwhole : Digits (c :: ahead.take (run Char.isDigit ahead)) :=
    ⟨List.cons_ne_nil _ _, List.forall_mem_cons.2 ⟨hc, forall_mem_take_run _ _⟩⟩
  unfold number
  dsimp only
  split
  · next fraction hpoint =>
    split
    · exact hwhole
    · next hsome =>
      refine ⟨_, fraction.take (run Char.isDigit fraction), ?_, hwhole, fun hnil => hsome ?_,
        forall_mem_take_run _ _⟩
      · rw [List.cons_append, Nat.add_assoc, Nat.add_comm 1, List.take_add, hpoint]
        rfl
      · -- A run is never longer than what it is taken from.
        have hle : run Char.isDigit fraction ≤ fraction.length :=
          (List.takeWhile_prefix Char.isDigit).length_le
        have hlength := congrArg List.length hnil
        rw [List.length_take, List.length_nil] at hlength
        omega
  · exact hwhole

theorem holds_afterDollar (c : Char) (ahead : List Char) :
    (afterDollar ahead).1.Holds (c :: ahead.take (afterDollar ahead).2) := by
  unfold afterDollar
  split
  · next d rest =>
    split
    · next hstart =>
      show (startsWord d && (rest.take (run continuesWord rest)).all continuesWord) = true
      rw [hstart, Bool.true_and, List.all_eq_true]
      exact forall_mem_take_run _ _
    · trivial
  · trivial

/-- A lexeme holds what its form promises. -/
theorem holds_measure (c : Char) (ahead : List Char) :
    (measure c ahead).1.Holds (c :: ahead.take (measure c ahead).2) := by
  unfold measure
  split
  · trivial
  · split
    · next hdigit => exact holds_number hdigit ahead
    · split
      · trivial
      · split
        · exact holds_afterDollar c ahead
        · split
          · unfold afterSlash
            split
            · trivial
            · split <;> trivial
            · trivial
          · split
            · trivial
            · split
              · trivial
              · unfold symbol
                split <;> trivial

theorem holds_of_mem_cut {start line : Nat} {text : List Char} {l : Lexeme}
    (h : l ∈ cut start line text) : l.form.Holds l.text := by
  fun_induction cut start line text with
  | case1 => cases h
  | case2 start line c rest form n hm piece ih =>
    rcases List.mem_cons.1 h with rfl | hmem
    · have hholds := holds_measure c rest
      rw [hm] at hholds
      exact hholds
    · exact ih hmem

/-- A token carries what its lexeme holds. -/
theorem sound_of_token? {l : Lexeme} {t : Token} (hl : l.form.Holds l.text)
    (h : l.token? = some t) : t.Sound := by
  obtain ⟨kind, hkind, rfl⟩ := Option.map_eq_some_iff.1 h
  unfold kind? at hkind
  cases hform : l.form with
  | integer | float | parameter =>
    rw [hform] at hkind hl
    obtain rfl := Option.some.inj hkind
    simpa [Token.Sound, Form.Holds] using hl
  | word =>
    rw [hform] at hkind
    dsimp only at hkind
    split at hkind <;> (obtain rfl := Option.some.inj hkind; trivial)
  | separator | lineComment | blockComment | illegal => rw [hform] at hkind; cases hkind
  | string | quotedName | operator | punctuation =>
    rw [hform] at hkind
    obtain rfl := Option.some.inj hkind
    trivial

end Lexeme

/-- All tokens of a text carry what their kinds promise. -/
theorem TokenStream.sound_of_mem {text : List Char} {t : Token} (h : t ∈ (ofChars text).tokens) :
    t.Sound := by
  obtain ⟨t', ht', hsame⟩ := Token.exists_of_mem_mergeFrom h
  obtain ⟨l, hl, htoken⟩ := List.mem_filterMap.1 ht'
  rcases hsame with rfl | ⟨⟨op, hop⟩, -⟩
  · exact Lexeme.sound_of_token? (Lexeme.holds_of_mem_cut hl) htoken
  · unfold Token.Sound
    rw [hop]
    trivial

/-- The reading of a text starts on sound tokens. -/
theorem Grammar.State.Sound.ofText (text : String) :
    State.Sound ⟨none, (TokenStream.ofText text).tokens, (TokenStream.ofText text).eof, 0, []⟩ :=
  ⟨fun _ ht => TokenStream.sound_of_mem ht, fun _ ht => TokenStream.ne_eof_of_mem ht, rfl⟩

end Cypher
