import Mathlib
import Cypher.Keyword
import Cypher.Lexeme

/-!
# Words

Bare names and reserved words are made of the same characters. A text
that spells a reserved word is a word, so no name that needs grave accents
is one.
-/

namespace Cypher

namespace Lexeme

/-- A word starts with a character that words start with. -/
theorem startsWord_head {cs : List Char} (h : isWord cs = true) :
    ∀ c, cs.head? = some c → startsWord c = true := by
  intro c hc
  cases cs with
  | nil => cases hc
  | cons d ds =>
    cases hc
    unfold isWord at h
    rw [Bool.and_eq_true] at h
    exact h.1

theorem ne_nil_of_isWord {cs : List Char} (h : isWord cs = true) : cs ≠ [] := by
  rintro rfl
  cases h

/-- What a word starts with separates nothing. -/
theorem separates_of_startsWord {c : Char} (h : startsWord c = true) :
    separates c = false := by
  cases hs : separates c with
  | false => rfl
  | true =>
    unfold separates at hs
    simp only [Bool.or_eq_true, decide_eq_true_iff] at hs
    rcases hs with (((rfl | rfl) | rfl) | rfl) | rfl <;> cases h

/-- What a word starts with is no digit. -/
theorem isDigit_of_startsWord {c : Char} (h : startsWord c = true) : c.isDigit = false := by
  unfold startsWord Char.isAlpha Char.isUpper Char.isLower at h
  unfold Char.isDigit
  simp only [Bool.or_eq_true, Bool.and_eq_true, decide_eq_true_iff, ge_iff_le,
    UInt32.le_iff_toNat_le] at h
  simp only [Bool.and_eq_false_iff, decide_eq_false_iff_not, ge_iff_le,
    UInt32.le_iff_toNat_le]
  rcases h with h | rfl
  · simp at h ⊢
    omega
  · decide

/-- A digit separates nothing. -/
theorem separates_of_isDigit {c : Char} (h : c.isDigit = true) : separates c = false := by
  cases hs : separates c with
  | false => rfl
  | true =>
    unfold separates at hs
    simp only [Bool.or_eq_true, decide_eq_true_iff] at hs
    rcases hs with (((rfl | rfl) | rfl) | rfl) | rfl <;> cases h

end Lexeme

namespace Keyword

theorem isWord_text (w : Keyword) : Lexeme.isWord w.text.toList = true := by
  have hall : ∀ w ∈ all, Lexeme.isWord w.text.toList = true := by decide +kernel
  exact hall w w.mem_all

theorem ofLetters?_text (w : Keyword) : ofLetters? w.text.toList = some w := by
  have hall : ∀ w ∈ all, ofLetters? w.text.toList = some w := by decide +kernel
  exact hall w w.mem_all

/-- Only a letter is a capital one in upper case. -/
private theorem isAlpha_of_toUpper {c : Char} (h : c.toUpper.isUpper = true) :
    c.isAlpha = true := by
  unfold Char.toUpper at h
  split at h
  · next hlower =>
    unfold Char.isAlpha Char.isLower
    simp only [Bool.or_eq_true, Bool.and_eq_true, decide_eq_true_iff]
    exact .inr hlower
  · unfold Char.isAlpha
    rw [h, Bool.true_or]

/-- A name that spells a reserved word is a word. -/
theorem isWord_of_ofLetters? {cs : List Char} {w : Keyword} (h : ofLetters? cs = some w) :
    Lexeme.isWord cs = true := by
  have htext : w.text.toList = cs.map Char.toUpper := by
    have hfound := List.find?_some h
    simpa using hfound
  have hall : ∀ w ∈ all, w.text.toList.all Char.isUpper = true := by decide +kernel
  have hupper := hall w w.mem_all
  rw [htext, List.all_map, List.all_eq_true] at hupper
  have halpha : ∀ c ∈ cs, c.isAlpha = true := fun c hc => isAlpha_of_toUpper (hupper c hc)
  cases cs with
  | nil => exact absurd htext (Lexeme.ne_nil_of_isWord w.isWord_text)
  | cons c cs =>
    rw [List.forall_mem_cons] at halpha
    unfold Lexeme.isWord
    rw [Bool.and_eq_true, List.all_eq_true]
    refine ⟨?_, fun d hd => ?_⟩
    · unfold Lexeme.startsWord
      rw [halpha.1, Bool.true_or]
    · unfold Lexeme.continuesWord Char.isAlphanum
      rw [halpha.2 d hd, Bool.true_or, Bool.true_or]

end Keyword

end Cypher
