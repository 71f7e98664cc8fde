import Cypher.Parse
import Cypher.Proofs.Lexing.Merge
import Cypher.Proofs.Lexing.Query
import Cypher.Proofs.Reading.Query

/-!
# Reading back a canonical text

The canonical text of a query is cut into the lexemes of its glyphs, these
are put together to the tokens of the tree, and the grammar reads the tree
from its tokens. What it reads is the tree that was written, up to places.
-/

namespace Cypher

/-- The query can be read back from its tokens, and its tokens from its
text. -/
structure Query.Retrievable (q : Query) (limit : Nat) : Prop extends q.Readable limit where
  parted : ∀ p ∈ q.body.parts, p.Parted

theorem Query.Readable.legible {q : Query} {limit : Nat} (hq : q.Readable limit)
    (hparted : ∀ p ∈ q.body.parts, p.Parted) :
    Glyph.Legible (· = .clear) q.glyphs (Edge.Closes Edge.AnyWord) :=
  Query.legible hq.formed
    (fun c hc => ⟨(hq.plain c hc).formed,
      fun e he => ((hq.plain c hc).values e he).mono fun _ h => h.1⟩) hparted

/-- The text of a retrievable query has no faults, and its tokens are those
of the tree. -/
theorem Query.Retrievable.tokens_text {q : Query} {limit : Nat} (hq : q.Retrievable limit) :
    (TokenStream.ofText q.text).faults = []
      ∧ (TokenStream.ofText q.text).tokens.map Token.bare = q.tokens := by
  have hlegible := hq.toReadable.legible hq.parted
  obtain ⟨e, hrun, -⟩ := hlegible.run .clear rfl
  have hchars : q.text.toList = q.glyphs.flatMap Glyph.chars := String.toList_ofList
  unfold TokenStream.ofText
  rw [hchars]
  exact Glyph.ofChars_legible hlegible.written hrun

/-- A retrievable query is accepted in its canonical text, and read as the
tree it is, up to places. -/
theorem Query.Retrievable.parse_text {q : Query} {config : Config}
    (hq : q.Retrievable config.maxDepth) :
    ∃ q', parse q.text config = .ok q' ∧ q'.erase = q.erase := by
  obtain ⟨hfaults, htokens⟩ := hq.tokens_text
  obtain ⟨q', s', hrun, herase, -, hs'⟩ := Grammar.reads_query hq.toReadable
    ⟨none, (TokenStream.ofText q.text).tokens, (TokenStream.ofText q.text).eof, 0, []⟩
    ⟨htokens, rfl, rfl⟩
  refine ⟨q', ?_, herase⟩
  unfold parse Outcome.ofText Outcome.ofTokens
  rw [hrun]
  have hnone : (TokenStream.ofText q.text).faults ++ s'.faults = [] := by
    rw [hfaults, hs']
    rfl
  unfold Outcome.result Outcome.hasErrors Outcome.diagnostics
  simp only [hnone]
  rfl

/-- The canonical text of a retrievable query is stable: what is read from it has
that text again. -/
theorem Query.Retrievable.text_stable {q : Query} {config : Config}
    (hq : q.Retrievable config.maxDepth) :
    ∃ q', parse q.text config = .ok q' ∧ q'.text = q.text := by
  obtain ⟨q', hparse, herase⟩ := hq.parse_text
  exact ⟨q', hparse, Query.text_eq_of_erase_eq herase⟩

/-- Retrievable queries that share a canonical text are the same tree, up to
places. -/
theorem Query.Retrievable.erase_eq_of_text_eq {q q' : Query} {limit : Nat}
    (hq : q.Retrievable limit) (hq' : q'.Retrievable limit) (h : q.text = q'.text) :
    q.erase = q'.erase := by
  have hread (r : Query) (hr : r.Retrievable limit) :
      ∃ p, parse r.text ⟨limit, true⟩ = .ok p ∧ p.erase = r.erase := hr.parse_text
  obtain ⟨p, hparse, herase⟩ := hread q hq
  obtain ⟨p', hparse', herase'⟩ := hread q' hq'
  rw [h, hparse', Except.ok.injEq] at hparse
  rw [← herase, ← herase', hparse]

end Cypher
