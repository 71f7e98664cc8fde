import Cypher.Proofs.Lexing.Merge

/-!
# A glyph on its own

A glyph that is the whole of a text is read as one token and nothing else, if
it is not a space. The token holds what the glyph means: whether a name stands
bare or between grave accents, and what is escaped in a string, is seen in the
text and not in the token.
-/

namespace Cypher

namespace Glyph

/-- Nothing in front of a glyph, so nothing to mistake it for. -/
theorem run_clear (g : Glyph) : Edge.clear.run [g] = some (Edge.clear.behind g) := by
  have hfree (c : Option Char) : c.any Edge.clear.bars = false := by cases c <;> rfl
  rw [Edge.run, Edge.step, hfree]
  rfl

/-- The text of a glyph has one token, which is the glyph's. -/
theorem ofText_single {g : Glyph} (hg : g.Written) {t : Token} (ht : g.token? = some t) :
    ∃ u, u.bare = t ∧ TokenStream.ofText (textOf [g])
      = ⟨[u], TokenStream.eofOf (textOf [g]).toList, []⟩ := by
  have hwritten : ∀ g' ∈ [g], g'.Written := by
    intro g' hmem
    rw [List.mem_singleton.1 hmem]
    exact hg
  have htext : (textOf [g]).toList = [g].flatMap chars := String.toList_ofList
  obtain ⟨hfaults, htokens⟩ := ofChars_legible hwritten (run_clear g)
  rw [tokens_cons, ht, ← htext] at htokens
  obtain ⟨u, hu, hbare⟩ := List.map_eq_singleton_iff.1 htokens
  rw [← htext] at hfaults
  refine ⟨u, hbare, ?_⟩
  show TokenStream.ofChars (textOf [g]).toList = _
  rw [← hu, ← hfaults]
  rfl

/-- Whatever characters it is made of, a value survives being written: as a name
it is read as one identifier, as a symbol as one token that serves as that name,
and as a string as one string. -/
theorem quoted_read_back (value : String) :
    (∃ t, (TokenStream.ofText (textOf [.name value])).toList
          = [t, TokenStream.eofOf (textOf [.name value]).toList]
        ∧ t.kind = .identifier value
        ∧ (TokenStream.ofText (textOf [.name value])).diagnostics = [])
    ∧ (∃ t, (TokenStream.ofText (textOf [.symbol value])).toList
          = [t, TokenStream.eofOf (textOf [.symbol value]).toList]
        ∧ t.symbolicName? = some value
        ∧ (TokenStream.ofText (textOf [.symbol value])).diagnostics = [])
    ∧ ∃ t, (TokenStream.ofText (textOf [.string value])).toList
          = [t, TokenStream.eofOf (textOf [.string value]).toList]
        ∧ t.kind = .string value
        ∧ (TokenStream.ofText (textOf [.string value])).diagnostics = [] := by
  obtain ⟨name, hname, hnamed⟩ := ofText_single (g := .name value) trivial rfl
  obtain ⟨symbol, hsymbol, hsymbolic⟩ := ofText_single (g := .symbol value) trivial rfl
  obtain ⟨string, hstring, hquoted⟩ := ofText_single (g := .string value) trivial rfl
  refine ⟨⟨name, by rw [hnamed]; rfl, ?_, by rw [hnamed]; rfl⟩,
    ⟨symbol, by rw [hsymbolic]; rfl, ?_, by rw [hsymbolic]; rfl⟩,
    ⟨string, by rw [hquoted]; rfl, ?_, by rw [hquoted]; rfl⟩⟩
  · rw [← Token.kind_bare, hname, Token.kind_ofKind]
  · rw [← Token.symbolicName?_bare, hsymbol, symbolicName?_symbolToken]
  · rw [← Token.kind_bare, hstring, Token.kind_ofKind]

/-- A reserved word, a newline, a backslash and both kinds of quotes, all escaped. -/
example : textOf [.name "Match", .string "it's\n\\u0041"]
    = "\x60Match\x60'it\\'s\\n\\\\u0041'" := by decide +kernel

end Glyph

end Cypher
