import Cypher.Lexeme
import Cypher.Token.Merge

/-!
# The tokens of a text

Reading a text as tokens always succeeds: what cannot be read is left out
and reported. The end of the text is a token of its own, with no bytes,
so that a report can point there.
-/

namespace Cypher

/-- The tokens of a text, the token that marks its end, and what was
wrong with the text, in the order of the text. -/
structure TokenStream where
  tokens : List Token
  eof : Token
  faults : List Fault

namespace TokenStream

/-- The token at the end of a text. -/
def eofOf (text : List Char) : Token :=
  let stop := Text.byteLength text
  ⟨.eof, ⟨stop, stop⟩, 1 + Text.newlines text, ""⟩

/-- The tokens of a text given as its characters. -/
def ofChars (text : List Char) : TokenStream :=
  let lexemes := Lexeme.ofText text
  { tokens := Token.merge text (lexemes.filterMap Lexeme.token?)
    eof := eofOf text
    faults := lexemes.filterMap Lexeme.fault? }

/-- The tokens of a query text. -/
def ofText (text : String) : TokenStream := ofChars text.toList

/-- All tokens, the end included. -/
def toList (s : TokenStream) : List Token := s.tokens ++ [s.eof]

/-- What is wrong with the text, in words. -/
def diagnostics (s : TokenStream) : List Diagnostic :=
  s.faults.map Fault.diagnostic

end TokenStream

end Cypher
