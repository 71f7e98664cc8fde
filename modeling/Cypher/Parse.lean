import Cypher.Grammar.Query
import Cypher.Report
import Cypher.Token.Stream
import Cypher.Tree.Layout

/-!
# Parsing a query text

Parsing answers an outcome: the tree, if the text could be read to its
end, and everything that is wrong, the lexical faults before the
grammatical ones. A tree may come with faults, when some were got over; a
query is ACCEPTED when there is a tree and nothing is wrong.
-/

namespace Cypher

export Grammar (Config)

/-- What became of a query text. -/
structure Outcome where
  /-- Absent when a fault stopped the reading. -/
  query : Option Query
  faults : List Fault

namespace Outcome

/-- What is wrong, in words. -/
def diagnostics (o : Outcome) : List Diagnostic := o.faults.map Fault.diagnostic

/-- Whether anything that is wrong makes the query fail. -/
def hasErrors (o : Outcome) : Bool := o.diagnostics.any Diagnostic.isError

/-- The tree if the query is accepted, and otherwise what is wrong with
it. -/
def result (o : Outcome) (source : Source) : Except Rejection Query :=
  match o.query with
  | some query =>
    if o.hasErrors then .error ⟨o.diagnostics, source⟩ else .ok query
  | none => .error ⟨o.diagnostics, source⟩

end Outcome

/-- Reads tokens as a query. -/
def Outcome.ofTokens (stream : TokenStream) (config : Config) : Outcome :=
  match Grammar.query config { ahead := stream.tokens, eof := stream.eof } with
  | .ok query s => ⟨some query, stream.faults ++ s.faults⟩
  | .error fault s => ⟨none, stream.faults ++ s.faults ++ [fault]⟩

/-- Reads a text as a query. -/
def Outcome.ofText (text : String) (config : Config := {}) : Outcome :=
  Outcome.ofTokens (TokenStream.ofText text) config

/-- The tree of a query text, or what is wrong with it. -/
def parse (text : String) (config : Config := {}) : Except Rejection Query :=
  (Outcome.ofText text config).result { content := text }

end Cypher
