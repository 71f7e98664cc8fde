import Cypher.Span
import Cypher.Text.Slice
import Cypher.Text.Blank
import Cypher.Text.Quoted
import Cypher.Text.Dump
import Cypher.Keyword
import Cypher.Token
import Cypher.Diagnostic
import Cypher.Fault
import Cypher.Report
import Cypher.Lexeme
import Cypher.Token.Merge
import Cypher.Token.Stream
import Cypher.Operator
import Cypher.Operator.Table
import Cypher.Operator.Stacks
import Cypher.Glyph
import Cypher.Tree.Expression
import Cypher.Tree.Height
import Cypher.Tree.Query
import Cypher.Tree.Layout
import Cypher.Tree.Dump
import Cypher.Grammar.State
import Cypher.Grammar.Lookahead
import Cypher.Grammar.Recovery
import Cypher.Grammar.Pattern
import Cypher.Grammar.Operand
import Cypher.Grammar.Operators
import Cypher.Grammar.Expression
import Cypher.Grammar.Clause
import Cypher.Grammar.Query
import Cypher.Parse
import Cypher.Command
import Cypher.Main
import Cypher.Proofs.Tree.Children
import Cypher.Proofs.Tree.Glyphs
import Cypher.Proofs.Tree.Rebuild
import Cypher.Proofs.Tree.Erase
import Cypher.Proofs.Tree.Formed
import Cypher.Proofs.Tree.Clear
import Cypher.Proofs.Token.Bare
import Cypher.Proofs.Token.Tree
import Cypher.Proofs.Token.Query
import Cypher.Proofs.Reading.Basic
import Cypher.Proofs.Reading.Lookahead
import Cypher.Proofs.Reading.Node
import Cypher.Proofs.Reading.Path
import Cypher.Proofs.Reading.Head
import Cypher.Proofs.Reading.Atom
import Cypher.Proofs.Reading.Operand
import Cypher.Proofs.Reading.Operators
import Cypher.Proofs.Reading.Expression
import Cypher.Proofs.Reading.Clause
import Cypher.Proofs.Reading.Query
import Cypher.Proofs.Lexing.Word
import Cypher.Proofs.Lexing.Edge
import Cypher.Proofs.Lexing.Cut
import Cypher.Proofs.Lexing.Merge
import Cypher.Proofs.Lexing.Legible
import Cypher.Proofs.Lexing.Expression
import Cypher.Proofs.Lexing.Query
import Cypher.Proofs.RoundTrip
import Cypher.Proofs.Clean
import Cypher.Proofs.Ensured.Basic
import Cypher.Proofs.Ensured.Pattern
import Cypher.Proofs.Outcome
import Cypher.Proofs.Tree.Recast
import Cypher.Proofs.Tree.Respelled
import Cypher.Proofs.Tree.Outline
import Cypher.Proofs.Lexing.Order
import Cypher.Proofs.Ensured.Token
import Cypher.Proofs.Ensured.Operand
import Cypher.Proofs.Ensured.Operators
import Cypher.Proofs.Ensured.Clause
import Cypher.Proofs.Ensured.Query
import Cypher.Proofs.Lexing.Respaced
import Cypher.Proofs.Lexing.Regrouped
import Cypher.Proofs.Compared.Basic
import Cypher.Proofs.Compared.Pattern
import Cypher.Proofs.Compared.Operand
import Cypher.Proofs.Compared.Operators
import Cypher.Proofs.Compared.Clause
import Cypher.Proofs.Compared.Query
import Cypher.Proofs.Compared.Truncated
import Cypher.Proofs.Compared.Orderly
import Cypher.Proofs.Compared.Limited
import Cypher.Proofs.Compared.Relaid
import Cypher.Proofs.Climbing.Basic
import Cypher.Proofs.Climbing.Stacks
import Cypher.Proofs.Climbing.Operators
import Cypher.Proofs.Progress
import Cypher.Proofs.Leads
import Cypher.Proofs.Leaves.Tree
import Cypher.Proofs.Leaves.Scan
import Cypher.Proofs.Leaves.Basic
import Cypher.Proofs.Leaves.Tokens
import Cypher.Proofs.Leaves.Pattern
import Cypher.Proofs.Leaves.Operand
import Cypher.Proofs.Leaves.Operators
import Cypher.Proofs.Leaves.Clause
import Cypher.Proofs.Leaves.Query
import Cypher.Proofs.Leaves.Foreseen
import Cypher.Proofs.Derived.Pattern
import Cypher.Proofs.Derived.Sound
import Cypher.Proofs.Derived.Complete
import Cypher.Proofs.Derived.Exact
import Cypher.Proofs.Laid.Basic
import Cypher.Proofs.Laid.Tokens
import Cypher.Proofs.Laid.Pattern
import Cypher.Proofs.Laid.Operand
import Cypher.Proofs.Laid.Operators
import Cypher.Proofs.Laid.Clause
import Cypher.Proofs.Laid.Query
import Cypher.Proofs.Lexing.Place
import Cypher.Proofs.Lexing.Accounted
import Cypher.Proofs.Closed.Basic
import Cypher.Proofs.Closed.Operand
import Cypher.Proofs.Closed.Query
import Cypher.Proofs.Closed.Sited
import Cypher.Proofs.Pointing
import Cypher.Proofs.Checked.Lexing
import Cypher.Proofs.Checked.Grammar
import Cypher.Proofs.Tree.Moved
import Cypher.Proofs.Lexing.Seam
import Cypher.Proofs.Continued.Basic
import Cypher.Proofs.Continued.Pattern
import Cypher.Proofs.Continued.Operand
import Cypher.Proofs.Continued.Operators
import Cypher.Proofs.Continued.Clause
import Cypher.Proofs.Continued.Query
import Cypher.Proofs.Composition
import Cypher.Proofs.Disguised.Basic
import Cypher.Proofs.Disguised.Lookahead
import Cypher.Proofs.Lexing.Delimited
import Cypher.Proofs.Lexing.Lines
import Cypher.Proofs.Lexing.Quoted
import Cypher.Proofs.Disguised.Operand
import Cypher.Proofs.Disguised.Operators
import Cypher.Proofs.Disguised.Query
import Cypher.Proofs.Disguised.Renamed
import Cypher.Proofs.Lexing.Greedy
import Cypher.Proofs.Recovery
import Cypher.Proofs.Terminating.Depth
import Cypher.Proofs.Terminating.Loops
import Cypher.Proofs.Terminating.Query
import Cypher.Proofs.Stacked
import Cypher.Proofs.Tree.Sketch
import Cypher.Proofs.Traced.Brackets
import Cypher.Proofs.Traced.Basic
import Cypher.Proofs.Traced.Tokens
import Cypher.Proofs.Traced.Pattern
import Cypher.Proofs.Traced.Operand
import Cypher.Proofs.Traced.Operators
import Cypher.Proofs.Traced.Clause
import Cypher.Proofs.Traced.Query
import Cypher.Proofs.Traced.Bracketed
import Cypher.Proofs.Traced.Nested
import Cypher.Proofs.Traced.Starred
import Cypher.Proofs.Lexing.Parenthesis
import Cypher.Proofs.Enclosed.Basic
import Cypher.Proofs.Enclosed.Tokens
import Cypher.Proofs.Enclosed.Lookahead
import Cypher.Proofs.Enclosed.Pattern
import Cypher.Proofs.Enclosed.Operand
import Cypher.Proofs.Enclosed.Operators
import Cypher.Proofs.Enclosed.List
import Cypher.Proofs.Enclosed.Expression
import Cypher.Proofs.Enclosed.Clause
import Cypher.Proofs.Enclosed.Query
import Cypher.Proofs.Enclosed.Parenthesized
