import Cypher.Grammar.Operand
import Cypher.Grammar.Operators

/-!
# Expressions

Operands hold expressions and expressions are made of operands. The knot
is tied by the nesting limit: an expression that may nest `room + 1`
levels deep is read with expressions inside it that may nest `room` levels
deep, and where there is no room the limit is reported.
-/

namespace Cypher.Grammar

/-- An expression that may nest `room` levels deep. -/
def expressionWithin (config : Config) : Nat → Parser Expression
  | 0, s => tooDeep config s
  | room + 1, s =>
    nested config
      (operators config (operand config (expressionWithin config room))) s

/-- An expression at the outermost level. -/
def expression (config : Config) : Parser Expression :=
  expressionWithin config config.maxDepth

end Cypher.Grammar
