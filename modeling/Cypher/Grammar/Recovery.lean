import Cypher.Grammar.State
import Cypher.Tree.Expression

/-!
# Getting over a missing operand

Where an operand is due and the next token cannot start one, the reading
can go on: the fault is put on record, tokens are skipped up to one that
ends every expression, and a hole takes the place of the operand. No other
fault is survived.

Brackets are skipped in pairs, whatever their shape, so that a comma
inside a skipped call does not stop the skipping.
-/

namespace Cypher.Grammar

open Token (Kind)

/-- Whether a token ends every expression it stands in. -/
def endsExpression : Kind → Bool
  | .punctuation .comma | .punctuation .rparen | .punctuation .rbracket
  | .punctuation .rbrace | .operator .pipe => true
  | .keyword .AS | .keyword .THEN | .keyword .ELSE | .keyword .END | .keyword .WHEN
  | .keyword .WHERE | .keyword .ON | .keyword .YIELD => true
  | .keyword word => word.startsClause
  | .eof => true
  | _ => false

/-- The number of open brackets after a token. -/
def nestingAfter (nesting : Nat) : Kind → Nat
  | .punctuation .lparen | .punctuation .lbracket | .punctuation .lbrace => nesting + 1
  | .punctuation .rparen | .punctuation .rbracket | .punctuation .rbrace => nesting - 1
  | _ => nesting

/-- The number of tokens before the first that ends the expression outside
all brackets opened on the way. The end of the text ends it anywhere. -/
def skipLength (nesting : Nat) : List Token → Nat
  | [] => 0
  | t :: rest =>
    if t.kind = .eof ∨ nesting = 0 ∧ endsExpression t.kind then 0
    else skipLength (nestingAfter nesting t.kind) rest + 1

/-- Skips the operand due here and answers a hole over what was skipped,
empty if nothing was. -/
def skipOperand : Parser Expression := fun s =>
  let fault : Fault := ⟨.expectedExpression, s.current.site⟩
  let skipped := skipLength 0 s.ahead
  let s' := { s with faults := s.faults ++ [fault] }.advanceBy skipped
  let start := s.current.span.start
  .ok (.hole ⟨start, if skipped = 0 then start else s'.stop⟩) s'

/-- Reports the token due here as no start of an expression: for good, or
on record with a hole in its place. -/
def recoverExpression (config : Config) : Parser Expression :=
  if config.recover then skipOperand else fail .expectedExpression

end Cypher.Grammar
