import Cypher.Grammar.Recovery
import Cypher.Operator.Stacks

/-!
# Expressions of operators

An expression is a run of operands with operators before, between and
behind them. It is read in rounds: operators before an operand, the
operand, null checks behind it, and the operator that leads to the next
round. The stacks of `Cypher.Operator.Stacks` turn the run into a tree.
-/

namespace Cypher.Grammar

/-- Stops if a reduction has been refused. -/
def checkStacks (config : Config) (s : Stacks) : Parser Unit :=
  if s.tooDeep then tooDeep config else pure ()

/-- Stops if an operator that does not group follows another one of its
own binding. -/
def checkChain (level : Level) (s : Stacks) : Parser Unit :=
  match s.pending with
  | [] => pure ()
  | top :: _ =>
    if level.assoc = .nonAssoc ∧ top.binding = level.binding then
      fail (.chainedComparison top.text top.span)
    else pure ()

/-- Shifts the operator due here. -/
def shift (role : Pending.Role) (level : Level) (s : Stacks) : Parser Stacks := do
  let t ← current
  advance
  return s.pushPending ⟨role, level.binding, t.text, t.span⟩

/-- Shifts one operator before the operand, if there is one. -/
def shiftPrefix (s : Stacks) : Parser (ForInStep Stacks) := do
  let t ← current
  match Level.lookup t.kind .before, PrefixOperator.ofKind? t.kind with
  | some level, some op => return .yield (← shift (.prefixed op) level s)
  | _, _ => return .done s

/-- Applies one null check to the operand on top, if there is one. -/
def applyNullCheck (config : Config) (s : Stacks) : Parser (ForInStep Stacks) := do
  let t ← current
  match Level.lookup t.kind .after with
  | some level =>
    let reduced := s.reduceAbove config.maxDepth level.binding level.assoc
    let checked := reduced.nullCheck config.maxDepth
      (t.kind = .operator .isNotNull) t.span.stop
    checkStacks config checked
    advance
    return .yield checked
  | none => return .done s

/-- Shifts the operator between this operand and the next, if there is
one. -/
def shiftInfix (config : Config) (s : Stacks) : Parser (ForInStep Stacks) := do
  let t ← current
  match Level.lookup t.kind .between, InfixOperator.ofKind? t.kind with
  | some level, some op =>
    let reduced := s.reduceAbove config.maxDepth level.binding level.assoc
    checkStacks config reduced
    checkChain level reduced
    return .yield (← shift (.infixed op) level reduced)
  | _, _ => return .done s

/-- One round: an operand with all that stands before and behind it. -/
def round (config : Config) (operand : Parser Operand) (s : Stacks) :
    Parser (ForInStep Stacks) := do
  let shifted ← iterate shiftPrefix s
  let found ← operand
  let checked ← iterate (applyNullCheck config) (shifted.pushOperand found)
  shiftInfix config checked

/-- An expression over the operands that `operand` reads. -/
def operators (config : Config) (operand : Parser Operand) : Parser Expression := do
  let reached ← iterate (round config operand) {}
  let reduced := reached.reduceAll config.maxDepth
  checkStacks config reduced
  match reduced.operands with
  | top :: _ => return top.tree
  | [] => recoverExpression config

end Cypher.Grammar
