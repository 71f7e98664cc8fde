import Cypher.Grammar.Clause
import Cypher.Grammar.Expression

/-!
# Queries

    query       := ['CYPHER' number] singleQuery ('UNION' ['ALL'] singleQuery)*
    singleQuery := clause+

A union is a tree too: each single query joined to it makes it one level
higher, and the nesting limit bounds its height.
-/

namespace Cypher.Grammar

variable (config : Config)

/-- A run of clauses, which is never empty. -/
def singleQuery : Parser SingleQuery := do
  let begin ← start
  let clauses ← many (clause (expression config))
  if clauses.isEmpty then fail (.unexpected .noClause)
  else return ⟨clauses, ← spanFrom begin⟩

/-- The number in the header of a query, if it has a header. -/
def version : Parser (Option String) := do
  if ← consume (.keyword .CYPHER) then
    let t ← current
    match t.kind with
    | .integer digits | .float digits =>
      advance
      return some digits
    | _ => fail (.expected .version)
  else return none

/-- A union with the number of single queries in it. -/
structure Joined where
  body : QueryBody
  height : Nat

/-- The next single query of a union, behind its `UNION`. -/
def unionPart (left : Joined) : Parser Joined := do
  let height := left.height + 1
  checkHeight config height
  let all ← consume (.keyword .ALL)
  let right ← singleQuery config
  let span := ⟨left.body.span.start, right.span.stop⟩
  return ⟨.union all left.body right span, height⟩

/-- Joins one more single query to a union, if there is one. -/
def joinPart (left : Joined) : Parser (ForInStep Joined) := do
  if ← consume (.keyword .UNION) then return .yield (← unionPart config left)
  else return .done left

/-- A single query with all that are joined to it, from left to right. -/
def queryBody : Parser QueryBody := do
  let first ← singleQuery config
  let whole ← iterate (joinPart config) ⟨.single first, 1⟩
  return whole.body

/-- The end of the text must be due. -/
def endOfQuery : Parser Unit := do
  let t ← current
  if t.kind = .eof then pure () else fail (.unexpected .afterQuery)

/-- A whole text: header, body, and nothing behind them. -/
def query : Parser Query := do
  let begin ← start
  let header ← version
  let body ← queryBody config
  endOfQuery
  return ⟨header, body, ← spanFrom begin⟩

end Cypher.Grammar
