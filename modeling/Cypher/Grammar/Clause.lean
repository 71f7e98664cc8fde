import Cypher.Grammar.Operand
import Cypher.Tree.Query

/-!
# Clauses

A clause is known by the reserved word it starts with. The parsers here
take over behind that word, with the offset where the clause began; the
parser of expressions is a parameter.
-/

namespace Cypher.Grammar

variable (expr : Parser Expression)

/-- A name behind `AS`, if there is one. -/
def optionalAlias : Parser (Option String) :=
  behind (.keyword .AS) (variableName .alias)

/-! ## `MATCH`, `CREATE` and `MERGE` -/

/-- The clause `'MATCH' pattern (',' pattern)* ['WHERE' expression]`. -/
def matchClause (kind : MatchKind) (begin : Nat) : Parser Clause := do
  let patterns ← patternList expr
  let filter ← optionalWhere expr
  return .matchPatterns kind patterns filter (← spanFrom begin)

/-- A `MATCH` behind the word that makes it of another kind. -/
def qualifiedMatch (kind : MatchKind) (begin : Nat) : Parser Clause := do
  expect (.keyword .MATCH)
  matchClause expr kind begin

/-- The clause `'CREATE' pattern (',' pattern)*`. -/
def createClause (begin : Nat) : Parser Clause := do
  let patterns ← patternList expr
  return .create patterns (← spanFrom begin)

/-- The sign of an assignment. -/
def assignment : Parser Assignment := do
  if ← consume (.operator .eq) then return .replace
  else if ← consume (.operator .plusEq) then return .extend
  else fail (.expected (.oneOf (.operator .eq) (.operator .plusEq)))

/-- An assignment to a property of `name`. -/
def setProperty (name : String) (begin : Nat) : Parser SetItem := do
  advance
  let key ← symbolicName .propertyKey
  let span ← spanFrom begin
  let how ← assignment
  let value ← expr
  return .property ⟨name, key, span⟩ how value (← spanFrom begin)

/-- Labels to be set on `name`, at the first colon. -/
def setLabels (name : String) (begin : Nat) : Parser SetItem := do
  let labels ← labelList
  return .labels name labels (← spanFrom begin)

/-- An assignment to all properties of `name`. -/
def setVariable (name : String) (begin : Nat) : Parser SetItem := do
  let how ← assignment
  let value ← expr
  return .variable name how value (← spanFrom begin)

/-- A change to a variable. What follows its name tells which. -/
def setItem : Parser SetItem := do
  let begin ← start
  let name ← variableName .variable
  let t ← current
  match t.kind with
  | .punctuation .dot => setProperty expr name begin
  | .punctuation .colon => setLabels name begin
  | _ => setVariable expr name begin

/-- The changes of a `SET`, which are never none. -/
def setItems : Parser (List SetItem) := commaSeparated (setItem expr)

/-- The event behind `ON`. -/
def mergeTrigger : Parser MergeTrigger := do
  if ← consume (.keyword .CREATE) then return .onCreate
  else if ← consume (.keyword .MATCH) then return .onMatch
  else fail (.expected (.oneOf (.keyword .CREATE) (.keyword .MATCH)))

/-- What to do when a `MERGE` creates or matches, if that is said. -/
def mergeAction : Parser (Option MergeAction) := do
  let begin ← start
  if ← consume (.keyword .ON) then
    let trigger ← mergeTrigger
    expect (.keyword .SET)
    let items ← setItems expr
    return some ⟨trigger, items, ← spanFrom begin⟩
  else return none

/-- The clause `'MERGE' pattern (',' pattern)* action*`. -/
def mergeClause (begin : Nat) : Parser Clause := do
  let patterns ← patternList expr
  let actions ← many (mergeAction expr)
  return .merge patterns actions (← spanFrom begin)

/-! ## `SET`, `DELETE` and `REMOVE` -/

/-- The clause `'SET' item (',' item)*`. -/
def setClause (begin : Nat) : Parser Clause := do
  let items ← setItems expr
  return .set items (← spanFrom begin)

/-- The clause `'DELETE' expression (',' expression)*`. -/
def deleteClause (detach : Bool) (begin : Nat) : Parser Clause := do
  let targets ← commaSeparated expr
  return .delete detach targets (← spanFrom begin)

/-- The clause `'DETACH' 'DELETE' expression (',' expression)*`. -/
def detachClause (begin : Nat) : Parser Clause := do
  expect (.keyword .DELETE)
  deleteClause expr true begin

/-- A property or labels of `name`, to be taken away. -/
def removeTail (name : String) (begin : Nat) : Parser RemoveItem := do
  if ← consume (.punctuation .dot) then
    let key ← symbolicName .propertyKey
    return .property ⟨name, key, ← spanFrom begin⟩
  else
    let labels ← labelList
    return .labels name labels (← spanFrom begin)

/-- A property or labels to be taken away. -/
def removeItem : Parser RemoveItem := do
  let begin ← start
  let name ← variableName .variable
  removeTail name begin

/-- The clause `'REMOVE' item (',' item)*`. -/
def removeClause (begin : Nat) : Parser Clause := do
  let items ← commaSeparated removeItem
  return .remove items (← spanFrom begin)

/-! ## `WITH`, `RETURN` and `UNWIND` -/

/-- An item `expression ['AS' name]`, which began at `begin`. -/
def expressionItem (begin : Nat) : Parser ProjectionItem := do
  let value ← expr
  let name ← optionalAlias
  return .expression value name (← spanFrom begin)

/-- A star at the start of an item is the wildcard, whatever follows. -/
def projectionItem : Parser ProjectionItem := do
  let t ← current
  if t.kind = .operator .star then
    advance
    return .everything t.span
  else expressionItem expr t.span.start

/-- A projection `['DISTINCT'] item (',' item)*`. -/
def projection : Parser Projection := do
  let begin ← start
  let distinct ← consume (.keyword .DISTINCT)
  let items ← commaSeparated (projectionItem expr)
  return ⟨distinct, items, ← spanFrom begin⟩

/-- The clause `'WITH' projection ['WHERE' expression]`. -/
def withClause (begin : Nat) : Parser Clause := do
  let handed ← projection expr
  let filter ← optionalWhere expr
  return .withProjection handed filter (← spanFrom begin)

/-- The clause `'RETURN' projection`. -/
def returnClause (begin : Nat) : Parser Clause := do
  let handed ← projection expr
  return .returnProjection handed (← spanFrom begin)

/-- The clause `'UNWIND' expression 'AS' name`, whose name cannot be left
out. -/
def unwindClause (begin : Nat) : Parser Clause := do
  let source ← expr
  expect (.keyword .AS)
  let name ← variableName .alias
  return .unwind source name (← spanFrom begin)

/-! ## `ORDER BY`, `SKIP` and `LIMIT` -/

/-- The direction of a sort key, ascending where none is written. -/
def sortDirection : Parser SortDirection := do
  let t ← current
  match t.kind with
  | .keyword .ASC | .keyword .ASCENDING =>
    advance
    return .ascending
  | .keyword .DESC | .keyword .DESCENDING =>
    advance
    return .descending
  | _ => return .ascending

/-- A sort key with its direction. -/
def sortItem : Parser SortItem := do
  let begin ← start
  let key ← expr
  let direction ← sortDirection
  return ⟨key, direction, ← spanFrom begin⟩

/-- The clause `'ORDER' 'BY' item (',' item)*`. -/
def orderClause (begin : Nat) : Parser Clause := do
  expect (.keyword .BY)
  let items ← commaSeparated (sortItem expr)
  return .orderBy items (← spanFrom begin)

/-- The clause `'SKIP' expression`. -/
def skipClause (begin : Nat) : Parser Clause := do
  let count ← expr
  return .skip count (← spanFrom begin)

/-- The clause `'LIMIT' expression`. -/
def limitClause (begin : Nat) : Parser Clause := do
  let count ← expr
  return .limit count (← spanFrom begin)

/-! ## `CALL` -/

/-- A name `part ('.' part)*`, whose parts may be reserved words. -/
def procedureName : Parser (List String) := do
  let first ← symbolicName .procedure
  let others ← many (behind (.punctuation .dot) (symbolicName .procedure))
  return first :: others

/-- The arguments of a procedure, behind their opening parenthesis. -/
def procedureArguments : Parser (List Expression) := do
  let arguments ← commaSeparatedUntil (.punctuation .rparen) expr
  expect (.punctuation .rparen)
  return arguments

/-- An item `field ['AS' name]`. -/
def yieldItem : Parser YieldItem := do
  let begin ← start
  let field ← variableName .resultField
  let name ← optionalAlias
  return ⟨field, name, ← spanFrom begin⟩

/-- The clause
`'CALL' name ['(' arguments ')'] ['YIELD' fields] ['WHERE' expression]`.
No argument list at all and an empty one are told apart. -/
def callClause (begin : Nat) : Parser Clause := do
  let procedure ← procedureName
  let arguments ← behind (.punctuation .lparen) (procedureArguments expr)
  let fields ← behind (.keyword .YIELD) (commaSeparated yieldItem)
  let filter ← optionalWhere expr
  return .call procedure arguments fields filter (← spanFrom begin)

/-! ## All clauses -/

/-- What a clause goes on with behind its first word. `UNION` starts none,
and neither does a word that no clause starts with. -/
def clauseBehind (word : Keyword) (begin : Nat) : Option (Parser Clause) :=
  match word with
  | .MATCH => some (matchClause expr .regular begin)
  | .OPTIONAL => some (qualifiedMatch expr .optional begin)
  | .MANDATORY => some (qualifiedMatch expr .mandatory begin)
  | .CREATE => some (createClause expr begin)
  | .MERGE => some (mergeClause expr begin)
  | .SET => some (setClause expr begin)
  | .DELETE => some (deleteClause expr false begin)
  | .DETACH => some (detachClause expr begin)
  | .REMOVE => some (removeClause begin)
  | .WITH => some (withClause expr begin)
  | .UNWIND => some (unwindClause expr begin)
  | .RETURN => some (returnClause expr begin)
  | .ORDER => some (orderClause expr begin)
  | .SKIP => some (skipClause expr begin)
  | .LIMIT => some (limitClause expr begin)
  | .CALL => some (callClause expr begin)
  | _ => none

/-- A clause, if one starts here. -/
def clause : Parser (Option Clause) := do
  let t ← current
  match t.kind with
  | .keyword word =>
    match clauseBehind expr word t.span.start with
    | some rest =>
      advance
      return some (← rest)
    | none => return none
  | _ => return none

end Cypher.Grammar
