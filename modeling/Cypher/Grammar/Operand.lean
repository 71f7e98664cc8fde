import Cypher.Grammar.Pattern
import Cypher.Grammar.Recovery
import Cypher.Operator.Stacks
import Cypher.Tree.Height

/-!
# Operands

An operand is an ATOM (a literal, a name, a group, a call and so on) with
the suffixes behind it: property access, subscripts and label checks,
which bind tighter than every operator.

The expressions inside an operand are read by a parameter, `expr`, as in
patterns. The height of the operand is kept while it grows, and refused as
soon as it passes the limit.
-/

namespace Cypher.Grammar

variable (config : Config) (expr : Parser Expression)

/-! ## Atoms -/

/-- An atom of one token. -/
def leaf (make : Span → Expression) : Parser Expression := do
  let t ← current
  advance
  return make t.span

/-- The arguments of a call whose name has been read and began at
`begin`. -/
def callArguments (name : List String) (begin : Nat) : Parser Expression := do
  expect (.punctuation .lparen)
  let arguments ← commaSeparatedUntil (.punctuation .rparen) expr
  expect (.punctuation .rparen)
  return .call name arguments (← spanFrom begin)

/-- A call whose name starts with the identifier due here. -/
def call (first : String) (begin : Nat) : Parser Expression := do
  advance
  let others ← many (behind (.punctuation .dot) (symbolicName .function))
  callArguments expr (first :: others) begin

/-- A selector `.key` or `.*`, behind its point. -/
def dotSelector (begin : Nat) : Parser MapSelector := do
  if ← consume (.operator .star) then return .everything (← spanFrom begin)
  else
    let key ← symbolicName .propertyKey
    return .property key (← spanFrom begin)

/-- A variable, which is selected under its own name. -/
def variableSelector : Parser MapSelector := do
  let t ← current
  let name ← variableName .projectionItem
  return .variable name t.span

/-- One item between the braces of a map projection. -/
def mapSelector : Parser MapSelector := do
  let begin ← start
  if ← consume (.punctuation .dot) then dotSelector begin
  else if kindAt (← lookAhead) 1 = some (.punctuation .colon) then
    return .entry (← mapEntry expr)
  else variableSelector

/-- A map projection whose variable has been read and began at `begin`. -/
def mapProjection (name : String) (begin : Nat) : Parser Expression := do
  expect (.punctuation .lbrace)
  let selectors ← commaSeparatedUntil (.punctuation .rbrace) (mapSelector expr)
  expect (.punctuation .rbrace)
  return .mapProjection name selectors (← spanFrom begin)

/-- What starts with an identifier: a call, a map projection or a
variable. -/
def named (name : String) (span : Span) : Parser Expression := do
  if callAhead ((← lookAhead).drop 1) then call expr name span.start
  else
    advance
    let t ← current
    if t.kind = .punctuation .lbrace then mapProjection expr name span.start
    else return .variable name span

/-- A map in braces. -/
def mapLiteral : Parser Expression := do
  let (entries, span) ← mapEntries expr
  return .map entries span

/-- An expression in parentheses, which leave no node. -/
def parenthesized : Parser Expression := do
  expect (.punctuation .lparen)
  let inner ← expr
  expect (.punctuation .rparen)
  return inner

/-- What starts with a parenthesis: a path or an expression. -/
def group (begin : Nat) : Parser Expression := do
  if patternPredicateAhead (← lookAhead) then
    return .patternPredicate (← patternChain expr none begin)
  else parenthesized expr

/-- The condition behind `WHERE`, if it is written. -/
def optionalWhere : Parser (Option Expression) := behind (.keyword .WHERE) expr

/-- A list made from a list:
`'[' name 'IN' expression ['WHERE' expression] ['|' expression] ']'`. -/
def listComprehension (begin : Nat) : Parser Expression := do
  expect (.punctuation .lbracket)
  let name ← variableName .variable
  expect (.keyword .IN)
  let source ← expr
  let filter ← optionalWhere expr
  let projection ← behind (.operator .pipe) expr
  expect (.punctuation .rbracket)
  return .listComprehension name source filter projection (← spanFrom begin)

/-- A list made from the matches of a path:
`'[' pattern ['WHERE' expression] '|' expression ']'`. -/
def patternComprehension (begin : Nat) : Parser Expression := do
  expect (.punctuation .lbracket)
  let path ← pattern expr
  let filter ← optionalWhere expr
  expect (.operator .pipe)
  let projection ← expr
  expect (.punctuation .rbracket)
  return .patternComprehension path filter projection (← spanFrom begin)

/-- A list written out: `'[' [expression (',' expression)*] ']'`. -/
def listLiteral (begin : Nat) : Parser Expression := do
  expect (.punctuation .lbracket)
  let items ← commaSeparatedUntil (.punctuation .rbracket) expr
  expect (.punctuation .rbracket)
  return .list items (← spanFrom begin)

/-- What starts with a bracket: a comprehension or a list. -/
def bracket (begin : Nat) : Parser Expression := do
  let ahead ← lookAhead
  if listComprehensionAhead ahead then listComprehension expr begin
  else if patternComprehensionAhead (ahead.drop 1) then patternComprehension expr begin
  else listLiteral expr begin

/-- A branch of a case analysis, if one starts here. -/
def caseBranch : Parser (Option CaseBranch) := do
  let begin ← start
  if ← consume (.keyword .WHEN) then
    let condition ← expr
    expect (.keyword .THEN)
    let result ← expr
    return some ⟨condition, result, ← spanFrom begin⟩
  else return none

/-- A case analysis, of a subject if something stands before the first `WHEN`.
There is at least one branch. -/
def caseExpression (begin : Nat) : Parser Expression := do
  expect (.keyword .CASE)
  let operand ← unlessDue (.keyword .WHEN) expr
  let branches ← many (caseBranch expr)
  if branches.isEmpty then fail (.expected (.token (.keyword .WHEN)))
  else
    let otherwise ← behind (.keyword .ELSE) expr
    expect (.keyword .END)
    return .case operand branches otherwise (← spanFrom begin)

/-- A call of `EXISTS` with its arguments, under the name `exists`. -/
def existsCall (begin : Nat) : Parser Expression := do
  advance
  callArguments expr ["exists"] begin

/-- An atom. Its first token tells its form, and a token that starts none is
the fault that can be got over. -/
def atom : Parser Expression := do
  let t ← current
  match t.kind with
  | .integer digits => leaf (.literal (.integer digits))
  | .float digits => leaf (.literal (.float digits))
  | .string value => leaf (.literal (.string value))
  | .keyword .TRUE => leaf (.literal (.boolean true))
  | .keyword .FALSE => leaf (.literal (.boolean false))
  | .keyword .NULL => leaf (.literal .null)
  | .parameter name => leaf (.parameter name)
  | .operator .star => leaf .star
  | .punctuation .lparen => group expr t.span.start
  | .punctuation .lbracket => bracket expr t.span.start
  | .punctuation .lbrace => mapLiteral expr
  | .keyword .CASE => caseExpression expr t.span.start
  | .keyword .EXISTS => existsCall expr t.span.start
  | .identifier name => named expr name t.span
  | _ => recoverExpression config

/-! ## Suffixes -/

/-- The operand after a suffix, whose own expressions are `inner` levels
high. -/
def grown (o : Operand) (tree : Expression) (inner : Nat) :
    Parser (ForInStep Operand) := do
  let height := max o.height inner + 1
  checkHeight config height
  return .yield ⟨tree, height⟩

/-- A suffix `'.' name`, at the point. -/
def propertyAccess (o : Operand) : Parser (ForInStep Operand) := do
  advance
  let key ← symbolicName .propertyKey
  let span ← spanFrom o.tree.span.start
  grown config o (.property o.tree key span) 0

/-- A subscript whose position has been read. -/
def indexTail (o : Operand) (position : Expression) : Parser (ForInStep Operand) := do
  expect (.punctuation .rbracket)
  let span ← spanFrom o.tree.span.start
  grown config o (.index o.tree position span) position.height

/-- A slice whose lower bound has been read, if it has one. -/
def sliceTail (o : Operand) (lower : Option Expression) :
    Parser (ForInStep Operand) := do
  expect (.operator .dotDot)
  let upper ← unlessDue (.punctuation .rbracket) expr
  expect (.punctuation .rbracket)
  let span ← spanFrom o.tree.span.start
  grown config o (.slice o.tree lower upper span)
    (max (heightOption lower) (heightOption upper))

/-- A suffix `'[' expression ']'` or `'[' [expression] '..' [expression] ']'`,
at the bracket. -/
def subscript (o : Operand) : Parser (ForInStep Operand) := do
  expect (.punctuation .lbracket)
  let lower ← unlessDue (.operator .dotDot) expr
  let t ← current
  match lower with
  | some position =>
    if t.kind = .operator .dotDot then sliceTail config expr o lower
    else indexTail config o position
  | none => sliceTail config expr o none

/-- A suffix `(':' label)+`, at the first colon. -/
def labelCheck (o : Operand) : Parser (ForInStep Operand) := do
  let labels ← labelList
  let span ← spanFrom o.tree.span.start
  grown config o (.labelCheck o.tree labels span) 0

/-- One suffix, if there is one. A colon is one only before a name. -/
def suffix (o : Operand) : Parser (ForInStep Operand) := do
  let t ← current
  match t.kind with
  | .punctuation .dot => propertyAccess config o
  | .punctuation .lbracket => subscript config expr o
  | .punctuation .colon =>
    if ((← lookAhead)[1]?.bind Token.symbolicName?).isSome then labelCheck config o
    else return .done o
  | _ => return .done o

/-- An atom with the suffixes behind it. -/
def operand : Parser Operand := do
  let tree ← atom config expr
  checkHeight config tree.height
  iterate (suffix config expr) ⟨tree, tree.height⟩

end Cypher.Grammar
