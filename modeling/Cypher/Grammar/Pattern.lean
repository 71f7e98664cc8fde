import Cypher.Grammar.Lookahead
import Cypher.Grammar.State
import Cypher.Tree.Expression

/-!
# Patterns

    pattern      := [name '='] node (relationship node)*
    node         := '(' [name] (':' label)* [properties] ')'
    relationship := ['<'] '-' ['[' detail ']'] ('-' | '->')
    detail       := [name] [':' type ('|' [':'] type)*] ['*' [hops]] [properties]
    hops         := n | [n] '..' [n]
    properties   := map | parameter

Values in a property map are expressions. Their parser is a parameter of
every production here: a pattern does not know how deep it is nested.
-/

namespace Cypher.Grammar

variable (expr : Parser Expression)

/-! ## Property maps -/

/-- An entry `key ':' expression`. -/
def mapEntry : Parser MapEntry := do
  let begin ← start
  let key ← symbolicName .mapKey
  expect (.punctuation .colon)
  let value ← expr
  return ⟨key, value, ← spanFrom begin⟩

/-- A map in braces, with its span. -/
def mapEntries : Parser (List MapEntry × Span) := do
  let begin ← start
  expect (.punctuation .lbrace)
  let entries ← commaSeparatedUntil (.punctuation .rbrace) (mapEntry expr)
  expect (.punctuation .rbrace)
  return (entries, ← spanFrom begin)

/-- The properties of a node or relationship, if any are written. -/
def properties : Parser (Option Properties) := do
  let t ← current
  match t.kind with
  | .punctuation .lbrace =>
    let (entries, span) ← mapEntries expr
    return some (.map entries span)
  | .parameter name =>
    advance
    return some (.parameter name t.span)
  | _ => return none

/-! ## Nodes -/

/-- The labels of a node, if any are written. -/
def optionalLabels : Parser (List String) := do
  let t ← current
  if t.kind = .punctuation .colon then labelList else return []

/-- A node in its parentheses. -/
def nodePattern : Parser NodePattern := do
  let begin ← start
  expect (.punctuation .lparen)
  let name ← optionalVariable
  let labels ← optionalLabels
  let properties ← properties expr
  expect (.punctuation .rparen)
  return ⟨name, labels, properties, ← spanFrom begin⟩

/-! ## Relationships -/

/-- The number that digits write, leading zeros and all. -/
def decimalValue (digits : String) : Nat :=
  digits.toList.foldl (fun n c => n * 10 + (c.toNat - '0'.toNat)) 0

/-- The number that a bound must stay below, the 32nd power of two. -/
def hopLimit : Nat := 4294967296

/-- A bound on the number of hops, if one is written. -/
def hopBound : Parser (Option Nat) := do
  let t ← current
  match t.kind with
  | .integer digits =>
    if decimalValue digits < hopLimit then
      advance
      return some (decimalValue digits)
    else fail (.boundOutOfRange digits)
  | _ => return none

/-- What follows the star of a relationship. One number alone is both
bounds. -/
def hopRange : Parser HopRange := do
  let min ← hopBound
  if ← consume (.operator .dotDot) then
    let max ← hopBound
    return ⟨min, max⟩
  else return ⟨min, min⟩

/-- A further type alternative, whose colon may be left out. -/
def anotherType : Parser String := do
  let _ ← consume (.punctuation .colon)
  symbolicName .relationshipType

/-- The types of a relationship, if any are written. -/
def relationshipTypes : Parser (List String) := do
  if ← consume (.punctuation .colon) then
    let first ← symbolicName .relationshipType
    let others ← many (behind (.operator .pipe) anotherType)
    return first :: others
  else return []

/-- What stands between the brackets of a relationship. -/
structure Detail where
  name : Option String := none
  types : List String := []
  hops : Option HopRange := none
  properties : Option Properties := none

/-- What stands between the brackets of a relationship; all of it is optional. -/
def detail : Parser Detail := do
  let name ← optionalVariable
  let types ← relationshipTypes
  let hops ← behind (.operator .star) hopRange
  let properties ← properties expr
  return { name, types, hops, properties }

/-- The detail in its brackets, if it is written. -/
def bracketedDetail : Parser Detail := do
  if ← consume (.punctuation .lbracket) then
    let found ← detail expr
    expect (.punctuation .rbracket)
    return found
  else return {}

/-- The far end of a relationship, which tells its direction. A head there
excludes a head at the near end. -/
def farEnd (incoming : Bool) : Parser Direction := do
  let t ← current
  if t.kind = .operator .arrow then
    if incoming then fail (.unexpected .twoArrowheads)
    else
      advance
      return .outgoing
  else
    expect (.operator .minus)
    return if incoming then .incoming else .undirected

/-- A relationship between two nodes, with its heads. -/
def relationshipPattern : Parser RelationshipPattern := do
  let begin ← start
  let incoming ← consume (.operator .lt)
  expect (.operator .minus)
  let found ← bracketedDetail expr
  let direction ← farEnd incoming
  return ⟨direction, found.name, found.types, found.hops, found.properties,
    ← spanFrom begin⟩

/-! ## Paths -/

/-- A relationship and the node it leads to, if a relationship starts
here. -/
def link : Parser (Option Link) := do
  if relationshipAhead (← lookAhead) then
    let relationship ← relationshipPattern expr
    let node ← nodePattern expr
    return some ⟨relationship, node⟩
  else return none

/-- A path whose name, if any, has been read, and which began at `begin`. -/
def patternChain (name : Option String) (begin : Nat) : Parser Pattern := do
  let first ← nodePattern expr
  let chain ← many (link expr)
  return ⟨name, first, chain, ← spanFrom begin⟩

/-- The name of a path with its equals sign, if it has one. -/
def pathName : Parser (Option String) := do
  let ahead ← lookAhead
  match kindAt ahead 0, kindAt ahead 1 with
  | some (.identifier name), some (.operator .eq) =>
    advance
    advance
    return some name
  | _, _ => return none

/-- A path with its name, if it has one. -/
def pattern : Parser Pattern := do
  let begin ← start
  let name ← pathName
  patternChain expr name begin

/-- Paths with commas between them, at least one. -/
def patternList : Parser (List Pattern) := commaSeparated (pattern expr)

end Cypher.Grammar
