import Cypher.Tree.Expression

/-!
# Queries and clauses

A query is one or more single queries joined by `UNION`; a single query is
a run of clauses, kept in the order in which they are written. Which
clauses may follow which is not a matter of the tree.
-/

namespace Cypher

/-! ## Parts of clauses -/

/-- What a `MATCH` does when nothing matches. -/
inductive MatchKind
  | regular | optional | mandatory
  deriving DecidableEq

/-- When the action of a `MERGE` runs. -/
inductive MergeTrigger
  | onCreate | onMatch
  deriving DecidableEq

/-- Whether an assignment replaces what was there (`=`) or adds to it
(`+=`). -/
inductive Assignment
  | replace | extend
  deriving DecidableEq

/-- The order of a sort. -/
inductive SortDirection
  | ascending | descending
  deriving DecidableEq

/-- A property `name.key`, as a target of `SET` and `REMOVE`. -/
structure PropertyPath where
  name : String
  key : String
  span : Span
  deriving DecidableEq

/-- A change made by `SET`. -/
inductive SetItem
  | property (target : PropertyPath) (how : Assignment) (value : Expression) (span : Span)
  | variable (name : String) (how : Assignment) (value : Expression) (span : Span)
  | labels (name : String) (labels : List String) (span : Span)

/-- What `REMOVE` takes away. -/
inductive RemoveItem
  | property (target : PropertyPath)
  | labels (name : String) (labels : List String) (span : Span)

/-- The items of `ON CREATE SET` or `ON MATCH SET`. -/
structure MergeAction where
  trigger : MergeTrigger
  items : List SetItem
  span : Span

/-- An item of a projection: everything in scope, or an expression. -/
inductive ProjectionItem
  | everything (span : Span)
  /-- The name is the one given behind `AS`. -/
  | expression (value : Expression) (name : Option String) (span : Span)

/-- What `WITH` and `RETURN` hand on. -/
structure Projection where
  distinct : Bool
  items : List ProjectionItem
  span : Span

/-- A sort key with its direction. -/
structure SortItem where
  key : Expression
  direction : SortDirection
  span : Span

/-- A field that a procedure answers, under another name if one is given
behind `AS`. -/
structure YieldItem where
  field : String
  name : Option String
  span : Span
  deriving DecidableEq

/-! ## Clauses and queries -/

/-- A clause with its span. -/
inductive Clause
  | matchPatterns (kind : MatchKind) (patterns : List Pattern)
      (filter : Option Expression) (span : Span)
  | create (patterns : List Pattern) (span : Span)
  | merge (patterns : List Pattern) (actions : List MergeAction) (span : Span)
  | set (items : List SetItem) (span : Span)
  | delete (detach : Bool) (targets : List Expression) (span : Span)
  | remove (items : List RemoveItem) (span : Span)
  | withProjection (projection : Projection) (filter : Option Expression) (span : Span)
  | unwind (source : Expression) (name : String) (span : Span)
  | returnProjection (projection : Projection) (span : Span)
  | orderBy (items : List SortItem) (span : Span)
  | skip (count : Expression) (span : Span)
  | limit (count : Expression) (span : Span)
  /-- A call without parentheses has no argument list at all, which is not
  the same as an empty one. -/
  | call (procedure : List String) (arguments : Option (List Expression))
      (fields : Option (List YieldItem)) (filter : Option Expression) (span : Span)

/-- A run of clauses, in the order in which they are written. -/
structure SingleQuery where
  clauses : List Clause
  span : Span

/-- Unions group to the left: the right side is always a single query. -/
inductive QueryBody
  | single (query : SingleQuery)
  | union (all : Bool) (left : QueryBody) (right : SingleQuery) (span : Span)

/-- A whole query. -/
structure Query where
  /-- The number in a leading `CYPHER` header, as written. -/
  version : Option String
  body : QueryBody
  span : Span

/-! ## Views -/

/-- The expression in a change, if it has one. -/
def SetItem.value? : SetItem → Option Expression
  | .property _ _ value _ | .variable _ _ value _ => some value
  | .labels .. => none

/-- The expression in an item, if it has one. -/
def ProjectionItem.value? : ProjectionItem → Option Expression
  | .expression value _ _ => some value
  | .everything _ => none

/-- The expressions in a projection. -/
def Projection.values (p : Projection) : List Expression :=
  p.items.filterMap ProjectionItem.value?

namespace Clause

def span : Clause → Span
  | .matchPatterns _ _ _ s | .create _ s | .merge _ _ s | .set _ s | .delete _ _ s
  | .remove _ s | .withProjection _ _ s | .unwind _ _ s | .returnProjection _ s
  | .orderBy _ s | .skip _ s | .limit _ s | .call _ _ _ _ s => s

/-- The patterns that a clause matches or writes. -/
def patterns : Clause → List Pattern
  | .matchPatterns _ ps _ _ | .create ps _ | .merge ps _ _ => ps
  | _ => []

/-- The expressions that a clause itself holds, in order, those inside its
patterns left out. -/
def expressions : Clause → List Expression
  | .matchPatterns _ _ filter _ => filter.toList
  | .create .. | .remove .. => []
  | .merge _ actions _ => actions.flatMap fun a => a.items.filterMap SetItem.value?
  | .set items _ => items.filterMap SetItem.value?
  | .delete _ targets _ => targets
  | .withProjection projection filter _ => projection.values ++ filter.toList
  | .unwind source _ _ => [source]
  | .returnProjection projection _ => projection.values
  | .orderBy items _ => items.map SortItem.key
  | .skip count _ | .limit count _ => [count]
  | .call _ arguments _ filter _ => arguments.getD [] ++ filter.toList

end Clause

namespace QueryBody

def span : QueryBody → Span
  | .single query => query.span
  | .union _ _ _ s => s

/-- The single queries of a union, in the order in which they are written. -/
def parts : QueryBody → List SingleQuery
  | .single query => [query]
  | .union _ left right _ => left.parts ++ [right]

end QueryBody

end Cypher
