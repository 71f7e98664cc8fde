import Cypher.Operator
import Cypher.Span

/-!
# Expressions and patterns

Expressions and graph patterns hold each other: a pattern's property maps
hold expressions, and an expression may be a pattern or select from one.
So their types are declared together.

Every node carries the span it was read from. Parentheses leave no node:
an expression in parentheses is the expression, with its own span.
Numbers keep their digits as written.
-/

namespace Cypher

/-- A value written out. Numbers keep their digits as written. -/
inductive Literal
  | integer (digits : String)
  | float (digits : String)
  | string (value : String)
  | boolean (value : Bool)
  | null
  deriving DecidableEq

/-- Where a relationship points, read from left to right. -/
inductive Direction
  | outgoing | incoming | undirected
  deriving DecidableEq

/-- How many hops a relationship may take; an absent bound is open. -/
structure HopRange where
  min : Option Nat
  max : Option Nat
  deriving DecidableEq

mutual

/-- An expression with its span. -/
inductive Expression
  | literal (value : Literal) (span : Span)
  | variable (name : String) (span : Span)
  | parameter (name : String) (span : Span)
  | property (target : Expression) (key : String) (span : Span)
  | index (target position : Expression) (span : Span)
  | slice (target : Expression) (lower upper : Option Expression) (span : Span)
  | list (items : List Expression) (span : Span)
  | listComprehension (name : String) (source : Expression)
      (filter projection : Option Expression) (span : Span)
  | patternComprehension (pattern : Pattern) (filter : Option Expression)
      (projection : Expression) (span : Span)
  /-- A path used as a condition: does it exist? -/
  | patternPredicate (pattern : Pattern)
  | map (entries : List MapEntry) (span : Span)
  | mapProjection (name : String) (selectors : List MapSelector) (span : Span)
  | call (name : List String) (arguments : List Expression) (span : Span)
  | case (operand : Option Expression) (branches : List CaseBranch)
      (otherwise : Option Expression) (span : Span)
  | prefixed (op : PrefixOperator) (operand : Expression) (span : Span)
  | infixed (op : InfixOperator) (left right : Expression) (span : Span)
  | nullCheck (negated : Bool) (operand : Expression) (span : Span)
  | labelCheck (target : Expression) (labels : List String) (span : Span)
  /-- The star that stands for everything, as in `count(*)`. -/
  | star (span : Span)
  /-- The place of an operand that could not be read. -/
  | hole (span : Span)

/-- An entry of a map or of the properties of a pattern. -/
structure MapEntry where
  key : String
  value : Expression
  span : Span

/-- What a map projection selects. -/
inductive MapSelector
  | property (key : String) (span : Span)
  | everything (span : Span)
  | entry (entry : MapEntry)
  | variable (name : String) (span : Span)

/-- A branch of a case analysis: the result where the condition holds. -/
structure CaseBranch where
  condition : Expression
  result : Expression
  span : Span

/-- The properties that a node or relationship is asked to have. -/
inductive Properties
  | map (entries : List MapEntry) (span : Span)
  | parameter (name : String) (span : Span)

/-- A node of a path, `(name:Label {properties})`. -/
structure NodePattern where
  name : Option String
  labels : List String
  properties : Option Properties
  span : Span

/-- A relationship of a path, `-[name:TYPE|TYPE*1..3 {properties}]->`. -/
structure RelationshipPattern where
  direction : Direction
  name : Option String
  types : List String
  hops : Option HopRange
  properties : Option Properties
  span : Span

/-- One step of a path: a relationship and the node it leads to. -/
structure Link where
  relationship : RelationshipPattern
  node : NodePattern

/-- A path through the graph, with the name it is bound to, if any. -/
structure Pattern where
  name : Option String
  start : NodePattern
  chain : List Link
  span : Span

end

namespace Expression

/-- The bytes an expression was read from. -/
def span : Expression → Span
  | .literal _ s | .variable _ s | .parameter _ s | .property _ _ s | .index _ _ s
  | .slice _ _ _ s | .list _ s | .listComprehension _ _ _ _ s
  | .patternComprehension _ _ _ s | .map _ s | .mapProjection _ _ s | .call _ _ s
  | .case _ _ _ s | .prefixed _ _ s | .infixed _ _ _ s | .nullCheck _ _ s
  | .labelCheck _ _ s | .star s | .hole s => s
  | .patternPredicate p => p.span

end Expression

namespace Pattern

/-- The nodes of a path, in order. -/
def nodes (p : Pattern) : List NodePattern :=
  p.start :: p.chain.map (·.node)

/-- The relationships of a path, in order. -/
def relationships (p : Pattern) : List RelationshipPattern :=
  p.chain.map (·.relationship)

/-- The number of relationships of a path. -/
def length (p : Pattern) : Nat := p.chain.length

end Pattern

end Cypher
