import Cypher.Glyph
import Cypher.Tree.Query

/-!
# The canonical layout of a tree

Each tree has one canonical text. Keywords are in upper case, separators
are single spaces, and every operator node stands in parentheses of its
own, so that the text shows the nesting and needs no precedence to be
read. Two queries that differ in layout and keyword case only have the
same canonical text.

The layout is a list of glyphs; `text` spells it. Spans play no part.
-/

namespace Cypher

open Glyph (joined separated dotted after named ofInfix)

/-! ## Expressions and patterns -/

def Literal.glyph : Literal → Glyph
  | .integer digits | .float digits => .number digits
  | .string value => .string value
  | .boolean true => .keyword .TRUE
  | .boolean false => .keyword .FALSE
  | .null => .keyword .NULL

/-- A star and the bounds behind it. Equal bounds are written once. -/
def HopRange.glyphs (r : HopRange) : List Glyph :=
  let bound (n : Nat) : Glyph := .number (toString n)
  .operator .star :: match r.min, r.max with
    | none, none => []
    | some low, some high =>
      if low = high then [bound low]
      else [bound low, .operator .dotDot, bound high]
    | some low, none => [bound low, .operator .dotDot]
    | none, some high => [.operator .dotDot, bound high]

/-- Type alternatives: a colon before the first and a bar before each
other one. -/
def typeGlyphs (types : List String) : List Glyph :=
  match types with
  | [] => []
  | first :: others =>
    [.mark .colon, .symbol first]
      ++ others.flatMap fun t => [.operator .pipe, .symbol t]

/-- The two ends of a relationship. -/
def Direction.ends : Direction → List Glyph × List Glyph
  | .outgoing => ([.operator .minus], [.operator .arrow])
  | .incoming => ([.operator .lt, .operator .minus], [.operator .minus])
  | .undirected => ([.operator .minus], [.operator .minus])

/-- A run in brackets, or nothing for an empty run. -/
def bracketed (run : List Glyph) : List Glyph :=
  if run.isEmpty then [] else .mark .lbracket :: run ++ [.mark .rbracket]

/-- Two runs with a space between them if both hold something. -/
def spaced (left right : List Glyph) : List Glyph :=
  if left.isEmpty ∨ right.isEmpty then left ++ right else left ++ .space :: right

mutual

def Expression.glyphs : Expression → List Glyph
  | .literal value _ => [value.glyph]
  | .variable name _ => [.name name]
  | .parameter name _ => [.parameter name]
  | .property target key _ => target.glyphs ++ [.mark .dot, .symbol key]
  | .index target position _ =>
    target.glyphs ++ .mark .lbracket :: position.glyphs ++ [.mark .rbracket]
  | .slice target lower upper _ =>
    target.glyphs ++ .mark .lbracket :: glyphsOption lower
      ++ .operator .dotDot :: glyphsOption upper ++ [.mark .rbracket]
  | .list items _ =>
    .mark .lbracket :: separated (glyphsList items) ++ [.mark .rbracket]
  | .listComprehension name source filter projection _ =>
    .mark .lbracket :: .name name :: after .IN source.glyphs
      ++ glyphsWhere filter ++ glyphsBar projection ++ [.mark .rbracket]
  | .patternComprehension pattern filter projection _ =>
    .mark .lbracket :: pattern.glyphs ++ glyphsWhere filter
      ++ [.space, .operator .pipe, .space] ++ projection.glyphs ++ [.mark .rbracket]
  | .patternPredicate pattern => pattern.glyphs
  | .map entries _ =>
    .mark .lbrace :: separated (glyphsEntries entries) ++ [.mark .rbrace]
  | .mapProjection name selectors _ =>
    .name name :: .space :: .mark .lbrace :: separated (glyphsSelectors selectors)
      ++ [.mark .rbrace]
  | .call name arguments _ =>
    dotted name ++ .mark .lparen :: separated (glyphsList arguments)
      ++ [.mark .rparen]
  | .case operand branches otherwise _ =>
    .keyword .CASE :: glyphsSpaced operand ++ glyphsBranches branches
      ++ glyphsElse otherwise ++ [.space, .keyword .END]
  | .prefixed .negate operand _ => .operator .minus :: operand.glyphs
  | .prefixed .not operand _ =>
    .mark .lparen :: .keyword .NOT :: .space :: operand.glyphs ++ [.mark .rparen]
  | .prefixed .distinct operand _ => .keyword .DISTINCT :: .space :: operand.glyphs
  | .infixed op left right _ =>
    .mark .lparen :: left.glyphs ++ .space :: ofInfix op :: .space :: right.glyphs
      ++ [.mark .rparen]
  | .nullCheck negated operand _ =>
    .mark .lparen :: operand.glyphs
      ++ [.space, .operator (if negated then .isNotNull else .isNull), .mark .rparen]
  | .labelCheck target labels _ => target.glyphs ++ Glyph.labels labels
  | .star _ => [.operator .star]
  | .hole _ => [.hole]

def glyphsOption : Option Expression → List Glyph
  | none => []
  | some e => e.glyphs

def glyphsWhere : Option Expression → List Glyph
  | none => []
  | some e => after .WHERE e.glyphs

def glyphsBar : Option Expression → List Glyph
  | none => []
  | some e => .space :: .operator .pipe :: .space :: e.glyphs

def glyphsSpaced : Option Expression → List Glyph
  | none => []
  | some e => .space :: e.glyphs

def glyphsElse : Option Expression → List Glyph
  | none => []
  | some e => after .ELSE e.glyphs

def glyphsList : List Expression → List (List Glyph)
  | [] => []
  | e :: es => e.glyphs :: glyphsList es

def MapEntry.glyphs : MapEntry → List Glyph
  | ⟨key, value, _⟩ => .symbol key :: .mark .colon :: .space :: value.glyphs

def glyphsEntries : List MapEntry → List (List Glyph)
  | [] => []
  | e :: es => e.glyphs :: glyphsEntries es

def MapSelector.glyphs : MapSelector → List Glyph
  | .property key _ => [.mark .dot, .symbol key]
  | .everything _ => [.mark .dot, .operator .star]
  | .entry entry => entry.glyphs
  | .variable name _ => [.name name]

def glyphsSelectors : List MapSelector → List (List Glyph)
  | [] => []
  | s :: ss => s.glyphs :: glyphsSelectors ss

def CaseBranch.glyphs : CaseBranch → List Glyph
  | ⟨condition, result, _⟩ =>
    after .WHEN condition.glyphs ++ after .THEN result.glyphs

def glyphsBranches : List CaseBranch → List Glyph
  | [] => []
  | b :: bs => b.glyphs ++ glyphsBranches bs

def Properties.glyphs : Properties → List Glyph
  | .map entries _ =>
    .mark .lbrace :: separated (glyphsEntries entries) ++ [.mark .rbrace]
  | .parameter name _ => [.parameter name]

def glyphsProperties : Option Properties → List Glyph
  | none => []
  | some p => p.glyphs

def NodePattern.glyphs : NodePattern → List Glyph
  | ⟨name, labels, properties, _⟩ =>
    .mark .lparen
      :: spaced (name.toList.map Glyph.name ++ Glyph.labels labels)
        (glyphsProperties properties)
      ++ [.mark .rparen]

def RelationshipPattern.glyphs : RelationshipPattern → List Glyph
  | ⟨direction, name, types, hops, properties, _⟩ =>
    direction.ends.1
      ++ bracketed (spaced
        (name.toList.map Glyph.name ++ typeGlyphs types
          ++ hops.toList.flatMap HopRange.glyphs)
        (glyphsProperties properties))
      ++ direction.ends.2

def Link.glyphs : Link → List Glyph
  | ⟨relationship, node⟩ => relationship.glyphs ++ node.glyphs

def glyphsLinks : List Link → List Glyph
  | [] => []
  | l :: ls => l.glyphs ++ glyphsLinks ls

def Pattern.glyphs : Pattern → List Glyph
  | ⟨none, start, chain, _⟩ => start.glyphs ++ glyphsLinks chain
  | ⟨some name, start, chain, _⟩ =>
    .name name :: .space :: .operator .eq :: .space :: start.glyphs
      ++ glyphsLinks chain

end

/-! ## Clauses -/

def PropertyPath.glyphs (p : PropertyPath) : List Glyph :=
  [.name p.name, .mark .dot, .symbol p.key]

/-- The sign of an assignment with a space on either side. -/
def Assignment.glyphs : Assignment → List Glyph
  | .replace => [.space, .operator .eq, .space]
  | .extend => [.space, .operator .plusEq, .space]

def SetItem.glyphs : SetItem → List Glyph
  | .property target how value _ => target.glyphs ++ how.glyphs ++ value.glyphs
  | .variable name how value _ => .name name :: how.glyphs ++ value.glyphs
  | .labels name names _ => .name name :: Glyph.labels names

def RemoveItem.glyphs : RemoveItem → List Glyph
  | .property target => target.glyphs
  | .labels name names _ => .name name :: Glyph.labels names

def MergeAction.glyphs (a : MergeAction) : List Glyph :=
  let event : Keyword := match a.trigger with
    | .onCreate => .CREATE
    | .onMatch => .MATCH
  after .ON [.keyword event]
    ++ after .SET (separated (a.items.map SetItem.glyphs))

def ProjectionItem.glyphs : ProjectionItem → List Glyph
  | .everything _ => [.operator .star]
  | .expression value name _ => value.glyphs ++ named name

def Projection.glyphs (p : Projection) : List Glyph :=
  (if p.distinct then [.keyword .DISTINCT, .space] else [])
    ++ separated (p.items.map ProjectionItem.glyphs)

/-- A sort key. The ascending order is the usual one and left unsaid. -/
def SortItem.glyphs (i : SortItem) : List Glyph :=
  match i.direction with
  | .ascending => i.key.glyphs
  | .descending => i.key.glyphs ++ [.space, .keyword .DESC]

def YieldItem.glyphs (i : YieldItem) : List Glyph :=
  .name i.field :: named i.name

def MatchKind.glyphs : MatchKind → List Glyph
  | .regular => []
  | .optional => [.keyword .OPTIONAL, .space]
  | .mandatory => [.keyword .MANDATORY, .space]

def Clause.glyphs : Clause → List Glyph
  | .matchPatterns kind patterns filter _ =>
    kind.glyphs ++ .keyword .MATCH :: .space
      :: separated (patterns.map Pattern.glyphs) ++ glyphsWhere filter
  | .create patterns _ =>
    .keyword .CREATE :: .space :: separated (patterns.map Pattern.glyphs)
  | .merge patterns actions _ =>
    .keyword .MERGE :: .space :: separated (patterns.map Pattern.glyphs)
      ++ actions.flatMap MergeAction.glyphs
  | .set items _ => .keyword .SET :: .space :: separated (items.map SetItem.glyphs)
  | .delete detach targets _ =>
    (if detach then [.keyword .DETACH, .space] else [])
      ++ .keyword .DELETE :: .space :: separated (targets.map Expression.glyphs)
  | .remove items _ =>
    .keyword .REMOVE :: .space :: separated (items.map RemoveItem.glyphs)
  | .withProjection projection filter _ =>
    .keyword .WITH :: .space :: projection.glyphs ++ glyphsWhere filter
  | .unwind source name _ =>
    .keyword .UNWIND :: .space :: source.glyphs ++ after .AS [.name name]
  | .returnProjection projection _ => .keyword .RETURN :: .space :: projection.glyphs
  | .orderBy items _ =>
    .keyword .ORDER :: .space :: .keyword .BY :: .space
      :: separated (items.map SortItem.glyphs)
  | .skip count _ => .keyword .SKIP :: .space :: count.glyphs
  | .limit count _ => .keyword .LIMIT :: .space :: count.glyphs
  | .call procedure arguments fields filter _ =>
    .keyword .CALL :: .space :: dotted procedure
      ++ (match arguments with
          | none => []
          | some es =>
            .mark .lparen :: separated (es.map Expression.glyphs) ++ [.mark .rparen])
      ++ (match fields with
          | none => []
          | some fs => after .YIELD (separated (fs.map YieldItem.glyphs)))
      ++ glyphsWhere filter

/-! ## Queries -/

def SingleQuery.glyphs (q : SingleQuery) : List Glyph :=
  joined [.space] (q.clauses.map Clause.glyphs)

def QueryBody.glyphs : QueryBody → List Glyph
  | .single query => query.glyphs
  | .union all left right _ =>
    left.glyphs ++ .space :: .keyword .UNION :: .space
      :: (if all then [.keyword .ALL, .space] else []) ++ right.glyphs

def Query.glyphs (q : Query) : List Glyph :=
  match q.version with
  | none => q.body.glyphs
  | some version =>
    .keyword .CYPHER :: .space :: .number version :: .space :: q.body.glyphs

/-! ## Texts -/

/-- The canonical text of an expression. -/
def Expression.text (e : Expression) : String := Glyph.textOf e.glyphs

/-- The canonical text of a path. -/
def Pattern.text (p : Pattern) : String := Glyph.textOf p.glyphs

/-- The canonical text of a node. -/
def NodePattern.text (n : NodePattern) : String := Glyph.textOf n.glyphs

/-- The canonical text of a relationship. -/
def RelationshipPattern.text (r : RelationshipPattern) : String :=
  Glyph.textOf r.glyphs

/-- The canonical text of a clause. -/
def Clause.text (c : Clause) : String := Glyph.textOf c.glyphs

/-- The canonical text of a single query. -/
def SingleQuery.text (q : SingleQuery) : String := Glyph.textOf q.glyphs

/-- The canonical text of a query. -/
def Query.text (q : Query) : String := Glyph.textOf q.glyphs

end Cypher
