import Cypher.Text.Dump
import Cypher.Tree.Query

/-!
# The tree in full

The dump of a query shows every node of its tree with its span. It tells
apart what the canonical text does not: the spans, the kind of a literal,
and a call without an argument list from one with an empty list.
-/

namespace Cypher

open Text (Dump)
open Text.Dump (word record group list quoted number boolean option)

def Span.dump (s : Span) : Dump :=
  word (toString s.start ++ ".." ++ toString s.stop)

/-- A list of names. -/
def dumpNames (names : List String) : Dump := list (names.map quoted)

/-- A name that may be absent. -/
def dumpName? (name : Option String) : Dump := option (name.map quoted)

/-! ## Operators and literals -/

/-- The group an infix operator is shown in, and its own name where the
group has more than one operator. -/
def InfixOperator.dumpNames : InfixOperator → String × Option String
  | .or => ("Logical", some "Or")
  | .xor => ("Logical", some "Xor")
  | .and => ("Logical", some "And")
  | .eq => ("Comparison", some "Eq")
  | .notEq => ("Comparison", some "NotEq")
  | .lt => ("Comparison", some "Lt")
  | .ltEq => ("Comparison", some "LtEq")
  | .gt => ("Comparison", some "Gt")
  | .gtEq => ("Comparison", some "GtEq")
  | .membership => ("In", none)
  | .startsWith => ("StringPredicate", some "StartsWith")
  | .endsWith => ("StringPredicate", some "EndsWith")
  | .contains => ("StringPredicate", some "Contains")
  | .add => ("Binary", some "Add")
  | .subtract => ("Binary", some "Subtract")
  | .multiply => ("Binary", some "Multiply")
  | .divide => ("Binary", some "Divide")
  | .modulo => ("Binary", some "Modulo")
  | .power => ("Binary", some "Power")

def PrefixOperator.dumpNames : PrefixOperator → String × Option String
  | .distinct => ("Distinct", none)
  | .not => ("Unary", some "Not")
  | .negate => ("Unary", some "Negate")

def Literal.dump : Literal → Dump
  | .integer digits => group "Integer" [quoted digits]
  | .float digits => group "Float" [quoted digits]
  | .string value => group "String" [quoted value]
  | .boolean value => group "Boolean" [.boolean value]
  | .null => word "Null"

def Direction.dump : Direction → Dump
  | .outgoing => word "Outgoing"
  | .incoming => word "Incoming"
  | .undirected => word "Undirected"

def HopRange.dump (r : HopRange) : Dump :=
  record "VariableLength"
    [("min", option (r.min.map number)), ("max", option (r.max.map number))]

/-! ## Expressions and patterns -/

mutual

def Expression.dump : Expression → Dump
  | .literal value span => group "Literal" [value.dump, span.dump]
  | .variable name span => group "Variable" [quoted name, span.dump]
  | .parameter name span => group "Parameter" [quoted name, span.dump]
  | .property target key span => group "Property" [target.dump, quoted key, span.dump]
  | .index target position span =>
    group "Index" [target.dump, position.dump, span.dump]
  | .slice target lower upper span =>
    group "Slice" [target.dump, dumpOption lower, dumpOption upper, span.dump]
  | .list items span => group "List" [list (dumpList items), span.dump]
  | .listComprehension name source filter projection span =>
    group "ListComprehension" [record "ListComprehension"
      [("variable", quoted name), ("source", source.dump),
       ("filter", dumpOption filter), ("projection", dumpOption projection),
       ("span", span.dump)]]
  | .patternComprehension pattern filter projection span =>
    group "PatternComprehension" [record "PatternComprehension"
      [("pattern", pattern.dump), ("filter", dumpOption filter),
       ("projection", projection.dump), ("span", span.dump)]]
  | .patternPredicate pattern => group "PatternPredicate" [pattern.dump]
  | .map entries span => group "Map" [list (dumpEntries entries), span.dump]
  | .mapProjection name selectors span =>
    group "MapProjection" [record "MapProjection"
      [("variable", quoted name), ("items", list (dumpSelectors selectors)),
       ("span", span.dump)]]
  | .call name arguments span =>
    group "FunctionCall" [record "FunctionCall"
      [("name", dumpNames name), ("arguments", list (dumpList arguments)),
       ("span", span.dump)]]
  | .case operand branches otherwise span =>
    group "Case" [record "CaseExpression"
      [("operand", dumpOption operand), ("branches", list (dumpBranches branches)),
       ("default", dumpOption otherwise), ("span", span.dump)]]
  | .prefixed op operand span =>
    group op.dumpNames.1
      ((op.dumpNames.2.map word).toList ++ [operand.dump, span.dump])
  | .infixed op left right span =>
    group op.dumpNames.1
      ((op.dumpNames.2.map word).toList ++ [left.dump, right.dump, span.dump])
  | .nullCheck negated operand span =>
    group "IsNull" [operand.dump, boolean negated, span.dump]
  | .labelCheck target labels span =>
    group "LabelCheck" [target.dump, dumpNames labels, span.dump]
  | .star span => group "Star" [span.dump]
  | .hole span => group "Error" [span.dump]

def dumpOption : Option Expression → Dump
  | none => option none
  | some e => option (some e.dump)

def dumpList : List Expression → List Dump
  | [] => []
  | e :: es => e.dump :: dumpList es

def MapEntry.dump : MapEntry → Dump
  | ⟨key, value, span⟩ =>
    record "MapEntry"
      [("key", quoted key), ("value", value.dump), ("span", span.dump)]

def dumpEntries : List MapEntry → List Dump
  | [] => []
  | e :: es => e.dump :: dumpEntries es

def MapSelector.dump : MapSelector → Dump
  | .property key span => group "Property" [quoted key, span.dump]
  | .everything span => group "AllProperties" [span.dump]
  | .entry entry => group "Entry" [entry.dump]
  | .variable name span => group "Variable" [quoted name, span.dump]

def dumpSelectors : List MapSelector → List Dump
  | [] => []
  | s :: ss => s.dump :: dumpSelectors ss

def CaseBranch.dump : CaseBranch → Dump
  | ⟨condition, result, span⟩ =>
    record "CaseBranch"
      [("when", condition.dump), ("then", result.dump), ("span", span.dump)]

def dumpBranches : List CaseBranch → List Dump
  | [] => []
  | b :: bs => b.dump :: dumpBranches bs

def Properties.dump : Properties → Dump
  | .map entries span => group "Map" [list (dumpEntries entries), span.dump]
  | .parameter name span => group "Parameter" [quoted name, span.dump]

def dumpProperties : Option Properties → Dump
  | none => option none
  | some p => option (some p.dump)

def NodePattern.dump : NodePattern → Dump
  | ⟨name, labels, properties, span⟩ =>
    record "NodePattern"
      [("variable", dumpName? name), ("labels", dumpNames labels),
       ("properties", dumpProperties properties), ("span", span.dump)]

def RelationshipPattern.dump : RelationshipPattern → Dump
  | ⟨direction, name, types, hops, properties, span⟩ =>
    record "RelationshipPattern"
      [("direction", direction.dump), ("variable", dumpName? name),
       ("types", dumpNames types), ("length", option (hops.map HopRange.dump)),
       ("properties", dumpProperties properties), ("span", span.dump)]

def Link.dump : Link → Dump
  | ⟨relationship, node⟩ =>
    record "PatternLink" [("relationship", relationship.dump), ("node", node.dump)]

def dumpLinks : List Link → List Dump
  | [] => []
  | l :: ls => l.dump :: dumpLinks ls

def Pattern.dump : Pattern → Dump
  | ⟨name, start, chain, span⟩ =>
    record "Pattern"
      [("alias", dumpName? name), ("start", start.dump),
       ("chain", list (dumpLinks chain)), ("span", span.dump)]

end

/-! ## Clauses -/

def PropertyPath.dump (p : PropertyPath) : Dump :=
  record "PropertyPath"
    [("variable", quoted p.name), ("key", quoted p.key), ("span", p.span.dump)]

def SetItem.dump : SetItem → Dump
  | .property target how value span =>
    record (match how with | .replace => "Property" | .extend => "MergeProperty")
      [("target", target.dump), ("value", value.dump), ("span", span.dump)]
  | .variable name how value span =>
    record (match how with | .replace => "Variable" | .extend => "MergeVariable")
      [("variable", quoted name), ("value", value.dump), ("span", span.dump)]
  | .labels name names span =>
    record "Labels"
      [("variable", quoted name), ("labels", dumpNames names), ("span", span.dump)]

def RemoveItem.dump : RemoveItem → Dump
  | .property target => group "Property" [target.dump]
  | .labels name names span =>
    record "Labels"
      [("variable", quoted name), ("labels", dumpNames names), ("span", span.dump)]

def MergeAction.dump (a : MergeAction) : Dump :=
  record "MergeAction"
    [("trigger", word (match a.trigger with
        | .onCreate => "OnCreate"
        | .onMatch => "OnMatch")),
     ("items", list (a.items.map SetItem.dump)), ("span", a.span.dump)]

def ProjectionItem.dump : ProjectionItem → Dump
  | .everything span => group "Wildcard" [span.dump]
  | .expression value name span =>
    record "Expression"
      [("expression", value.dump), ("alias", dumpName? name), ("span", span.dump)]

def Projection.dump (p : Projection) : Dump :=
  record "Projection"
    [("distinct", boolean p.distinct),
     ("items", list (p.items.map ProjectionItem.dump)), ("span", p.span.dump)]

def SortItem.dump (i : SortItem) : Dump :=
  record "SortItem"
    [("expression", i.key.dump),
     ("direction", word (match i.direction with
        | .ascending => "Ascending"
        | .descending => "Descending")),
     ("span", i.span.dump)]

def YieldItem.dump (i : YieldItem) : Dump :=
  record "YieldItem"
    [("name", quoted i.field), ("alias", dumpName? i.name), ("span", i.span.dump)]

def MatchKind.dump : MatchKind → Dump
  | .regular => word "Regular"
  | .optional => word "Optional"
  | .mandatory => word "Mandatory"

/-- The patterns of a clause. -/
def dumpPatterns (patterns : List Pattern) : Dump :=
  list (patterns.map Pattern.dump)

def Clause.dump : Clause → Dump
  | .matchPatterns kind patterns filter span =>
    group "Match" [record "MatchClause"
      [("kind", kind.dump), ("patterns", dumpPatterns patterns),
       ("where_clause", dumpOption filter), ("span", span.dump)]]
  | .create patterns span =>
    group "Create" [record "CreateClause"
      [("patterns", dumpPatterns patterns), ("span", span.dump)]]
  | .merge patterns actions span =>
    group "Merge" [record "MergeClause"
      [("patterns", dumpPatterns patterns),
       ("actions", list (actions.map MergeAction.dump)), ("span", span.dump)]]
  | .set items span =>
    group "Set" [record "SetClause"
      [("items", list (items.map SetItem.dump)), ("span", span.dump)]]
  | .delete detach targets span =>
    group "Delete" [record "DeleteClause"
      [("detach", boolean detach), ("expressions", list (dumpList targets)),
       ("span", span.dump)]]
  | .remove items span =>
    group "Remove" [record "RemoveClause"
      [("items", list (items.map RemoveItem.dump)), ("span", span.dump)]]
  | .withProjection projection filter span =>
    group "With" [record "WithClause"
      [("projection", projection.dump), ("where_clause", dumpOption filter),
       ("span", span.dump)]]
  | .unwind source name span =>
    group "Unwind" [record "UnwindClause"
      [("expression", source.dump), ("alias", quoted name), ("span", span.dump)]]
  | .returnProjection projection span =>
    group "Return" [record "ReturnClause"
      [("projection", projection.dump), ("span", span.dump)]]
  | .orderBy items span =>
    group "OrderBy" [record "OrderByClause"
      [("items", list (items.map SortItem.dump)), ("span", span.dump)]]
  | .skip count span => group "Skip" [count.dump, span.dump]
  | .limit count span => group "Limit" [count.dump, span.dump]
  | .call procedure arguments fields filter span =>
    group "Call" [record "CallClause"
      [("procedure", dumpNames procedure),
       ("arguments", option (arguments.map fun es => list (dumpList es))),
       ("yield_items", option (fields.map fun fs => list (fs.map YieldItem.dump))),
       ("where_clause", dumpOption filter), ("span", span.dump)]]

/-! ## Queries -/

def SingleQuery.dump (q : SingleQuery) : Dump :=
  record "SingleQuery"
    [("clauses", list (q.clauses.map Clause.dump)), ("span", q.span.dump)]

def QueryBody.dump : QueryBody → Dump
  | .single query => group "Single" [query.dump]
  | .union all left right span =>
    record "Union"
      [("all", boolean all), ("left", left.dump), ("right", right.dump),
       ("span", span.dump)]

def Query.dump (q : Query) : Dump :=
  record "Query"
    [("version", dumpName? q.version), ("body", q.body.dump), ("span", q.span.dump)]

end Cypher
