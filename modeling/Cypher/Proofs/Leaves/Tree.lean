import Cypher.Tree.Query

/-!
# The leaves of a tree

Walked from left to right, a tree shows the names and the values that were
written: every name that a query chose, every number, string and constant.
The operators and the words between them are not among them, and neither are
the bounds on the hops of a relationship, which a tree keeps as numbers and no
longer as they were written.
-/

namespace Cypher

/-- A name or a value, as a tree holds it. -/
inductive Leaf
  | name (name : String)
  | parameter (name : String)
  | number (digits : String)
  | string (value : String)
  | boolean (value : Bool)
  | null
  deriving DecidableEq

def Literal.leaf : Literal → Leaf
  | .integer digits | .float digits => .number digits
  | .string value => .string value
  | .boolean value => .boolean value
  | .null => .null

/-- The names in a row, each a leaf. -/
def leavesOfNames (names : List String) : List Leaf := names.map .name

/-- The name as a leaf, if there is one. -/
def leavesOfName (name : Option String) : List Leaf := leavesOfNames name.toList

mutual

/-- The leaves of an expression, in the order in which they are written. -/
def Expression.leaves : Expression → List Leaf
  | .literal value _ => [value.leaf]
  | .variable name _ => [.name name]
  | .parameter name _ => [.parameter name]
  | .property target key _ => target.leaves ++ [.name key]
  | .index target position _ => target.leaves ++ position.leaves
  | .slice target lower upper _ =>
    target.leaves ++ (leavesOfOption lower ++ leavesOfOption upper)
  | .list items _ => leavesOfList items
  | .listComprehension name source filter projection _ =>
    .name name :: (source.leaves ++ (leavesOfOption filter ++ leavesOfOption projection))
  | .patternComprehension pattern filter projection _ =>
    pattern.leaves ++ (leavesOfOption filter ++ projection.leaves)
  | .patternPredicate pattern => pattern.leaves
  | .map entries _ => leavesOfEntries entries
  | .mapProjection name selectors _ => .name name :: leavesOfSelectors selectors
  | .call name arguments _ => leavesOfNames name ++ leavesOfList arguments
  | .case operand branches otherwise _ =>
    leavesOfOption operand ++ (leavesOfBranches branches ++ leavesOfOption otherwise)
  | .prefixed _ operand _ => operand.leaves
  | .infixed _ left right _ => left.leaves ++ right.leaves
  | .nullCheck _ operand _ => operand.leaves
  | .labelCheck target labels _ => target.leaves ++ leavesOfNames labels
  | .star _ | .hole _ => []

def leavesOfOption : Option Expression → List Leaf
  | none => []
  | some e => e.leaves

def leavesOfList : List Expression → List Leaf
  | [] => []
  | e :: es => e.leaves ++ leavesOfList es

def MapEntry.leaves : MapEntry → List Leaf
  | ⟨key, value, _⟩ => .name key :: value.leaves

def leavesOfEntries : List MapEntry → List Leaf
  | [] => []
  | e :: es => e.leaves ++ leavesOfEntries es

def MapSelector.leaves : MapSelector → List Leaf
  | .property key _ => [.name key]
  | .everything _ => []
  | .entry entry => entry.leaves
  | .variable name _ => [.name name]

def leavesOfSelectors : List MapSelector → List Leaf
  | [] => []
  | s :: ss => s.leaves ++ leavesOfSelectors ss

def CaseBranch.leaves : CaseBranch → List Leaf
  | ⟨condition, result, _⟩ => condition.leaves ++ result.leaves

def leavesOfBranches : List CaseBranch → List Leaf
  | [] => []
  | b :: bs => b.leaves ++ leavesOfBranches bs

def Properties.leaves : Properties → List Leaf
  | .map entries _ => leavesOfEntries entries
  | .parameter name _ => [.parameter name]

def leavesOfProperties : Option Properties → List Leaf
  | none => []
  | some p => p.leaves

def NodePattern.leaves : NodePattern → List Leaf
  | ⟨name, labels, properties, _⟩ =>
    leavesOfName name ++ (leavesOfNames labels ++ leavesOfProperties properties)

/-- The bounds on the hops are no leaves. -/
def RelationshipPattern.leaves : RelationshipPattern → List Leaf
  | ⟨_, name, types, _, properties, _⟩ =>
    leavesOfName name ++ (leavesOfNames types ++ leavesOfProperties properties)

def Link.leaves : Link → List Leaf
  | ⟨relationship, node⟩ => relationship.leaves ++ node.leaves

def leavesOfLinks : List Link → List Leaf
  | [] => []
  | l :: ls => l.leaves ++ leavesOfLinks ls

def Pattern.leaves : Pattern → List Leaf
  | ⟨name, start, chain, _⟩ => leavesOfName name ++ (start.leaves ++ leavesOfLinks chain)

end

/-! ## Clauses and queries -/

def PropertyPath.leaves (p : PropertyPath) : List Leaf := [.name p.name, .name p.key]

def SetItem.leaves : SetItem → List Leaf
  | .property target _ value _ => target.leaves ++ value.leaves
  | .variable name _ value _ => .name name :: value.leaves
  | .labels name names _ => .name name :: leavesOfNames names

def RemoveItem.leaves : RemoveItem → List Leaf
  | .property target => target.leaves
  | .labels name names _ => .name name :: leavesOfNames names

def MergeAction.leaves (a : MergeAction) : List Leaf := a.items.flatMap SetItem.leaves

def ProjectionItem.leaves : ProjectionItem → List Leaf
  | .everything _ => []
  | .expression value name _ => value.leaves ++ leavesOfName name

def Projection.leaves (p : Projection) : List Leaf := p.items.flatMap ProjectionItem.leaves

def SortItem.leaves (i : SortItem) : List Leaf := i.key.leaves

def YieldItem.leaves (i : YieldItem) : List Leaf := .name i.field :: leavesOfName i.name

def Clause.leaves : Clause → List Leaf
  | .matchPatterns _ patterns filter _ =>
    patterns.flatMap Pattern.leaves ++ leavesOfOption filter
  | .create patterns _ => patterns.flatMap Pattern.leaves
  | .merge patterns actions _ =>
    patterns.flatMap Pattern.leaves ++ actions.flatMap MergeAction.leaves
  | .set items _ => items.flatMap SetItem.leaves
  | .delete _ targets _ => targets.flatMap Expression.leaves
  | .remove items _ => items.flatMap RemoveItem.leaves
  | .withProjection projection filter _ => projection.leaves ++ leavesOfOption filter
  | .unwind source name _ => source.leaves ++ [.name name]
  | .returnProjection projection _ => projection.leaves
  | .orderBy items _ => items.flatMap SortItem.leaves
  | .skip count _ | .limit count _ => count.leaves
  | .call procedure arguments fields filter _ =>
    leavesOfNames procedure ++ ((arguments.getD []).flatMap Expression.leaves
      ++ ((fields.getD []).flatMap YieldItem.leaves ++ leavesOfOption filter))

def SingleQuery.leaves (q : SingleQuery) : List Leaf := q.clauses.flatMap Clause.leaves

def QueryBody.leaves : QueryBody → List Leaf
  | .single query => query.leaves
  | .union _ left right _ => left.leaves ++ right.leaves

/-- The leaves of a query, in the order in which they are written. The number
in its header is one. -/
def Query.leaves (q : Query) : List Leaf := q.version.toList.map .number ++ q.body.leaves

/-! ## Companions -/

theorem leavesOfOption_eq (e : Option Expression) :
    leavesOfOption e = e.toList.flatMap Expression.leaves := by
  cases e with
  | none => rfl
  | some e => exact (List.append_nil _).symm

theorem leavesOfList_eq (es : List Expression) :
    leavesOfList es = es.flatMap Expression.leaves := by
  induction es with
  | nil => rfl
  | cons e es ih => rw [leavesOfList, ih, List.flatMap_cons]

theorem leavesOfEntries_eq (es : List MapEntry) :
    leavesOfEntries es = es.flatMap MapEntry.leaves := by
  induction es with
  | nil => rfl
  | cons e es ih => rw [leavesOfEntries, ih, List.flatMap_cons]

theorem leavesOfSelectors_eq (ss : List MapSelector) :
    leavesOfSelectors ss = ss.flatMap MapSelector.leaves := by
  induction ss with
  | nil => rfl
  | cons s ss ih => rw [leavesOfSelectors, ih, List.flatMap_cons]

theorem leavesOfBranches_eq (bs : List CaseBranch) :
    leavesOfBranches bs = bs.flatMap CaseBranch.leaves := by
  induction bs with
  | nil => rfl
  | cons b bs ih => rw [leavesOfBranches, ih, List.flatMap_cons]

end Cypher
