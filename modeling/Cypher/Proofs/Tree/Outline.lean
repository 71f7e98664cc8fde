import Cypher.Proofs.Tree.Children

/-!
# The outline of a tree

What a tree says about a text is one thing, and which bytes each node of it
was read from is another. The outline of a tree keeps the second only: every
node that has a span, from the query down to the expressions, each with the
nodes that it is made of, in the order of the text. Holes stay apart from the
other nodes.

A path that is used as a condition is two nodes over the same bytes, the
expression and the path, and so is a single query that is the whole body.
-/

namespace Cypher

/-- A node with its span: the place of an operand that could not be read, or
anything else with the nodes that it is made of. -/
inductive Outline
  | hole (span : Span)
  | node (span : Span) (children : List Outline)

namespace Outline

def span : Outline → Span
  | .hole s | .node s _ => s

def children : Outline → List Outline
  | .hole _ => []
  | .node _ cs => cs

mutual

/-- The spans of the holes, from left to right. -/
def holes : Outline → List Span
  | .hole s => [s]
  | .node _ cs => holesOf cs

/-- The spans of the holes in a row of nodes, from left to right. -/
def holesOf : List Outline → List Span
  | [] => []
  | o :: os => o.holes ++ holesOf os

end

theorem holesOf_eq (os : List Outline) : holesOf os = os.flatMap holes := by
  induction os with
  | nil => rfl
  | cons o os ih => rw [holesOf, ih, List.flatMap_cons]

theorem holesOf_append (os os' : List Outline) :
    holesOf (os ++ os') = holesOf os ++ holesOf os' := by
  simp only [holesOf_eq, List.flatMap_append]

@[simp]
theorem holesOf_node (s : Span) (cs : List Outline) : holesOf [.node s cs] = holesOf cs :=
  List.append_nil _

/-- The property holds of the node and of all nodes inside it. -/
inductive Everywhere (P : Outline → Prop) : Outline → Prop
  | intro {o : Outline} (self : P o) (nested : ∀ c ∈ o.children, Everywhere P c) :
    Everywhere P o

theorem Everywhere.here {P : Outline → Prop} {o : Outline} (h : Everywhere P o) : P o := by
  cases h with
  | intro h _ => exact h

theorem Everywhere.mono {P Q : Outline → Prop} {o : Outline} (h : Everywhere P o)
    (hPQ : ∀ o, P o → Q o) : Everywhere Q o := by
  induction h with
  | intro here _ ih => exact ⟨hPQ _ here, ih⟩

/-- The node takes up bytes, from where a token starts to where a token stops,
and its parts lie inside it, one behind the other. -/
structure Fits (tokens : List Token) (o : Outline) : Prop where
  nonempty : o.span.start < o.span.stop
  start : ∃ t ∈ tokens, t.span.start = o.span.start
  stop : ∃ t ∈ tokens, t.span.stop = o.span.stop
  inside : ∀ c ∈ o.children, o.span.start ≤ c.span.start ∧ c.span.stop ≤ o.span.stop
  apart : o.children.Pairwise fun c c' => c.span.stop ≤ c'.span.start

end Outline

/-! ## Expressions -/

mutual

/-- The nodes of an expression, and of the patterns and the like in it. -/
def Expression.outline : Expression → Outline
  | .literal _ s | .variable _ s | .parameter _ s | .star s => .node s []
  | .hole s => .hole s
  | .property target _ s | .prefixed _ target s | .nullCheck _ target s
  | .labelCheck target _ s => .node s [target.outline]
  | .index left right s | .infixed _ left right s => .node s [left.outline, right.outline]
  | .slice target lower upper s =>
    .node s (target.outline :: (outlinesOfOption lower ++ outlinesOfOption upper))
  | .list items s | .call _ items s => .node s (outlinesOfList items)
  | .listComprehension _ source filter projection s =>
    .node s (source.outline :: (outlinesOfOption filter ++ outlinesOfOption projection))
  | .patternComprehension pattern filter projection s =>
    .node s (pattern.outline :: (outlinesOfOption filter ++ [projection.outline]))
  | .patternPredicate pattern => .node pattern.span [pattern.outline]
  | .map entries s => .node s (outlinesOfEntries entries)
  | .mapProjection _ selectors s => .node s (outlinesOfSelectors selectors)
  | .case operand branches otherwise s =>
    .node s (outlinesOfOption operand
      ++ (outlinesOfBranches branches ++ outlinesOfOption otherwise))

def outlinesOfOption : Option Expression → List Outline
  | none => []
  | some e => [e.outline]

def outlinesOfList : List Expression → List Outline
  | [] => []
  | e :: es => e.outline :: outlinesOfList es

def MapEntry.outline : MapEntry → Outline
  | ⟨_, value, s⟩ => .node s [value.outline]

def outlinesOfEntries : List MapEntry → List Outline
  | [] => []
  | e :: es => e.outline :: outlinesOfEntries es

def MapSelector.outline : MapSelector → Outline
  | .property _ s | .everything s | .variable _ s => .node s []
  | .entry entry => entry.outline

def outlinesOfSelectors : List MapSelector → List Outline
  | [] => []
  | s :: ss => s.outline :: outlinesOfSelectors ss

def CaseBranch.outline : CaseBranch → Outline
  | ⟨condition, result, s⟩ => .node s [condition.outline, result.outline]

def outlinesOfBranches : List CaseBranch → List Outline
  | [] => []
  | b :: bs => b.outline :: outlinesOfBranches bs

def Properties.outline : Properties → Outline
  | .map entries s => .node s (outlinesOfEntries entries)
  | .parameter _ s => .node s []

def outlinesOfProperties : Option Properties → List Outline
  | none => []
  | some p => [p.outline]

def NodePattern.outline : NodePattern → Outline
  | ⟨_, _, properties, s⟩ => .node s (outlinesOfProperties properties)

def RelationshipPattern.outline : RelationshipPattern → Outline
  | ⟨_, _, _, _, properties, s⟩ => .node s (outlinesOfProperties properties)

/-- A step of a path is no node, but its relationship and its node are. -/
def Link.outlines : Link → List Outline
  | ⟨relationship, node⟩ => [relationship.outline, node.outline]

def outlinesOfLinks : List Link → List Outline
  | [] => []
  | l :: ls => l.outlines ++ outlinesOfLinks ls

def Pattern.outline : Pattern → Outline
  | ⟨_, start, chain, s⟩ => .node s (start.outline :: outlinesOfLinks chain)

end

section Companions

@[simp]
theorem outlinesOfOption_eq (e : Option Expression) :
    outlinesOfOption e = e.toList.map Expression.outline := by
  cases e <;> rfl

@[simp]
theorem outlinesOfList_eq (es : List Expression) :
    outlinesOfList es = es.map Expression.outline := by
  induction es with
  | nil => rfl
  | cons e es ih => rw [outlinesOfList, ih, List.map_cons]

@[simp]
theorem outlinesOfEntries_eq (es : List MapEntry) :
    outlinesOfEntries es = es.map MapEntry.outline := by
  induction es with
  | nil => rfl
  | cons e es ih => rw [outlinesOfEntries, ih, List.map_cons]

@[simp]
theorem outlinesOfSelectors_eq (ss : List MapSelector) :
    outlinesOfSelectors ss = ss.map MapSelector.outline := by
  induction ss with
  | nil => rfl
  | cons s ss ih => rw [outlinesOfSelectors, ih, List.map_cons]

@[simp]
theorem outlinesOfBranches_eq (bs : List CaseBranch) :
    outlinesOfBranches bs = bs.map CaseBranch.outline := by
  induction bs with
  | nil => rfl
  | cons b bs ih => rw [outlinesOfBranches, ih, List.map_cons]

@[simp]
theorem outlinesOfProperties_eq (p : Option Properties) :
    outlinesOfProperties p = p.toList.map Properties.outline := by
  cases p <;> rfl

@[simp]
theorem outlinesOfLinks_eq (ls : List Link) : outlinesOfLinks ls = ls.flatMap Link.outlines := by
  induction ls with
  | nil => rfl
  | cons l ls ih => rw [outlinesOfLinks, ih, List.flatMap_cons]

end Companions

@[simp]
theorem Pattern.span_outline (p : Pattern) : p.outline.span = p.span := by
  cases p
  rfl

@[simp]
theorem Expression.span_outline (e : Expression) : e.outline.span = e.span := by
  cases e <;> rfl

/-! ## Clauses and queries -/

def PropertyPath.outline (p : PropertyPath) : Outline := .node p.span []

def SetItem.outline : SetItem → Outline
  | .property target _ value s => .node s [target.outline, value.outline]
  | .variable _ _ value s => .node s [value.outline]
  | .labels _ _ s => .node s []

def RemoveItem.outline : RemoveItem → Outline
  | .property target => target.outline
  | .labels _ _ s => .node s []

def MergeAction.outline (a : MergeAction) : Outline := .node a.span (a.items.map SetItem.outline)

def ProjectionItem.outline : ProjectionItem → Outline
  | .everything s => .node s []
  | .expression value _ s => .node s [value.outline]

def Projection.outline (p : Projection) : Outline :=
  .node p.span (p.items.map ProjectionItem.outline)

def SortItem.outline (i : SortItem) : Outline := .node i.span [i.key.outline]

def YieldItem.outline (i : YieldItem) : Outline := .node i.span []

/-- The nodes that a clause is made of. -/
def Clause.outlines : Clause → List Outline
  | .matchPatterns _ patterns filter _ =>
    patterns.map Pattern.outline ++ filter.toList.map Expression.outline
  | .create patterns _ => patterns.map Pattern.outline
  | .merge patterns actions _ => patterns.map Pattern.outline ++ actions.map MergeAction.outline
  | .set items _ => items.map SetItem.outline
  | .delete _ targets _ => targets.map Expression.outline
  | .remove items _ => items.map RemoveItem.outline
  | .withProjection projection filter _ =>
    projection.outline :: filter.toList.map Expression.outline
  | .returnProjection projection _ => [projection.outline]
  | .orderBy items _ => items.map SortItem.outline
  | .unwind value _ _ | .skip value _ | .limit value _ => [value.outline]
  | .call _ arguments fields filter _ =>
    (arguments.getD []).map Expression.outline
      ++ ((fields.getD []).map YieldItem.outline ++ filter.toList.map Expression.outline)

def Clause.outline (c : Clause) : Outline := .node c.span c.outlines

def SingleQuery.outline (q : SingleQuery) : Outline := .node q.span (q.clauses.map Clause.outline)

@[simp]
theorem SingleQuery.span_outline (q : SingleQuery) : q.outline.span = q.span := rfl

def QueryBody.outline : QueryBody → Outline
  | .single query => .node query.span [query.outline]
  | .union _ left right s => .node s [left.outline, right.outline]

@[simp]
theorem QueryBody.span_outline (b : QueryBody) : b.outline.span = b.span := by
  cases b <;> rfl

/-- The nodes of a query, from the query itself down to the last expression. -/
def Query.outline (q : Query) : Outline := .node q.span [q.body.outline]

/-! ## Holes -/

/-- The spans of the holes in a query, from left to right. -/
def Query.holes (q : Query) : List Span := q.outline.holes

section Holes

open Outline (holes holesOf_eq)

@[simp]
theorem MapEntry.holes_outline (e : MapEntry) : e.outline.holes = e.value.outline.holes := by
  cases e
  simp [outline, holes, holesOf_eq]

theorem MapSelector.holes_outline (s : MapSelector) :
    s.outline.holes = s.values.flatMap fun c => c.outline.holes := by
  cases s <;> simp [outline, values, holes, holesOf_eq]

theorem CaseBranch.holes_outline (b : CaseBranch) :
    b.outline.holes = b.values.flatMap fun c => c.outline.holes := by
  cases b
  simp [outline, values, holes, holesOf_eq]

theorem Properties.holes_outline (p : Properties) :
    p.outline.holes = p.values.flatMap fun c => c.outline.holes := by
  cases p <;> simp [outline, values, holes, holesOf_eq, List.flatMap_map]

theorem NodePattern.holes_outline (n : NodePattern) :
    n.outline.holes = n.values.flatMap fun c => c.outline.holes := by
  cases n
  simp [outline, values, holes, holesOf_eq, List.flatMap_map, List.flatMap_assoc,
    Properties.holes_outline]

theorem RelationshipPattern.holes_outline (r : RelationshipPattern) :
    r.outline.holes = r.values.flatMap fun c => c.outline.holes := by
  cases r
  simp [outline, values, holes, holesOf_eq, List.flatMap_map, List.flatMap_assoc,
    Properties.holes_outline]

theorem Link.holes_outlines (l : Link) :
    l.outlines.flatMap holes = l.values.flatMap fun c => c.outline.holes := by
  cases l
  simp [outlines, values, NodePattern.holes_outline, RelationshipPattern.holes_outline]

theorem Pattern.holes_outline (p : Pattern) :
    p.outline.holes = p.values.flatMap fun c => c.outline.holes := by
  cases p
  simp [outline, values, holes, holesOf_eq, List.flatMap_assoc, NodePattern.holes_outline,
    Link.holes_outlines]

/-- The holes of an expression are those of its children, from left to right, unless
it is one itself. -/
theorem Expression.holes_outline (e : Expression) :
    e.outline.holes = match e with
      | .hole s => [s]
      | e => e.children.flatMap fun c => c.outline.holes := by
  cases e <;>
    simp [outline, children, holes, holesOf_eq, List.flatMap_map, List.flatMap_assoc,
      Pattern.holes_outline, MapSelector.holes_outline, CaseBranch.holes_outline]

/-- No hole is left over: an expression without holes is none anywhere inside. -/
theorem Expression.holes_outline_eq_nil_iff (e : Expression) :
    e.outline.holes = [] ↔ e.Everywhere fun e => ∀ s, e ≠ .hole s := by
  induction e using Expression.childInduction with
  | step e ih =>
    rw [Expression.Everywhere.everywhere_iff, holes_outline]
    have hchildren : (e.children.flatMap fun c => c.outline.holes) = []
        ↔ ∀ c ∈ e.children, c.Everywhere fun e => ∀ s, e ≠ .hole s := by
      rw [List.flatMap_eq_nil_iff]
      exact forall₂_congr ih
    cases e with
    | hole s => simp
    | _ => simpa using hchildren

theorem SetItem.holes_outline (i : SetItem) :
    i.outline.holes = i.value?.toList.flatMap fun c => c.outline.holes := by
  cases i <;> simp [outline, value?, holes, holesOf_eq, PropertyPath.outline]

theorem SetItem.holes_outlines (items : List SetItem) :
    items.flatMap (fun i => i.outline.holes)
      = (items.filterMap SetItem.value?).flatMap fun c => c.outline.holes := by
  induction items with
  | nil => rfl
  | cons i items ih =>
    rw [List.flatMap_cons, ih, SetItem.holes_outline, List.filterMap_cons]
    cases i.value? <;> simp

theorem RemoveItem.holes_outline (i : RemoveItem) : i.outline.holes = [] := by
  cases i <;> rfl

theorem MergeAction.holes_outline (a : MergeAction) :
    a.outline.holes = (a.items.filterMap SetItem.value?).flatMap fun c => c.outline.holes := by
  rw [← SetItem.holes_outlines]
  simp [outline, holes, holesOf_eq, List.flatMap_map]

theorem Projection.holes_outline (p : Projection) :
    p.outline.holes = p.values.flatMap fun c => c.outline.holes := by
  obtain ⟨distinct, items, s⟩ := p
  simp only [outline, values, holes, holesOf_eq, List.flatMap_map]
  induction items with
  | nil => rfl
  | cons i items ih =>
    rw [List.flatMap_cons, ih, List.filterMap_cons]
    cases i <;> simp [ProjectionItem.outline, ProjectionItem.value?, holes, holesOf_eq]

theorem Clause.holes_outline (c : Clause) :
    c.outline.holes = c.values.flatMap fun e => e.outline.holes := by
  cases c <;>
    simp [outline, outlines, values, patterns, expressions, holes, holesOf_eq, List.flatMap_map,
      List.flatMap_assoc, Pattern.holes_outline, SetItem.holes_outlines,
      RemoveItem.holes_outline, MergeAction.holes_outline, Projection.holes_outline,
      SortItem.outline, YieldItem.outline]

theorem SingleQuery.holes_outline (q : SingleQuery) :
    q.outline.holes = q.clauses.flatMap fun c => c.outline.holes := by
  simp [outline, holes, holesOf_eq, List.flatMap_map]

theorem QueryBody.holes_outline (b : QueryBody) :
    b.outline.holes = b.parts.flatMap fun q => q.outline.holes := by
  induction b with
  | single q => simp [outline, parts, holes, holesOf_eq]
  | union all left right s ih => simp [outline, parts, holes, holesOf_eq, ih]

/-- The holes of a query are those of the expressions in its clauses. -/
theorem Query.holes_eq (q : Query) :
    q.holes = q.clauses.flatMap fun c => c.values.flatMap fun e => e.outline.holes := by
  simp [Query.holes, outline, clauses, Outline.holes, holesOf_eq, QueryBody.holes_outline,
    SingleQuery.holes_outline, Clause.holes_outline, List.flatMap_assoc]

theorem Query.holes_eq_nil_iff (q : Query) :
    q.holes = [] ↔
      ∀ c ∈ q.clauses, ∀ e ∈ c.values, e.Everywhere fun e => ∀ s, e ≠ .hole s := by
  simp only [holes_eq, List.flatMap_eq_nil_iff, Expression.holes_outline_eq_nil_iff]

end Holes

end Cypher
