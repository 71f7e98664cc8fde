import Cypher.Proofs.Tree.Children

/-!
# What the nodes of a tree are

A sketch of a tree keeps of every node its form, the bytes that it takes up and
its parts in the order of the text; names, values and operators are left out. So
what is claimed of the nodes of a tree can be claimed once, form by form, and not
type by type.

Two questions tell the forms apart. Does the node begin and end with tokens of its
own, or with an operand? And is it written with a star?
-/

namespace Cypher

/-- What a node of a tree is. -/
inductive Form
  /-- An expression from its own first token to its own last. -/
  | atom
  /-- The star in the place of an expression. -/
  | star
  /-- The place of an operand that could not be read. -/
  | hole
  /-- An expression that begins or ends with an operand. -/
  | compound
  /-- The same, where the operator is a star. -/
  | product
  /-- A relationship with a range of hops. -/
  | hops
  /-- The star of a map projection. -/
  | everyKey
  /-- The star of a projection. -/
  | wildcard
  /-- An item of a projection that is an expression. -/
  | item
  /-- Any other part of a query. -/
  | part
  deriving DecidableEq

namespace Form

/-- Whether the node is an expression. -/
def isExpression : Form → Bool
  | .atom | .star | .hole | .compound | .product => true
  | _ => false

/-- Whether the expression begins and ends with tokens of its own. -/
def isAtom : Form → Bool
  | .atom | .star => true
  | _ => false

/-- Whether one of the tokens of the node itself is a star. -/
def isStarred : Form → Bool
  | .star | .product | .hops | .everyKey | .wildcard => true
  | _ => false

/-- The form of an operator between two operands. -/
def ofInfix : InfixOperator → Form
  | .multiply => .product
  | _ => .compound

theorem ofInfix_eq (op : InfixOperator) : ofInfix op = .compound ∨ ofInfix op = .product := by
  cases op <;> simp [ofInfix]

theorem isExpression_ofInfix (op : InfixOperator) : (ofInfix op).isExpression = true := by
  rcases ofInfix_eq op with h | h <;> rw [h] <;> rfl

end Form

/-- A node with its parts, from left to right. -/
inductive Sketch
  | node (form : Form) (span : Span) (parts : List Sketch)

namespace Sketch

def form : Sketch → Form
  | .node f _ _ => f

def span : Sketch → Span
  | .node _ s _ => s

mutual

/-- The node and all nodes inside it, each in front of its parts. -/
def nodes : Sketch → List Sketch
  | .node f s ps => .node f s ps :: nodesOf ps

/-- The nodes of a row, from left to right. -/
def nodesOf : List Sketch → List Sketch
  | [] => []
  | o :: os => o.nodes ++ nodesOf os

end

theorem nodesOf_eq (os : List Sketch) : nodesOf os = os.flatMap nodes := by
  induction os with
  | nil => rfl
  | cons o os ih => rw [nodesOf, ih, List.flatMap_cons]

theorem nodesOf_append (os os' : List Sketch) :
    nodesOf (os ++ os') = nodesOf os ++ nodesOf os' := by
  simp only [nodesOf_eq, List.flatMap_append]

theorem nodesOf_singleton (o : Sketch) : nodesOf [o] = o.nodes := List.append_nil _

/-- A node is the first of its nodes. -/
theorem mem_nodes_self (o : Sketch) : o ∈ o.nodes := by
  cases o
  exact List.mem_cons_self

/-- What is inside a part of a node is inside the node. -/
theorem nodes_subset_node {o : Sketch} {os : List Sketch} (h : o.nodes ⊆ nodesOf os)
    (form : Form) (span : Span) : o.nodes ⊆ (node form span os).nodes := by
  rw [nodes]
  exact List.subset_cons_of_subset _ h

theorem nodes_subset_of_mem {o : Sketch} {os : List Sketch} (h : o ∈ os) :
    o.nodes ⊆ nodesOf os := by
  rw [nodesOf_eq]
  exact fun o' ho' => List.mem_flatMap.2 ⟨o, h, ho'⟩

end Sketch

/-! ## Expressions -/

mutual

/-- The nodes of an expression, and of the patterns and the like in it. -/
def Expression.sketch : Expression → Sketch
  | .literal _ s | .variable _ s | .parameter _ s => .node .atom s []
  | .star s => .node .star s []
  | .hole s => .node .hole s []
  | .property target _ s | .prefixed _ target s | .nullCheck _ target s
  | .labelCheck target _ s => .node .compound s [target.sketch]
  | .index left right s => .node .compound s [left.sketch, right.sketch]
  | .infixed op left right s => .node (.ofInfix op) s [left.sketch, right.sketch]
  | .slice target lower upper s =>
    .node .compound s (target.sketch :: (sketchesOfOption lower ++ sketchesOfOption upper))
  | .list items s | .call _ items s => .node .atom s (sketchesOfList items)
  | .listComprehension _ source filter projection s =>
    .node .atom s (source.sketch :: (sketchesOfOption filter ++ sketchesOfOption projection))
  | .patternComprehension pattern filter projection s =>
    .node .atom s (pattern.sketch :: (sketchesOfOption filter ++ [projection.sketch]))
  | .patternPredicate pattern => .node .atom pattern.span [pattern.sketch]
  | .map entries s => .node .atom s (sketchesOfEntries entries)
  | .mapProjection _ selectors s => .node .atom s (sketchesOfSelectors selectors)
  | .case operand branches otherwise s =>
    .node .atom s (sketchesOfOption operand
      ++ (sketchesOfBranches branches ++ sketchesOfOption otherwise))

def sketchesOfOption : Option Expression → List Sketch
  | none => []
  | some e => [e.sketch]

def sketchesOfList : List Expression → List Sketch
  | [] => []
  | e :: es => e.sketch :: sketchesOfList es

def MapEntry.sketch : MapEntry → Sketch
  | ⟨_, value, s⟩ => .node .part s [value.sketch]

def sketchesOfEntries : List MapEntry → List Sketch
  | [] => []
  | e :: es => e.sketch :: sketchesOfEntries es

def MapSelector.sketch : MapSelector → Sketch
  | .property _ s | .variable _ s => .node .part s []
  | .everything s => .node .everyKey s []
  | .entry entry => entry.sketch

def sketchesOfSelectors : List MapSelector → List Sketch
  | [] => []
  | s :: ss => s.sketch :: sketchesOfSelectors ss

def CaseBranch.sketch : CaseBranch → Sketch
  | ⟨condition, result, s⟩ => .node .part s [condition.sketch, result.sketch]

def sketchesOfBranches : List CaseBranch → List Sketch
  | [] => []
  | b :: bs => b.sketch :: sketchesOfBranches bs

def Properties.sketch : Properties → Sketch
  | .map entries s => .node .part s (sketchesOfEntries entries)
  | .parameter _ s => .node .part s []

def sketchesOfProperties : Option Properties → List Sketch
  | none => []
  | some p => [p.sketch]

def NodePattern.sketch : NodePattern → Sketch
  | ⟨_, _, properties, s⟩ => .node .part s (sketchesOfProperties properties)

def RelationshipPattern.sketch : RelationshipPattern → Sketch
  | ⟨_, _, _, hops, properties, s⟩ =>
    .node (if hops.isSome then .hops else .part) s (sketchesOfProperties properties)

/-- A step of a path is no node, but its relationship and its node are. -/
def Link.sketches : Link → List Sketch
  | ⟨relationship, node⟩ => [relationship.sketch, node.sketch]

def sketchesOfLinks : List Link → List Sketch
  | [] => []
  | l :: ls => l.sketches ++ sketchesOfLinks ls

def Pattern.sketch : Pattern → Sketch
  | ⟨_, start, chain, s⟩ => .node .part s (start.sketch :: sketchesOfLinks chain)

end

section Companions

@[simp]
theorem sketchesOfOption_eq (e : Option Expression) :
    sketchesOfOption e = e.toList.map Expression.sketch := by
  cases e <;> rfl

@[simp]
theorem sketchesOfList_eq (es : List Expression) :
    sketchesOfList es = es.map Expression.sketch := by
  induction es with
  | nil => rfl
  | cons e es ih => rw [sketchesOfList, ih, List.map_cons]

@[simp]
theorem sketchesOfEntries_eq (es : List MapEntry) :
    sketchesOfEntries es = es.map MapEntry.sketch := by
  induction es with
  | nil => rfl
  | cons e es ih => rw [sketchesOfEntries, ih, List.map_cons]

@[simp]
theorem sketchesOfSelectors_eq (ss : List MapSelector) :
    sketchesOfSelectors ss = ss.map MapSelector.sketch := by
  induction ss with
  | nil => rfl
  | cons s ss ih => rw [sketchesOfSelectors, ih, List.map_cons]

@[simp]
theorem sketchesOfBranches_eq (bs : List CaseBranch) :
    sketchesOfBranches bs = bs.map CaseBranch.sketch := by
  induction bs with
  | nil => rfl
  | cons b bs ih => rw [sketchesOfBranches, ih, List.map_cons]

@[simp]
theorem sketchesOfProperties_eq (p : Option Properties) :
    sketchesOfProperties p = p.toList.map Properties.sketch := by
  cases p <;> rfl

@[simp]
theorem sketchesOfLinks_eq (ls : List Link) : sketchesOfLinks ls = ls.flatMap Link.sketches := by
  induction ls with
  | nil => rfl
  | cons l ls ih => rw [sketchesOfLinks, ih, List.flatMap_cons]

end Companions

@[simp]
theorem Expression.span_sketch (e : Expression) : e.sketch.span = e.span := by
  cases e <;> rfl

@[simp]
theorem Expression.isExpression_sketch (e : Expression) : e.sketch.form.isExpression = true := by
  cases e with
  | infixed op => exact Form.isExpression_ofInfix op
  | _ => rfl

/-! ## Clauses and queries -/

def PropertyPath.sketch (p : PropertyPath) : Sketch := .node .part p.span []

def SetItem.sketch : SetItem → Sketch
  | .property target _ value s => .node .part s [target.sketch, value.sketch]
  | .variable _ _ value s => .node .part s [value.sketch]
  | .labels _ _ s => .node .part s []

def RemoveItem.sketch : RemoveItem → Sketch
  | .property target => target.sketch
  | .labels _ _ s => .node .part s []

def MergeAction.sketch (a : MergeAction) : Sketch :=
  .node .part a.span (a.items.map SetItem.sketch)

def ProjectionItem.sketch : ProjectionItem → Sketch
  | .everything s => .node .wildcard s []
  | .expression value _ s => .node .item s [value.sketch]

def Projection.sketch (p : Projection) : Sketch :=
  .node .part p.span (p.items.map ProjectionItem.sketch)

def SortItem.sketch (i : SortItem) : Sketch := .node .part i.span [i.key.sketch]

def YieldItem.sketch (i : YieldItem) : Sketch := .node .part i.span []

/-- The nodes that a clause is made of. -/
def Clause.sketches : Clause → List Sketch
  | .matchPatterns _ patterns filter _ =>
    patterns.map Pattern.sketch ++ filter.toList.map Expression.sketch
  | .create patterns _ => patterns.map Pattern.sketch
  | .merge patterns actions _ => patterns.map Pattern.sketch ++ actions.map MergeAction.sketch
  | .set items _ => items.map SetItem.sketch
  | .delete _ targets _ => targets.map Expression.sketch
  | .remove items _ => items.map RemoveItem.sketch
  | .withProjection projection filter _ =>
    projection.sketch :: filter.toList.map Expression.sketch
  | .returnProjection projection _ => [projection.sketch]
  | .orderBy items _ => items.map SortItem.sketch
  | .unwind value _ _ | .skip value _ | .limit value _ => [value.sketch]
  | .call _ arguments fields filter _ =>
    (arguments.getD []).map Expression.sketch
      ++ ((fields.getD []).map YieldItem.sketch ++ filter.toList.map Expression.sketch)

def Clause.sketch (c : Clause) : Sketch := .node .part c.span c.sketches

def SingleQuery.sketch (q : SingleQuery) : Sketch :=
  .node .part q.span (q.clauses.map Clause.sketch)

def QueryBody.sketch : QueryBody → Sketch
  | .single query => .node .part query.span [query.sketch]
  | .union _ left right s => .node .part s [left.sketch, right.sketch]

/-- The nodes of a query, from the query itself down to the last expression. -/
def Query.sketch (q : Query) : Sketch := .node .part q.span [q.body.sketch]

/-! ## Every expression has its node -/

namespace Sketch

/-- The nodes of the values are among those of the row. -/
def Shows (os : List Sketch) (values : List Expression) : Prop :=
  ∀ e ∈ values, e.sketch.nodes ⊆ nodesOf os

namespace Shows

variable {os os' : List Sketch} {values values' : List Expression}

theorem nil : Shows os [] := List.forall_mem_nil _

theorem append (h : Shows os values) (h' : Shows os' values') :
    Shows (os ++ os') (values ++ values') := by
  intro e he
  rw [nodesOf_append]
  rcases List.mem_append.1 he with he | he
  · exact List.subset_append_of_subset_left _ (h e he)
  · exact List.subset_append_of_subset_right _ (h' e he)

/-- The nodes inside a node are nodes of it. -/
theorem node (h : Shows os values) (form : Form) (span : Span) :
    Shows [.node form span os] values := by
  intro e he
  rw [nodesOf_singleton]
  exact nodes_subset_node (h e he) _ _

theorem expression (e : Expression) : Shows [e.sketch] [e] := by
  refine List.forall_mem_singleton.2 ?_
  rw [nodesOf_singleton]
  exact List.Subset.refl _

theorem map (es : List Expression) : Shows (es.map Expression.sketch) es :=
  fun _ he => nodes_subset_of_mem (List.mem_map_of_mem he)

theorem flatMap {α : Type} {xs : List α} {out : α → List Sketch} {inside : α → List Expression}
    (h : ∀ x ∈ xs, Shows (out x) (inside x)) : Shows (xs.flatMap out) (xs.flatMap inside) := by
  intro e he
  obtain ⟨x, hx, hmem⟩ := List.mem_flatMap.1 he
  refine List.Subset.trans (h x hx e hmem) ?_
  simp only [nodesOf_eq, List.flatMap_assoc]
  exact fun o ho => List.mem_flatMap.2 ⟨x, hx, ho⟩

/-- As `flatMap`, where each item is one node. -/
theorem items {α : Type} {xs : List α} {out : α → Sketch} {inside : α → List Expression}
    (h : ∀ x ∈ xs, Shows [out x] (inside x)) : Shows (xs.map out) (xs.flatMap inside) := by
  rw [List.map_eq_flatMap]
  exact flatMap h

end Shows

end Sketch

section Shown

open Sketch (Shows)

theorem MapEntry.shows_value (e : MapEntry) : Shows [e.sketch] [e.value] := by
  cases e
  exact (Shows.expression _).node _ _

theorem MapEntry.shows_values (es : List MapEntry) :
    Shows (es.map sketch) (es.map value) := by
  rw [List.map_eq_flatMap (f := value)]
  exact Shows.items fun e _ => e.shows_value

theorem MapSelector.shows_values (s : MapSelector) : Shows [s.sketch] s.values := by
  cases s with
  | entry e => exact e.shows_value
  | _ => exact Shows.nil

theorem CaseBranch.shows_values (b : CaseBranch) : Shows [b.sketch] b.values := by
  cases b
  exact ((Shows.expression _).append (Shows.expression _)).node _ _

theorem Properties.shows_values (p : Properties) : Shows [p.sketch] p.values := by
  cases p with
  | map entries s =>
    simp only [sketch, sketchesOfEntries_eq]
    exact (MapEntry.shows_values entries).node _ _
  | parameter => exact Shows.nil

theorem NodePattern.shows_values (n : NodePattern) : Shows [n.sketch] n.values := by
  cases n
  simp only [sketch, sketchesOfProperties_eq]
  exact (Shows.items fun p _ => p.shows_values).node _ _

theorem RelationshipPattern.shows_values (r : RelationshipPattern) :
    Shows [r.sketch] r.values := by
  cases r
  simp only [sketch, sketchesOfProperties_eq]
  exact (Shows.items fun p _ => p.shows_values).node _ _

theorem Link.shows_values (l : Link) : Shows l.sketches l.values := by
  cases l with
  | mk relationship node =>
    simp only [sketches]
    exact relationship.shows_values.append node.shows_values

theorem Pattern.shows_values (p : Pattern) : Shows [p.sketch] p.values := by
  cases p
  simp only [sketch, sketchesOfLinks_eq]
  exact (Shows.append (NodePattern.shows_values _) (Shows.flatMap fun l _ => l.shows_values)).node
    _ _

/-- The node of an expression holds the nodes of its children. -/
theorem Expression.shows_children (e : Expression) : Shows [e.sketch] e.children := by
  have hone := Shows.expression
  have hoption (e : Option Expression) : Shows (sketchesOfOption e) e.toList := by
    rw [sketchesOfOption_eq]
    exact Shows.map _
  match e with
  | .literal .. | .variable .. | .parameter .. | .star _ | .hole _ => exact Shows.nil
  | .property .. | .prefixed .. | .nullCheck .. | .labelCheck .. => exact (hone _).node _ _
  | .index .. | .infixed .. => exact ((hone _).append (hone _)).node _ _
  | .slice .. | .listComprehension .. =>
    exact ((hone _).append ((hoption _).append (hoption _))).node _ _
  | .list items _ | .call _ items _ =>
    simp only [sketch, sketchesOfList_eq]
    exact (Shows.map items).node _ _
  | .patternComprehension pattern filter projection _ =>
    exact (pattern.shows_values.append ((hoption filter).append (hone projection))).node _ _
  | .patternPredicate pattern => exact pattern.shows_values.node _ _
  | .map entries _ =>
    simp only [sketch, sketchesOfEntries_eq]
    exact (MapEntry.shows_values entries).node _ _
  | .mapProjection _ selectors _ =>
    simp only [sketch, sketchesOfSelectors_eq]
    exact (Shows.items fun s _ => s.shows_values).node _ _
  | .case operand branches otherwise _ =>
    simp only [sketch, sketchesOfBranches_eq]
    exact ((hoption operand).append
      ((Shows.items fun b _ => b.shows_values).append (hoption otherwise))).node _ _

/-- Every expression inside an expression has its node. -/
theorem Expression.everywhere_mem_nodes (e : Expression) {o : List Sketch}
    (h : e.sketch.nodes ⊆ o) : e.Everywhere fun e => e.sketch ∈ o := by
  induction e using Expression.childInduction with
  | step e ih =>
    refine ⟨h (Sketch.mem_nodes_self _), fun c hc => ih c hc ?_⟩
    have hnodes := e.shows_children c hc
    rw [Sketch.nodesOf_singleton] at hnodes
    exact List.Subset.trans hnodes h

theorem SetItem.shows_values (items : List SetItem) :
    Shows (items.map sketch) (items.filterMap value?) := by
  intro e he
  obtain ⟨i, hi, hvalue⟩ := List.mem_filterMap.1 he
  refine List.Subset.trans ?_ (Sketch.nodes_subset_of_mem (List.mem_map_of_mem hi))
  cases i <;> cases hvalue <;> simp [sketch, Sketch.nodes, Sketch.nodesOf_eq]

theorem Projection.shows_values (p : Projection) : Shows [p.sketch] p.values := by
  refine Shows.node (fun e he => ?_) _ _
  obtain ⟨i, hi, hvalue⟩ := List.mem_filterMap.1 he
  refine List.Subset.trans ?_ (Sketch.nodes_subset_of_mem (List.mem_map_of_mem hi))
  cases i <;> cases hvalue
  simp [ProjectionItem.sketch, Sketch.nodes, Sketch.nodesOf_eq]

theorem Clause.shows_values (c : Clause) : Shows [c.sketch] c.values := by
  have hone := Shows.expression
  have hoption (e : Option Expression) : Shows (e.toList.map Expression.sketch) e.toList :=
    Shows.map _
  have hpatterns (ps : List Pattern) :
      Shows (ps.map Pattern.sketch) (ps.flatMap Pattern.values) :=
    Shows.items fun p _ => p.shows_values
  refine Shows.node ?_ _ _
  match c with
  | .matchPatterns _ patterns filter _ => exact (hpatterns patterns).append (hoption filter)
  | .create patterns _ =>
    simp only [values, Clause.patterns, expressions, List.append_nil]
    exact hpatterns patterns
  | .merge patterns actions _ =>
    refine (hpatterns patterns).append (Shows.items fun a _ => ?_)
    exact (SetItem.shows_values a.items).node _ _
  | .set items _ => exact SetItem.shows_values items
  | .delete _ targets _ => exact Shows.map targets
  | .remove .. => exact Shows.nil
  | .withProjection projection filter _ => exact projection.shows_values.append (hoption filter)
  | .returnProjection projection _ => exact projection.shows_values
  | .orderBy items _ =>
    simp only [values, Clause.patterns, expressions, sketches, List.flatMap_nil, List.nil_append]
    rw [List.map_eq_flatMap (f := SortItem.key)]
    exact Shows.items fun i _ => (hone i.key).node _ _
  | .unwind value _ _ | .skip value _ | .limit value _ => exact hone value
  | .call _ arguments fields filter _ =>
    refine (Shows.map (arguments.getD [])).append (List.nil_append filter.toList ▸ ?_)
    exact Shows.nil.append (hoption filter)

end Shown

/-- The node of a union holds the nodes of the single queries in it. -/
theorem QueryBody.nodes_parts (b : QueryBody) :
    ∀ p ∈ b.parts, p.sketch.nodes ⊆ b.sketch.nodes := by
  induction b with
  | single q =>
    refine List.forall_mem_singleton.2 (Sketch.nodes_subset_node ?_ _ _)
    exact Sketch.nodes_subset_of_mem List.mem_cons_self
  | union all left right span ih =>
    have hleft : left.sketch.nodes ⊆ Sketch.nodesOf [left.sketch, right.sketch] :=
      Sketch.nodes_subset_of_mem List.mem_cons_self
    refine List.forall_mem_append.2 ⟨fun p hp => ?_, List.forall_mem_singleton.2 ?_⟩
    · exact Sketch.nodes_subset_node (List.Subset.trans (ih p hp) hleft) _ _
    · refine Sketch.nodes_subset_node (Sketch.nodes_subset_of_mem ?_) _ _
      exact List.mem_cons_of_mem _ List.mem_cons_self

/-- The node of a query holds the nodes of its clauses. -/
theorem Query.nodes_clauses (q : Query) :
    ∀ c ∈ q.clauses, c.sketch.nodes ⊆ q.sketch.nodes := by
  intro c hc
  obtain ⟨p, hp, hpart⟩ := List.mem_flatMap.1 hc
  have hclause : c.sketch.nodes ⊆ p.sketch.nodes :=
    Sketch.nodes_subset_node (Sketch.nodes_subset_of_mem (List.mem_map_of_mem hpart)) _ _
  refine List.Subset.trans hclause ?_
  refine List.Subset.trans (q.body.nodes_parts p hp) (Sketch.nodes_subset_node ?_ _ _)
  exact Sketch.nodes_subset_of_mem List.mem_cons_self

/-- Every expression in a query has its node. -/
theorem Query.everywhere_mem_nodes (q : Query) :
    ∀ c ∈ q.clauses, ∀ e ∈ c.values, e.Everywhere fun e => e.sketch ∈ q.sketch.nodes := by
  intro c hc e he
  have hvalue := c.shows_values e he
  rw [Sketch.nodesOf_singleton] at hvalue
  exact e.everywhere_mem_nodes (List.Subset.trans hvalue (q.nodes_clauses c hc))

end Cypher
