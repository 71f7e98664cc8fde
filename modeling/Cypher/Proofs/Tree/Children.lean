import Mathlib
import Cypher.Tree.Height
import Cypher.Tree.Layout
import Cypher.Tree.Query

/-!
# The expressions inside an expression

An expression holds others in many places: as operands, as items and
entries, as bounds, in the property maps of its patterns. `children` lists
those it holds DIRECTLY, in the order of the text, whatever the place.

Two things follow from it, and spare every later proof the walk over the
helper types. `childInduction` proves a property of all expressions from
that of their children. `Everywhere` says of a property that it holds of
an expression and of all that are nested in it, at any depth.
-/

namespace Cypher

/-! ## Direct children -/

/-- The values of a property map. -/
def Properties.values : Properties → List Expression
  | .map entries _ => entries.map MapEntry.value
  | .parameter .. => []

/-- The property values of a node. -/
def NodePattern.values (n : NodePattern) : List Expression :=
  n.properties.toList.flatMap Properties.values

/-- The property values of a relationship. -/
def RelationshipPattern.values (r : RelationshipPattern) : List Expression :=
  r.properties.toList.flatMap Properties.values

/-- The property values of a step of a path. -/
def Link.values (l : Link) : List Expression :=
  l.relationship.values ++ l.node.values

/-- The property values of a path, those of its start first. -/
def Pattern.values (p : Pattern) : List Expression :=
  p.start.values ++ p.chain.flatMap Link.values

/-- The value that a selector computes, if it computes one. -/
def MapSelector.values : MapSelector → List Expression
  | .entry e => [e.value]
  | .property .. | .everything _ | .variable .. => []

/-- The two expressions of a branch. -/
def CaseBranch.values (b : CaseBranch) : List Expression := [b.condition, b.result]

/-- The expressions that an expression holds directly. -/
def Expression.children : Expression → List Expression
  | .literal .. | .variable .. | .parameter .. | .star _ | .hole _ => []
  | .property e _ _ | .prefixed _ e _ | .nullCheck _ e _ | .labelCheck e _ _ => [e]
  | .index l r _ | .infixed _ l r _ => [l, r]
  | .slice e lower upper _ => e :: (lower.toList ++ upper.toList)
  | .list es _ | .call _ es _ => es
  | .listComprehension _ e filter projection _ =>
    e :: (filter.toList ++ projection.toList)
  | .patternComprehension p filter e _ => p.values ++ (filter.toList ++ [e])
  | .patternPredicate p => p.values
  | .map entries _ => entries.map MapEntry.value
  | .mapProjection _ selectors _ => selectors.flatMap MapSelector.values
  | .case e branches otherwise _ =>
    e.toList ++ (branches.flatMap CaseBranch.values ++ otherwise.toList)

/-- The expressions that a clause holds directly, those in the property
maps of its patterns first. -/
def Clause.values (c : Clause) : List Expression :=
  c.patterns.flatMap Pattern.values ++ c.expressions

/-- The clauses of a query, in the order of the text. -/
def Query.clauses (q : Query) : List Clause := q.body.parts.flatMap SingleQuery.clauses

/-! ## Heights of children -/

section Heights

variable {n : Nat}

theorem heightOption_le {e : Option Expression} :
    heightOption e ≤ n ↔ ∀ c ∈ e.toList, c.height ≤ n := by
  cases e <;> simp [heightOption]

theorem heightList_le {es : List Expression} :
    heightList es ≤ n ↔ ∀ c ∈ es, c.height ≤ n := by
  induction es with
  | nil => simp [heightList]
  | cons e es ih => simp [heightList, ih]

theorem MapEntry.height_eq (e : MapEntry) : e.height = e.value.height := by
  cases e
  simp only [MapEntry.height]

theorem heightEntries_le {es : List MapEntry} :
    heightEntries es ≤ n ↔ ∀ c ∈ es.map MapEntry.value, c.height ≤ n := by
  induction es with
  | nil => simp [heightEntries]
  | cons e es ih => simp [heightEntries, ih, MapEntry.height_eq]

theorem heightSelectors_le {ss : List MapSelector} :
    heightSelectors ss ≤ n ↔ ∀ c ∈ ss.flatMap MapSelector.values, c.height ≤ n := by
  induction ss with
  | nil => simp [heightSelectors]
  | cons s ss ih =>
    simp only [heightSelectors, Nat.max_le, ih, List.flatMap_cons, List.forall_mem_append]
    cases s <;> simp [MapSelector.height, MapSelector.values, MapEntry.height_eq]

theorem heightBranches_le {bs : List CaseBranch} :
    heightBranches bs ≤ n ↔ ∀ c ∈ bs.flatMap CaseBranch.values, c.height ≤ n := by
  induction bs with
  | nil => simp [heightBranches]
  | cons b bs ih =>
    simp only [heightBranches, Nat.max_le, ih, List.flatMap_cons, List.forall_mem_append]
    cases b
    simp [CaseBranch.height, CaseBranch.values]

/-- A property map is one level higher than its values. -/
theorem heightProperties_le {p : Option Properties} (h : heightProperties p ≤ n) :
    ∀ c ∈ p.toList.flatMap Properties.values, c.height ≤ n := by
  match p with
  | none => simp
  | some (.parameter _ _) => simp [Properties.values]
  | some (.map [] _) => simp [Properties.values]
  | some (.map (e :: es) s) =>
    have hes : heightEntries (e :: es) ≤ n := by
      simp only [heightProperties, Properties.height] at h
      simp only [heightEntries]
      omega
    simpa [Properties.values] using heightEntries_le.1 hes

theorem NodePattern.height_le {p : NodePattern} (h : p.height ≤ n) :
    ∀ c ∈ p.values, c.height ≤ n := by
  cases p
  simp only [NodePattern.height] at h
  exact heightProperties_le h

theorem RelationshipPattern.height_le {r : RelationshipPattern} (h : r.height ≤ n) :
    ∀ c ∈ r.values, c.height ≤ n := by
  cases r
  simp only [RelationshipPattern.height] at h
  exact heightProperties_le h

theorem heightLinks_le {ls : List Link} (h : heightLinks ls ≤ n) :
    ∀ c ∈ ls.flatMap Link.values, c.height ≤ n := by
  induction ls with
  | nil => simp
  | cons l ls ih =>
    cases l with
    | mk r p =>
      simp only [heightLinks, Link.height, Nat.max_le] at h
      simp only [List.flatMap_cons, Link.values, List.forall_mem_append]
      exact ⟨⟨RelationshipPattern.height_le h.1.1, NodePattern.height_le h.1.2⟩, ih h.2⟩

theorem Pattern.height_le {p : Pattern} (h : p.height ≤ n) :
    ∀ c ∈ p.values, c.height ≤ n := by
  cases p
  simp only [Pattern.height, Nat.max_le] at h
  simp only [Pattern.values, List.forall_mem_append]
  exact ⟨NodePattern.height_le h.1, heightLinks_le h.2⟩

/-- The children of an expression fit below its height. -/
theorem Expression.height_children_le {e : Expression} (h : e.height ≤ n + 1) :
    ∀ c ∈ e.children, c.height ≤ n := by
  match e with
  | .literal .. | .variable .. | .parameter .. | .star _ | .hole _ => simp [children]
  | .property .. | .prefixed .. | .nullCheck .. | .labelCheck .. =>
    simpa [children, height] using h
  | .index .. | .infixed .. =>
    simpa [children, height, Nat.max_le] using h
  | .list .. | .call .. => simpa [children, height, heightList_le] using h
  | .slice .. | .listComprehension .. =>
    simp only [height, Nat.add_le_add_iff_right, Nat.max_le, heightOption_le] at h
    simpa [children, or_imp, forall_and] using h
  | .patternComprehension p filter e s =>
    simp only [height, Nat.add_le_add_iff_right, Nat.max_le, heightOption_le] at h
    simp only [children, List.forall_mem_append, List.forall_mem_singleton]
    exact ⟨Pattern.height_le h.1, h.2⟩
  | .patternPredicate p =>
    simp only [height, Nat.add_le_add_iff_right] at h
    exact Pattern.height_le h
  | .map entries s =>
    simp only [height, Nat.add_le_add_iff_right, heightEntries_le] at h
    exact h
  | .mapProjection name selectors s =>
    simp only [height, Nat.add_le_add_iff_right, heightSelectors_le] at h
    exact h
  | .case e branches otherwise s =>
    simp only [height, Nat.add_le_add_iff_right, Nat.max_le, heightOption_le,
      heightBranches_le] at h
    simp only [children, List.forall_mem_append]
    exact ⟨h.2.1, h.1, h.2.2⟩

end Heights

/-- A child is lower than the expression that holds it. -/
theorem Expression.height_lt_of_mem_children {e c : Expression} (h : c ∈ e.children) :
    c.height < e.height := by
  have hpos := e.height_pos
  have hc := Expression.height_children_le (e := e) (n := e.height - 1) (by omega) c h
  omega

/-! ## Induction and hereditary properties -/

/-- What holds of an expression whenever it holds of its children holds of
all expressions. -/
theorem Expression.childInduction {motive : Expression → Prop}
    (step : ∀ e, (∀ c ∈ e.children, motive c) → motive e) (e : Expression) :
    motive e := by
  generalize hn : e.height = n
  induction n using Nat.strongRecOn generalizing e with
  | ind n ih =>
    refine step e fun c hc => ih c.height ?_ c rfl
    rw [← hn]
    exact height_lt_of_mem_children hc

/-- The property holds of the expression and of all nested in it. -/
inductive Expression.Everywhere (P : Expression → Prop) : Expression → Prop
  | intro {e : Expression} (self : P e) (nested : ∀ c ∈ e.children, Everywhere P c) :
    Everywhere P e

namespace Expression.Everywhere

variable {P Q : Expression → Prop} {e : Expression}

theorem here (h : Everywhere P e) : P e := by
  cases h with
  | intro h _ => exact h

theorem inside (h : Everywhere P e) : ∀ c ∈ e.children, Everywhere P c := by
  cases h with
  | intro _ h => exact h

theorem everywhere_iff :
    Everywhere P e ↔ P e ∧ ∀ c ∈ e.children, Everywhere P c :=
  ⟨fun h => ⟨h.here, h.inside⟩, fun h => ⟨h.1, h.2⟩⟩

theorem mono (h : Everywhere P e) (hPQ : ∀ e, P e → Q e) : Everywhere Q e := by
  induction h with
  | intro here _ ih => exact ⟨hPQ _ here, ih⟩

theorem and (hP : Everywhere P e) (hQ : Everywhere Q e) :
    Everywhere (fun e => P e ∧ Q e) e := by
  induction hP with
  | intro here _ ih => exact ⟨⟨here, hQ.here⟩, fun c hc => ih c hc (hQ.inside c hc)⟩

end Expression.Everywhere

end Cypher
