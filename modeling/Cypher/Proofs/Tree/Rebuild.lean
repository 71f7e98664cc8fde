import Cypher.Proofs.Tree.Glyphs
import Cypher.Tree.Query

/-!
# Rebuilding a tree

`rebuild place node` goes through a tree from the leaves up: `place` moves
every span, and `node` may replace every expression once its children are
done. A rebuilding whose `node` keeps the canonical glyphs keeps those of
the whole tree, and one that only moves spans keeps every height.

Clauses hold no clauses, so there the rebuilding is a map; above them, a
query is rebuilt from its clauses.
-/

namespace Cypher

/-! ## Expressions and patterns -/

section Rebuild

variable (place : Span → Span) (node : Expression → Expression)

mutual

def Expression.rebuild : Expression → Expression
  | .literal v s => node (.literal v (place s))
  | .variable n s => node (.variable n (place s))
  | .parameter n s => node (.parameter n (place s))
  | .property e k s => node (.property e.rebuild k (place s))
  | .index l r s => node (.index l.rebuild r.rebuild (place s))
  | .slice e lower upper s =>
    node (.slice e.rebuild (rebuildOption lower) (rebuildOption upper) (place s))
  | .list es s => node (.list (rebuildList es) (place s))
  | .listComprehension n e filter projection s =>
    node (.listComprehension n e.rebuild (rebuildOption filter)
      (rebuildOption projection) (place s))
  | .patternComprehension p filter e s =>
    node (.patternComprehension p.rebuild (rebuildOption filter) e.rebuild (place s))
  | .patternPredicate p => node (.patternPredicate p.rebuild)
  | .map entries s => node (.map (rebuildEntries entries) (place s))
  | .mapProjection n selectors s =>
    node (.mapProjection n (rebuildSelectors selectors) (place s))
  | .call n es s => node (.call n (rebuildList es) (place s))
  | .case e branches otherwise s =>
    node (.case (rebuildOption e) (rebuildBranches branches)
      (rebuildOption otherwise) (place s))
  | .prefixed op e s => node (.prefixed op e.rebuild (place s))
  | .infixed op l r s => node (.infixed op l.rebuild r.rebuild (place s))
  | .nullCheck negated e s => node (.nullCheck negated e.rebuild (place s))
  | .labelCheck e ls s => node (.labelCheck e.rebuild ls (place s))
  | .star s => node (.star (place s))
  | .hole s => node (.hole (place s))

def rebuildOption : Option Expression → Option Expression
  | none => none
  | some e => some e.rebuild

def rebuildList : List Expression → List Expression
  | [] => []
  | e :: es => e.rebuild :: rebuildList es

def MapEntry.rebuild : MapEntry → MapEntry
  | ⟨k, e, s⟩ => ⟨k, e.rebuild, place s⟩

def rebuildEntries : List MapEntry → List MapEntry
  | [] => []
  | e :: es => e.rebuild :: rebuildEntries es

def MapSelector.rebuild : MapSelector → MapSelector
  | .property k s => .property k (place s)
  | .everything s => .everything (place s)
  | .entry e => .entry e.rebuild
  | .variable n s => .variable n (place s)

def rebuildSelectors : List MapSelector → List MapSelector
  | [] => []
  | s :: ss => s.rebuild :: rebuildSelectors ss

def CaseBranch.rebuild : CaseBranch → CaseBranch
  | ⟨c, r, s⟩ => ⟨c.rebuild, r.rebuild, place s⟩

def rebuildBranches : List CaseBranch → List CaseBranch
  | [] => []
  | b :: bs => b.rebuild :: rebuildBranches bs

def Properties.rebuild : Properties → Properties
  | .map entries s => .map (rebuildEntries entries) (place s)
  | .parameter n s => .parameter n (place s)

def rebuildProperties : Option Properties → Option Properties
  | none => none
  | some p => some p.rebuild

def NodePattern.rebuild : NodePattern → NodePattern
  | ⟨n, ls, p, s⟩ => ⟨n, ls, rebuildProperties p, place s⟩

def RelationshipPattern.rebuild : RelationshipPattern → RelationshipPattern
  | ⟨d, n, ts, h, p, s⟩ => ⟨d, n, ts, h, rebuildProperties p, place s⟩

def Link.rebuild : Link → Link
  | ⟨r, n⟩ => ⟨r.rebuild, n.rebuild⟩

def rebuildLinks : List Link → List Link
  | [] => []
  | l :: ls => l.rebuild :: rebuildLinks ls

def Pattern.rebuild : Pattern → Pattern
  | ⟨n, start, chain, s⟩ => ⟨n, start.rebuild, rebuildLinks chain, place s⟩

end

/-! ## Clauses and queries -/

def PropertyPath.rebuild (p : PropertyPath) : PropertyPath :=
  { p with span := place p.span }

def SetItem.rebuild : SetItem → SetItem
  | .property target how e s =>
    .property (target.rebuild place) how (e.rebuild place node) (place s)
  | .variable n how e s => .variable n how (e.rebuild place node) (place s)
  | .labels n ls s => .labels n ls (place s)

def RemoveItem.rebuild : RemoveItem → RemoveItem
  | .property target => .property (target.rebuild place)
  | .labels n ls s => .labels n ls (place s)

def MergeAction.rebuild (a : MergeAction) : MergeAction where
  trigger := a.trigger
  items := a.items.map (SetItem.rebuild place node)
  span := place a.span

def ProjectionItem.rebuild : ProjectionItem → ProjectionItem
  | .everything s => .everything (place s)
  | .expression e n s => .expression (e.rebuild place node) n (place s)

def Projection.rebuild (p : Projection) : Projection where
  distinct := p.distinct
  items := p.items.map (ProjectionItem.rebuild place node)
  span := place p.span

def SortItem.rebuild (i : SortItem) : SortItem where
  key := i.key.rebuild place node
  direction := i.direction
  span := place i.span

def YieldItem.rebuild (i : YieldItem) : YieldItem := { i with span := place i.span }

def Clause.rebuild : Clause → Clause
  | .matchPatterns kind ps filter s =>
    .matchPatterns kind (ps.map (Pattern.rebuild place node))
      (filter.map (Expression.rebuild place node)) (place s)
  | .create ps s => .create (ps.map (Pattern.rebuild place node)) (place s)
  | .merge ps actions s =>
    .merge (ps.map (Pattern.rebuild place node))
      (actions.map (MergeAction.rebuild place node)) (place s)
  | .set items s => .set (items.map (SetItem.rebuild place node)) (place s)
  | .delete detach es s =>
    .delete detach (es.map (Expression.rebuild place node)) (place s)
  | .remove items s => .remove (items.map (RemoveItem.rebuild place)) (place s)
  | .withProjection p filter s =>
    .withProjection (p.rebuild place node) (filter.map (Expression.rebuild place node))
      (place s)
  | .unwind e n s => .unwind (e.rebuild place node) n (place s)
  | .returnProjection p s => .returnProjection (p.rebuild place node) (place s)
  | .orderBy items s => .orderBy (items.map (SortItem.rebuild place node)) (place s)
  | .skip e s => .skip (e.rebuild place node) (place s)
  | .limit e s => .limit (e.rebuild place node) (place s)
  | .call n es fields filter s =>
    .call n (es.map (·.map (Expression.rebuild place node)))
      (fields.map (·.map (YieldItem.rebuild place)))
      (filter.map (Expression.rebuild place node)) (place s)

section Query

variable (clause : Clause → Clause)

def SingleQuery.rebuild (q : SingleQuery) : SingleQuery where
  clauses := q.clauses.map clause
  span := place q.span

def QueryBody.rebuild : QueryBody → QueryBody
  | .single q => .single (q.rebuild place clause)
  | .union all left right s =>
    .union all left.rebuild (right.rebuild place clause) (place s)

def Query.rebuild (q : Query) : Query where
  version := q.version
  body := q.body.rebuild place clause
  span := place q.span

end Query

/-! ## Companions -/

variable {place node}

@[simp] theorem rebuildOption_eq (e : Option Expression) :
    rebuildOption place node e = e.map (Expression.rebuild place node) := by
  cases e <;> rfl

@[simp] theorem rebuildList_eq (es : List Expression) :
    rebuildList place node es = es.map (Expression.rebuild place node) := by
  induction es with
  | nil => rfl
  | cons e es ih => rw [rebuildList, ih, List.map_cons]

@[simp] theorem rebuildEntries_eq (es : List MapEntry) :
    rebuildEntries place node es = es.map (MapEntry.rebuild place node) := by
  induction es with
  | nil => rfl
  | cons e es ih => rw [rebuildEntries, ih, List.map_cons]

@[simp] theorem rebuildSelectors_eq (ss : List MapSelector) :
    rebuildSelectors place node ss = ss.map (MapSelector.rebuild place node) := by
  induction ss with
  | nil => rfl
  | cons s ss ih => rw [rebuildSelectors, ih, List.map_cons]

@[simp] theorem rebuildBranches_eq (bs : List CaseBranch) :
    rebuildBranches place node bs = bs.map (CaseBranch.rebuild place node) := by
  induction bs with
  | nil => rfl
  | cons b bs ih => rw [rebuildBranches, ih, List.map_cons]

@[simp] theorem rebuildProperties_eq (p : Option Properties) :
    rebuildProperties place node p = p.map (Properties.rebuild place node) := by
  cases p <;> rfl

@[simp] theorem rebuildLinks_eq (ls : List Link) :
    rebuildLinks place node ls = ls.map (Link.rebuild place node) := by
  induction ls with
  | nil => rfl
  | cons l ls ih => rw [rebuildLinks, ih, List.map_cons]

end Rebuild

/-! ## What rebuilding keeps -/

section Glyphs

variable {place : Span → Span} {node : Expression → Expression}

/-- The expression has the same glyphs when it is rebuilt. -/
private abbrev Kept (place : Span → Span) (node : Expression → Expression)
    (e : Expression) : Prop :=
  (e.rebuild place node).glyphs = e.glyphs

private theorem option_glyphs_rebuild {e : Option Expression}
    (h : ∀ c ∈ e.toList, Kept place node c) :
    (e.map (Expression.rebuild place node)).map Expression.glyphs
      = e.map Expression.glyphs := by
  cases e with
  | none => rfl
  | some e => rw [Option.map_some, Option.map_some, h e (by simp), Option.map_some]

private theorem list_glyphs_rebuild {es : List Expression}
    (h : ∀ c ∈ es, Kept place node c) :
    (es.map (Expression.rebuild place node)).map Expression.glyphs
      = es.map Expression.glyphs := by
  rw [List.map_map]
  exact List.map_congr_left h

private theorem MapEntry.glyphs_rebuild {e : MapEntry} (h : Kept place node e.value) :
    (e.rebuild place node).glyphs = e.glyphs := by
  cases e with
  | mk k v s => simp only [MapEntry.rebuild, MapEntry.glyphs, h]

private theorem entries_glyphs_rebuild {es : List MapEntry}
    (h : ∀ c ∈ es.map MapEntry.value, Kept place node c) :
    (es.map (MapEntry.rebuild place node)).map MapEntry.glyphs
      = es.map MapEntry.glyphs := by
  rw [List.map_map]
  refine List.map_congr_left fun e he => ?_
  exact MapEntry.glyphs_rebuild (h _ (List.mem_map_of_mem he))

private theorem MapSelector.glyphs_rebuild {s : MapSelector}
    (h : ∀ c ∈ s.values, Kept place node c) :
    (s.rebuild place node).glyphs = s.glyphs := by
  cases s with
  | property | everything => rfl
  | entry e => exact MapEntry.glyphs_rebuild (h _ (List.mem_singleton_self _))
  | «variable» => rfl

private theorem CaseBranch.glyphs_rebuild {b : CaseBranch}
    (h : ∀ c ∈ b.values, Kept place node c) :
    (b.rebuild place node).glyphs = b.glyphs := by
  cases b with
  | mk c r s =>
    have hc : Kept place node c := h c (by simp [CaseBranch.values])
    have hr : Kept place node r := h r (by simp [CaseBranch.values])
    simp only [CaseBranch.rebuild, CaseBranch.glyphs, hc, hr]

private theorem glyphsProperties_rebuild {p : Option Properties}
    (h : ∀ c ∈ p.toList.flatMap Properties.values, Kept place node c) :
    glyphsProperties (p.map (Properties.rebuild place node)) = glyphsProperties p := by
  match p with
  | none => rfl
  | some (.parameter _ _) => rfl
  | some (.map es s) =>
    have hes : ∀ c ∈ es.map MapEntry.value, Kept place node c := by
      simpa [Properties.values] using h
    simp only [Option.map_some, glyphsProperties, Properties.rebuild, Properties.glyphs,
      rebuildEntries_eq, glyphsEntries_eq, entries_glyphs_rebuild hes]

private theorem NodePattern.glyphs_rebuild {n : NodePattern}
    (h : ∀ c ∈ n.values, Kept place node c) :
    (n.rebuild place node).glyphs = n.glyphs := by
  cases n
  simp only [NodePattern.rebuild, NodePattern.glyphs, rebuildProperties_eq,
    glyphsProperties_rebuild h]

private theorem RelationshipPattern.glyphs_rebuild {r : RelationshipPattern}
    (h : ∀ c ∈ r.values, Kept place node c) :
    (r.rebuild place node).glyphs = r.glyphs := by
  cases r
  simp only [RelationshipPattern.rebuild, RelationshipPattern.glyphs,
    rebuildProperties_eq, glyphsProperties_rebuild h]

private theorem Link.glyphs_rebuild {l : Link} (h : ∀ c ∈ l.values, Kept place node c) :
    (l.rebuild place node).glyphs = l.glyphs := by
  cases l
  rw [Link.values, List.forall_mem_append] at h
  simp only [Link.rebuild, Link.glyphs, RelationshipPattern.glyphs_rebuild h.1,
    NodePattern.glyphs_rebuild h.2]

theorem Pattern.glyphs_rebuild_of {p : Pattern} (h : ∀ c ∈ p.values, Kept place node c) :
    (p.rebuild place node).glyphs = p.glyphs := by
  cases p with
  | mk n start chain s =>
    rw [Pattern.values, List.forall_mem_append] at h
    have hchain : (chain.map (Link.rebuild place node)).flatMap Link.glyphs
        = chain.flatMap Link.glyphs := by
      rw [List.flatMap_map]
      refine List.flatMap_congr fun l hl => ?_
      exact Link.glyphs_rebuild fun c hc => h.2 c (List.mem_flatMap_of_mem hl hc)
    cases n <;>
      simp only [Pattern.rebuild, Pattern.glyphs, rebuildLinks_eq, glyphsLinks_eq, hchain,
        NodePattern.glyphs_rebuild h.1]

/-- A tree keeps its glyphs when each node does. -/
theorem Expression.glyphs_rebuild (hnode : ∀ e, (node e).glyphs = e.glyphs)
    (e : Expression) : (e.rebuild place node).glyphs = e.glyphs := by
  induction e using Expression.childInduction with
  | step e ih =>
    match e with
    | .literal .. | .variable .. | .parameter .. | .star _ | .hole _ =>
      simp only [rebuild, hnode, glyphs]
    | .property .. | .nullCheck .. | .labelCheck .. | .index .. | .infixed .. =>
      simp only [children, List.forall_mem_cons] at ih
      simp only [rebuild, hnode, glyphs, ih]
    | .prefixed op .. =>
      simp only [children, List.forall_mem_cons] at ih
      cases op <;> simp only [rebuild, hnode, glyphs, ih]
    | .slice .. | .listComprehension .. =>
      simp only [children, List.forall_mem_cons, List.forall_mem_append] at ih
      simp only [rebuild, hnode, glyphs, rebuildOption_eq, glyphsOption_eq, glyphsWhere_eq,
        glyphsBar_eq, option_glyphs_rebuild ih.2.1, option_glyphs_rebuild ih.2.2, ih.1]
    | .list .. | .call .. =>
      simp only [children] at ih
      simp only [rebuild, hnode, glyphs, rebuildList_eq, glyphsList_eq, list_glyphs_rebuild ih]
    | .patternComprehension p filter e s =>
      simp only [children, List.forall_mem_append, List.forall_mem_singleton] at ih
      simp only [rebuild, hnode, glyphs, rebuildOption_eq, glyphsWhere_eq,
        Pattern.glyphs_rebuild_of ih.1, option_glyphs_rebuild ih.2.1, ih.2.2]
    | .patternPredicate p =>
      simp only [rebuild, hnode, glyphs, Pattern.glyphs_rebuild_of ih]
    | .map entries s =>
      simp only [rebuild, hnode, glyphs, rebuildEntries_eq, glyphsEntries_eq,
        entries_glyphs_rebuild ih]
    | .mapProjection n selectors s =>
      have hs : (selectors.map (MapSelector.rebuild place node)).map MapSelector.glyphs
          = selectors.map MapSelector.glyphs := by
        rw [List.map_map]
        refine List.map_congr_left fun s hs => ?_
        exact MapSelector.glyphs_rebuild fun c hc => ih c (List.mem_flatMap_of_mem hs hc)
      simp only [rebuild, hnode, glyphs, rebuildSelectors_eq, glyphsSelectors_eq, hs]
    | .case e branches otherwise s =>
      simp only [children, List.forall_mem_append] at ih
      have hb : (branches.map (CaseBranch.rebuild place node)).flatMap CaseBranch.glyphs
          = branches.flatMap CaseBranch.glyphs := by
        rw [List.flatMap_map]
        refine List.flatMap_congr fun b hb => ?_
        exact CaseBranch.glyphs_rebuild fun c hc => ih.2.1 c (List.mem_flatMap_of_mem hb hc)
      simp only [rebuild, hnode, glyphs, rebuildOption_eq, rebuildBranches_eq,
        glyphsBranches_eq, hb, glyphsSpaced_eq, glyphsElse_eq,
        option_glyphs_rebuild ih.1, option_glyphs_rebuild ih.2.2]

theorem Pattern.glyphs_rebuild (hnode : ∀ e, (node e).glyphs = e.glyphs) (p : Pattern) :
    (p.rebuild place node).glyphs = p.glyphs :=
  Pattern.glyphs_rebuild_of fun e _ => Expression.glyphs_rebuild hnode e

/-- Mapping parts by a function that keeps their glyphs keeps the glyphs. -/
private theorem map_glyphs {α : Type} {f : α → α} {g : α → List Glyph}
    (h : ∀ a, g (f a) = g a) (as : List α) : (as.map f).map g = as.map g := by
  rw [List.map_map]
  exact List.map_congr_left fun a _ => h a

private theorem SetItem.glyphs_rebuild (hnode : ∀ e, (node e).glyphs = e.glyphs)
    (i : SetItem) : (i.rebuild place node).glyphs = i.glyphs := by
  cases i <;>
    simp only [SetItem.rebuild, SetItem.glyphs, Expression.glyphs_rebuild hnode,
      PropertyPath.rebuild, PropertyPath.glyphs]

private theorem MergeAction.glyphs_rebuild (hnode : ∀ e, (node e).glyphs = e.glyphs)
    (a : MergeAction) : (a.rebuild place node).glyphs = a.glyphs := by
  simp only [MergeAction.rebuild, MergeAction.glyphs,
    map_glyphs (SetItem.glyphs_rebuild hnode)]

private theorem ProjectionItem.glyphs_rebuild (hnode : ∀ e, (node e).glyphs = e.glyphs)
    (i : ProjectionItem) : (i.rebuild place node).glyphs = i.glyphs := by
  cases i <;>
    simp only [ProjectionItem.rebuild, ProjectionItem.glyphs, Expression.glyphs_rebuild hnode]

private theorem Projection.glyphs_rebuild (hnode : ∀ e, (node e).glyphs = e.glyphs)
    (p : Projection) : (p.rebuild place node).glyphs = p.glyphs := by
  unfold Projection.glyphs
  rw [Projection.rebuild, map_glyphs (ProjectionItem.glyphs_rebuild hnode)]

private theorem SortItem.glyphs_rebuild (hnode : ∀ e, (node e).glyphs = e.glyphs)
    (i : SortItem) : (i.rebuild place node).glyphs = i.glyphs := by
  simp only [SortItem.rebuild, SortItem.glyphs, Expression.glyphs_rebuild hnode]

private theorem RemoveItem.glyphs_rebuild (i : RemoveItem) :
    (i.rebuild place).glyphs = i.glyphs := by
  cases i <;> rfl

private theorem YieldItem.glyphs_rebuild (i : YieldItem) :
    (i.rebuild place).glyphs = i.glyphs := rfl

private theorem filter_glyphs_rebuild (hnode : ∀ e, (node e).glyphs = e.glyphs)
    (e : Option Expression) :
    glyphsWhere (e.map (Expression.rebuild place node)) = glyphsWhere e := by
  cases e with
  | none => rfl
  | some e => simp only [Option.map_some, glyphsWhere, Expression.glyphs_rebuild hnode]

theorem Clause.glyphs_rebuild (hnode : ∀ e, (node e).glyphs = e.glyphs) (c : Clause) :
    (c.rebuild place node).glyphs = c.glyphs := by
  cases c with
  | call n es fields filter s =>
    cases es <;> cases fields <;>
      simp only [Clause.rebuild, Clause.glyphs, Option.map_none, Option.map_some,
        map_glyphs (Expression.glyphs_rebuild hnode), map_glyphs YieldItem.glyphs_rebuild,
        filter_glyphs_rebuild hnode]
  | merge ps actions s =>
    have ha : (actions.map (MergeAction.rebuild place node)).flatMap MergeAction.glyphs
        = actions.flatMap MergeAction.glyphs := by
      rw [List.flatMap_map]
      exact List.flatMap_congr fun a _ => MergeAction.glyphs_rebuild hnode a
    simp only [Clause.rebuild, Clause.glyphs, map_glyphs (Pattern.glyphs_rebuild hnode), ha]
  | _ =>
    simp only [Clause.rebuild, Clause.glyphs, map_glyphs (Pattern.glyphs_rebuild hnode),
      map_glyphs (SetItem.glyphs_rebuild hnode), map_glyphs (SortItem.glyphs_rebuild hnode),
      map_glyphs RemoveItem.glyphs_rebuild, map_glyphs (Expression.glyphs_rebuild hnode),
      Projection.glyphs_rebuild hnode, filter_glyphs_rebuild hnode,
      Expression.glyphs_rebuild hnode]

/-- A query keeps its glyphs when each clause does. -/
theorem Query.glyphs_rebuild {clause : Clause → Clause}
    (hclause : ∀ c, (clause c).glyphs = c.glyphs) (q : Query) :
    (q.rebuild place clause).glyphs = q.glyphs := by
  have hsingle (q : SingleQuery) : (q.rebuild place clause).glyphs = q.glyphs := by
    simp only [SingleQuery.rebuild, SingleQuery.glyphs, map_glyphs hclause]
  have hbody (b : QueryBody) : (b.rebuild place clause).glyphs = b.glyphs := by
    induction b with
    | single q => exact hsingle q
    | union all left right s ih =>
      simp only [QueryBody.rebuild, QueryBody.glyphs, ih, hsingle]
  cases q with
  | mk version body s =>
    cases version <;> simp only [Query.rebuild, Query.glyphs, hbody]

end Glyphs

section Height

variable {place : Span → Span}

/-- The expression has the same height when only its spans are moved. -/
private abbrev SameHeight (place : Span → Span) (e : Expression) : Prop :=
  (e.rebuild place id).height = e.height

private theorem heightOption_rebuild {e : Option Expression}
    (h : ∀ c ∈ e.toList, SameHeight place c) :
    heightOption (e.map (Expression.rebuild place id)) = heightOption e := by
  cases e with
  | none => rfl
  | some e => exact h e (by simp)

private theorem heightList_rebuild {es : List Expression} (h : ∀ c ∈ es, SameHeight place c) :
    heightList (es.map (Expression.rebuild place id)) = heightList es := by
  induction es with
  | nil => rfl
  | cons e es ih =>
    rw [List.forall_mem_cons] at h
    rw [List.map_cons, heightList, heightList, h.1, ih h.2]

private theorem MapEntry.height_rebuild {e : MapEntry} (h : SameHeight place e.value) :
    (e.rebuild place id).height = e.height := by
  cases e with
  | mk k v s => simp only [MapEntry.rebuild, MapEntry.height, h]

private theorem heightEntries_rebuild {es : List MapEntry}
    (h : ∀ c ∈ es.map MapEntry.value, SameHeight place c) :
    heightEntries (es.map (MapEntry.rebuild place id)) = heightEntries es := by
  induction es with
  | nil => rfl
  | cons e es ih =>
    rw [List.map_cons, List.forall_mem_cons] at h
    rw [List.map_cons, heightEntries, heightEntries, MapEntry.height_rebuild h.1, ih h.2]

private theorem heightSelectors_rebuild {ss : List MapSelector}
    (h : ∀ c ∈ ss.flatMap MapSelector.values, SameHeight place c) :
    heightSelectors (ss.map (MapSelector.rebuild place id)) = heightSelectors ss := by
  induction ss with
  | nil => rfl
  | cons s ss ih =>
    rw [List.flatMap_cons, List.forall_mem_append] at h
    have hs : (s.rebuild place id).height = s.height := by
      cases s with
      | property | everything => rfl
      | entry e => exact MapEntry.height_rebuild (h.1 _ (List.mem_singleton_self _))
      | «variable» => rfl
    rw [List.map_cons, heightSelectors, heightSelectors, hs, ih h.2]

private theorem heightBranches_rebuild {bs : List CaseBranch}
    (h : ∀ c ∈ bs.flatMap CaseBranch.values, SameHeight place c) :
    heightBranches (bs.map (CaseBranch.rebuild place id)) = heightBranches bs := by
  induction bs with
  | nil => rfl
  | cons b bs ih =>
    rw [List.flatMap_cons, List.forall_mem_append] at h
    have hb : (b.rebuild place id).height = b.height := by
      cases b with
      | mk c r s =>
        have hc : SameHeight place c := h.1 c (by simp [CaseBranch.values])
        have hr : SameHeight place r := h.1 r (by simp [CaseBranch.values])
        simp only [CaseBranch.rebuild, CaseBranch.height, hc, hr]
    rw [List.map_cons, heightBranches, heightBranches, hb, ih h.2]

private theorem heightProperties_rebuild {p : Option Properties}
    (h : ∀ c ∈ p.toList.flatMap Properties.values, SameHeight place c) :
    heightProperties (p.map (Properties.rebuild place id)) = heightProperties p := by
  match p with
  | none => rfl
  | some (.parameter _ _) => rfl
  | some (.map [] s) => simp [Properties.rebuild, heightProperties, Properties.height]
  | some (.map (e :: es) s) =>
    have h : ∀ c ∈ (e :: es).map MapEntry.value, SameHeight place c := by
      simpa [Properties.values] using h
    rw [List.map_cons, List.forall_mem_cons] at h
    simp only [Option.map_some, heightProperties, Properties.rebuild, rebuildEntries_eq,
      List.map_cons, Properties.height, MapEntry.height_rebuild h.1,
      heightEntries_rebuild h.2]

private theorem Link.height_rebuild {l : Link} (h : ∀ c ∈ l.values, SameHeight place c) :
    (l.rebuild place id).height = l.height := by
  cases l with
  | mk r n =>
    cases r
    cases n
    rw [Link.values, List.forall_mem_append] at h
    simp only [Link.rebuild, Link.height, RelationshipPattern.rebuild, NodePattern.rebuild,
      RelationshipPattern.height, NodePattern.height, rebuildProperties_eq,
      heightProperties_rebuild h.1, heightProperties_rebuild h.2]

private theorem Pattern.height_rebuild {p : Pattern} (h : ∀ c ∈ p.values, SameHeight place c) :
    (p.rebuild place id).height = p.height := by
  cases p with
  | mk n start chain s =>
    cases start
    rw [Pattern.values, List.forall_mem_append] at h
    have hchain : heightLinks (chain.map (Link.rebuild place id)) = heightLinks chain := by
      replace h := h.2
      induction chain with
      | nil => rfl
      | cons l ls ih =>
        rw [List.flatMap_cons, List.forall_mem_append] at h
        rw [List.map_cons, heightLinks, heightLinks, Link.height_rebuild h.1, ih h.2]
    simp only [Pattern.rebuild, Pattern.height, NodePattern.rebuild, NodePattern.height,
      rebuildProperties_eq, rebuildLinks_eq, hchain, heightProperties_rebuild h.1]

/-- Spans have no part in the height. -/
theorem Expression.height_rebuild (e : Expression) :
    (e.rebuild place id).height = e.height := by
  induction e using Expression.childInduction with
  | step e ih =>
    match e with
    | .literal .. | .variable .. | .parameter .. | .star _ | .hole _ => rfl
    | .property .. | .nullCheck .. | .labelCheck .. | .index .. | .infixed ..
    | .prefixed .. =>
      simp only [children, List.forall_mem_cons] at ih
      simp only [rebuild, id, height, ih]
    | .slice .. | .listComprehension .. =>
      simp only [children, List.forall_mem_cons, List.forall_mem_append] at ih
      simp only [rebuild, id, height, rebuildOption_eq, heightOption_rebuild ih.2.1,
        heightOption_rebuild ih.2.2, ih.1]
    | .list .. | .call .. =>
      simp only [children] at ih
      simp only [rebuild, id, height, rebuildList_eq, heightList_rebuild ih]
    | .patternComprehension .. =>
      simp only [children, List.forall_mem_append, List.forall_mem_singleton] at ih
      simp only [rebuild, id, height, rebuildOption_eq, Pattern.height_rebuild ih.1,
        heightOption_rebuild ih.2.1, ih.2.2]
    | .patternPredicate _ => simp only [rebuild, id, height, Pattern.height_rebuild ih]
    | .map .. =>
      simp only [rebuild, id, height, rebuildEntries_eq, heightEntries_rebuild ih]
    | .mapProjection .. =>
      simp only [rebuild, id, height, rebuildSelectors_eq, heightSelectors_rebuild ih]
    | .case .. =>
      simp only [children, List.forall_mem_append] at ih
      simp only [rebuild, id, height, rebuildOption_eq, rebuildBranches_eq,
        heightBranches_rebuild ih.2.1, heightOption_rebuild ih.1,
        heightOption_rebuild ih.2.2]

end Height

end Cypher
