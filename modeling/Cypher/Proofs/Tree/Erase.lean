import Cypher.Proofs.Tree.Rebuild

/-!
# Trees without their spans

Two trees that were read from different texts are never equal: their spans
differ. `erase` puts every span to nowhere, and two trees are THE SAME up
to their spans when they are equal once erased. The canonical text and the
height of a tree see nothing of its spans.
-/

namespace Cypher

/-- The span of a tree that was read from nowhere. -/
def Span.nowhere : Span := ⟨0, 0⟩

def Expression.erase (e : Expression) : Expression := e.rebuild (fun _ => .nowhere) id

def MapEntry.erase (e : MapEntry) : MapEntry := e.rebuild (fun _ => .nowhere) id

def MapSelector.erase (s : MapSelector) : MapSelector := s.rebuild (fun _ => .nowhere) id

def CaseBranch.erase (b : CaseBranch) : CaseBranch := b.rebuild (fun _ => .nowhere) id

def Properties.erase (p : Properties) : Properties := p.rebuild (fun _ => .nowhere) id

def NodePattern.erase (n : NodePattern) : NodePattern := n.rebuild (fun _ => .nowhere) id

def RelationshipPattern.erase (r : RelationshipPattern) : RelationshipPattern :=
  r.rebuild (fun _ => .nowhere) id

def Link.erase (l : Link) : Link := l.rebuild (fun _ => .nowhere) id

def Pattern.erase (p : Pattern) : Pattern := p.rebuild (fun _ => .nowhere) id

def SetItem.erase (i : SetItem) : SetItem := i.rebuild (fun _ => .nowhere) id

def RemoveItem.erase (i : RemoveItem) : RemoveItem := i.rebuild fun _ => .nowhere

def MergeAction.erase (a : MergeAction) : MergeAction := a.rebuild (fun _ => .nowhere) id

def ProjectionItem.erase (i : ProjectionItem) : ProjectionItem :=
  i.rebuild (fun _ => .nowhere) id

def Projection.erase (p : Projection) : Projection := p.rebuild (fun _ => .nowhere) id

def SortItem.erase (i : SortItem) : SortItem := i.rebuild (fun _ => .nowhere) id

def YieldItem.erase (i : YieldItem) : YieldItem := i.rebuild fun _ => .nowhere

def Clause.erase (c : Clause) : Clause := c.rebuild (fun _ => .nowhere) id

def SingleQuery.erase (q : SingleQuery) : SingleQuery :=
  q.rebuild (fun _ => .nowhere) Clause.erase

def QueryBody.erase (b : QueryBody) : QueryBody :=
  b.rebuild (fun _ => .nowhere) Clause.erase

/-- The query with no trace of where it was read from. -/
def Query.erase (q : Query) : Query := q.rebuild (fun _ => .nowhere) Clause.erase

/-! ## Erasing node by node -/

section Nodes

-- The equations of a rebuilding are made here, once for all the lemmas below.
attribute [local simp] Expression.rebuild Properties.rebuild NodePattern.rebuild
  RelationshipPattern.rebuild Pattern.rebuild

variable (e l r : Expression) (es : List Expression) (o o' : Option Expression)
  (n : String) (ns : List String) (p : Pattern) (s : Span)

namespace Expression

@[simp] theorem erase_literal (v : Literal) :
    (literal v s).erase = literal v .nowhere := rfl

@[simp] theorem erase_variable : («variable» n s).erase = .variable n .nowhere := rfl

@[simp] theorem erase_parameter : (parameter n s).erase = parameter n .nowhere := rfl

@[simp] theorem erase_property :
    (property e n s).erase = property e.erase n .nowhere := rfl

@[simp] theorem erase_index : (index l r s).erase = index l.erase r.erase .nowhere := rfl

@[simp] theorem erase_slice :
    (slice e o o' s).erase = slice e.erase (o.map erase) (o'.map erase) .nowhere := by
  simp only [erase, rebuild, rebuildOption_eq, id]
  rfl

@[simp] theorem erase_list : (list es s).erase = list (es.map erase) .nowhere := by
  simp only [erase, rebuild, rebuildList_eq, id]
  rfl

@[simp] theorem erase_listComprehension :
    (listComprehension n e o o' s).erase
      = listComprehension n e.erase (o.map erase) (o'.map erase) .nowhere := by
  simp only [erase, rebuild, rebuildOption_eq, id]
  rfl

@[simp] theorem erase_patternComprehension :
    (patternComprehension p o e s).erase
      = patternComprehension p.erase (o.map erase) e.erase .nowhere := by
  simp only [erase, rebuild, rebuildOption_eq, id]
  rfl

@[simp] theorem erase_patternPredicate :
    (patternPredicate p).erase = patternPredicate p.erase := rfl

@[simp] theorem erase_map (entries : List MapEntry) :
    (map entries s).erase = map (entries.map MapEntry.erase) .nowhere := by
  simp only [erase, rebuild, rebuildEntries_eq, id]
  rfl

@[simp] theorem erase_mapProjection (selectors : List MapSelector) :
    (mapProjection n selectors s).erase
      = mapProjection n (selectors.map MapSelector.erase) .nowhere := by
  simp only [erase, rebuild, rebuildSelectors_eq, id]
  rfl

@[simp] theorem erase_call : (call ns es s).erase = call ns (es.map erase) .nowhere := by
  simp only [erase, rebuild, rebuildList_eq, id]
  rfl

@[simp] theorem erase_case (branches : List CaseBranch) :
    («case» o branches o' s).erase
      = .case (o.map erase) (branches.map CaseBranch.erase) (o'.map erase) .nowhere := by
  simp only [erase, rebuild, rebuildOption_eq, rebuildBranches_eq, id]
  rfl

@[simp] theorem erase_prefixed (op : PrefixOperator) :
    (prefixed op e s).erase = prefixed op e.erase .nowhere := rfl

@[simp] theorem erase_infixed (op : InfixOperator) :
    (infixed op l r s).erase = infixed op l.erase r.erase .nowhere := rfl

@[simp] theorem erase_nullCheck (negated : Bool) :
    (nullCheck negated e s).erase = nullCheck negated e.erase .nowhere := rfl

@[simp] theorem erase_labelCheck :
    (labelCheck e ns s).erase = labelCheck e.erase ns .nowhere := rfl

@[simp] theorem erase_star : (star s).erase = star .nowhere := rfl

@[simp] theorem erase_hole : (hole s).erase = hole .nowhere := rfl

end Expression

variable (ps : Option Properties)

@[simp] theorem MapEntry.erase_mk :
    (⟨n, e, s⟩ : MapEntry).erase = ⟨n, e.erase, .nowhere⟩ := rfl

@[simp] theorem MapSelector.erase_entry (entry : MapEntry) :
    (MapSelector.entry entry).erase = .entry entry.erase := rfl

@[simp] theorem CaseBranch.erase_mk :
    (⟨l, r, s⟩ : CaseBranch).erase = ⟨l.erase, r.erase, .nowhere⟩ := rfl

@[simp] theorem Properties.erase_map (entries : List MapEntry) :
    (Properties.map entries s).erase = .map (entries.map MapEntry.erase) .nowhere := by
  simp only [erase, rebuild, rebuildEntries_eq]
  rfl

@[simp] theorem Properties.erase_parameter :
    (Properties.parameter n s).erase = .parameter n .nowhere := rfl

@[simp] theorem NodePattern.erase_mk (name : Option String) :
    (⟨name, ns, ps, s⟩ : NodePattern).erase
      = ⟨name, ns, ps.map Properties.erase, .nowhere⟩ := by
  simp only [erase, rebuild, rebuildProperties_eq]
  rfl

@[simp] theorem RelationshipPattern.erase_mk (d : Direction) (name : Option String)
    (hops : Option HopRange) :
    (⟨d, name, ns, hops, ps, s⟩ : RelationshipPattern).erase
      = ⟨d, name, ns, hops, ps.map Properties.erase, .nowhere⟩ := by
  simp only [erase, rebuild, rebuildProperties_eq]
  rfl

@[simp] theorem Link.erase_mk (rel : RelationshipPattern) (node : NodePattern) :
    (⟨rel, node⟩ : Link).erase = ⟨rel.erase, node.erase⟩ := rfl

@[simp] theorem Pattern.erase_mk (name : Option String) (first : NodePattern)
    (chain : List Link) :
    (⟨name, first, chain, s⟩ : Pattern).erase
      = ⟨name, first.erase, chain.map Link.erase, .nowhere⟩ := by
  simp only [erase, rebuild, rebuildLinks_eq]
  rfl

end Nodes

/-! ## What the spans do not touch -/

theorem Expression.glyphs_erase (e : Expression) : e.erase.glyphs = e.glyphs :=
  Expression.glyphs_rebuild (fun _ => rfl) e

theorem Query.glyphs_erase (q : Query) : q.erase.glyphs = q.glyphs :=
  Query.glyphs_rebuild (Clause.glyphs_rebuild fun _ => rfl) q

theorem Expression.height_erase (e : Expression) : e.erase.height = e.height :=
  Expression.height_rebuild e

/-- Expressions that are the same up to their spans are equally high. -/
theorem Expression.height_eq_of_erase_eq {a e : Expression} (h : a.erase = e.erase) :
    a.height = e.height := by
  rw [← a.height_erase, h, e.height_erase]

/-- Queries that are the same up to their spans have one canonical text. -/
theorem Query.text_eq_of_erase_eq {p q : Query} (h : p.erase = q.erase) :
    p.text = q.text := by
  rw [Query.text, Query.text, ← p.glyphs_erase, h, q.glyphs_erase]

end Cypher
