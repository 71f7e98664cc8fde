import Cypher.Proofs.Tree.Erase
import Cypher.Proofs.Tree.Recast

/-!
# Recasting spans alone

A recasting that leaves the names as they are rebuilds a tree with its spans
moved and nothing else changed. The one that puts every offset to nowhere
erases the spans.
-/

namespace Cypher

variable {offset : Nat → Nat}

/-- The offsets are moved and the names left as they are. -/
def Recasting.moving (offset : Nat → Nat) : Recasting := ⟨offset, id⟩

section Moving

@[simp] theorem Recasting.spell_moving : (Recasting.moving offset).spell = id := rfl

mutual

theorem Expression.recast_moving : ∀ e : Expression,
    e.recast (.moving offset) = e.rebuild (Span.recast (.moving offset)) id
  | .literal .. | .variable .. | .parameter .. | .star _ | .hole _ => rfl
  | .property e _ _ | .prefixed _ e _ | .nullCheck _ e _ | .labelCheck e _ _ => by
    simp [Expression.recast, Expression.rebuild, e.recast_moving]
  | .index l r _ | .infixed _ l r _ => by
    simp only [Expression.recast, Expression.rebuild, l.recast_moving, r.recast_moving, id]
  | .slice e lower upper _ => by
    simp only [Expression.recast, Expression.rebuild, e.recast_moving,
      recastOption_moving lower, recastOption_moving upper, id]
  | .list es _ => by
    simp only [Expression.recast, Expression.rebuild, recastList_moving es, id]
  | .call _ es _ => by
    simp only [Expression.recast, Expression.rebuild, recastList_moving es, id,
      Recasting.spell_moving, List.map_id]
  | .listComprehension _ e filter projection _ => by
    simp only [Expression.recast, Expression.rebuild, e.recast_moving,
      recastOption_moving filter, recastOption_moving projection, id]
  | .patternComprehension p filter e _ => by
    simp only [Expression.recast, Expression.rebuild, p.recast_moving,
      recastOption_moving filter, e.recast_moving, id]
  | .patternPredicate p => by
    simp only [Expression.recast, Expression.rebuild, p.recast_moving, id]
  | .map entries _ => by
    simp only [Expression.recast, Expression.rebuild, recastEntries_moving entries, id]
  | .mapProjection _ selectors _ => by
    simp only [Expression.recast, Expression.rebuild, recastSelectors_moving selectors, id]
  | .case e branches otherwise _ => by
    simp only [Expression.recast, Expression.rebuild, recastOption_moving e,
      recastBranches_moving branches, recastOption_moving otherwise, id]

theorem recastOption_moving : ∀ e : Option Expression,
    recastOption (.moving offset) e = rebuildOption (Span.recast (.moving offset)) id e
  | none => rfl
  | some e => by simp only [recastOption, rebuildOption, e.recast_moving]

theorem recastList_moving : ∀ es : List Expression,
    recastList (.moving offset) es = rebuildList (Span.recast (.moving offset)) id es
  | [] => rfl
  | e :: es => by simp only [recastList, rebuildList, e.recast_moving, recastList_moving es]

theorem MapEntry.recast_moving : ∀ e : MapEntry,
    e.recast (.moving offset) = e.rebuild (Span.recast (.moving offset)) id
  | ⟨_, e, _⟩ => by
    simp only [MapEntry.recast, MapEntry.rebuild, e.recast_moving, Recasting.spell_moving, id]

theorem recastEntries_moving : ∀ es : List MapEntry,
    recastEntries (.moving offset) es = rebuildEntries (Span.recast (.moving offset)) id es
  | [] => rfl
  | e :: es => by
    simp only [recastEntries, rebuildEntries, e.recast_moving, recastEntries_moving es]

theorem MapSelector.recast_moving : ∀ s : MapSelector,
    s.recast (.moving offset) = s.rebuild (Span.recast (.moving offset)) id
  | .property .. | .everything _ | .variable .. => rfl
  | .entry e => by simp only [MapSelector.recast, MapSelector.rebuild, e.recast_moving]

theorem recastSelectors_moving : ∀ ss : List MapSelector,
    recastSelectors (.moving offset) ss = rebuildSelectors (Span.recast (.moving offset)) id ss
  | [] => rfl
  | s :: ss => by
    simp only [recastSelectors, rebuildSelectors, s.recast_moving, recastSelectors_moving ss]

theorem CaseBranch.recast_moving : ∀ b : CaseBranch,
    b.recast (.moving offset) = b.rebuild (Span.recast (.moving offset)) id
  | ⟨c, e, _⟩ => by
    simp only [CaseBranch.recast, CaseBranch.rebuild, c.recast_moving, e.recast_moving]

theorem recastBranches_moving : ∀ bs : List CaseBranch,
    recastBranches (.moving offset) bs = rebuildBranches (Span.recast (.moving offset)) id bs
  | [] => rfl
  | b :: bs => by
    simp only [recastBranches, rebuildBranches, b.recast_moving, recastBranches_moving bs]

theorem Properties.recast_moving : ∀ p : Properties,
    p.recast (.moving offset) = p.rebuild (Span.recast (.moving offset)) id
  | .map entries _ => by
    simp only [Properties.recast, Properties.rebuild, recastEntries_moving entries]
  | .parameter .. => rfl

theorem recastProperties_moving : ∀ p : Option Properties,
    recastProperties (.moving offset) p = rebuildProperties (Span.recast (.moving offset)) id p
  | none => rfl
  | some p => by simp only [recastProperties, rebuildProperties, p.recast_moving]

theorem NodePattern.recast_moving : ∀ n : NodePattern,
    n.recast (.moving offset) = n.rebuild (Span.recast (.moving offset)) id
  | ⟨_, _, p, _⟩ => by
    simp only [NodePattern.recast, NodePattern.rebuild, recastProperties_moving p,
      Recasting.spell_moving, List.map_id]

theorem RelationshipPattern.recast_moving : ∀ rel : RelationshipPattern,
    rel.recast (.moving offset) = rel.rebuild (Span.recast (.moving offset)) id
  | ⟨_, _, _, _, p, _⟩ => by
    simp only [RelationshipPattern.recast, RelationshipPattern.rebuild,
      recastProperties_moving p, Recasting.spell_moving, List.map_id]

theorem Link.recast_moving : ∀ l : Link,
    l.recast (.moving offset) = l.rebuild (Span.recast (.moving offset)) id
  | ⟨rel, n⟩ => by simp only [Link.recast, Link.rebuild, rel.recast_moving, n.recast_moving]

theorem recastLinks_moving : ∀ ls : List Link,
    recastLinks (.moving offset) ls = rebuildLinks (Span.recast (.moving offset)) id ls
  | [] => rfl
  | l :: ls => by simp only [recastLinks, rebuildLinks, l.recast_moving, recastLinks_moving ls]

theorem Pattern.recast_moving : ∀ p : Pattern,
    p.recast (.moving offset) = p.rebuild (Span.recast (.moving offset)) id
  | ⟨_, start, chain, _⟩ => by
    simp only [Pattern.recast, Pattern.rebuild, start.recast_moving, recastLinks_moving chain]

end

theorem SetItem.recast_moving (i : SetItem) :
    i.recast (.moving offset) = i.rebuild (Span.recast (.moving offset)) id := by
  cases i <;> simp [SetItem.recast, SetItem.rebuild, PropertyPath.recast, PropertyPath.rebuild,
    Expression.recast_moving]

theorem RemoveItem.recast_moving (i : RemoveItem) :
    i.recast (.moving offset) = i.rebuild (Span.recast (.moving offset)) := by
  cases i <;> simp [RemoveItem.recast, RemoveItem.rebuild, PropertyPath.recast,
    PropertyPath.rebuild]

theorem MergeAction.recast_moving (a : MergeAction) :
    a.recast (.moving offset) = a.rebuild (Span.recast (.moving offset)) id := by
  simp only [MergeAction.recast, MergeAction.rebuild, funext SetItem.recast_moving]

theorem ProjectionItem.recast_moving (i : ProjectionItem) :
    i.recast (.moving offset) = i.rebuild (Span.recast (.moving offset)) id := by
  cases i <;> simp only [ProjectionItem.recast, ProjectionItem.rebuild, Expression.recast_moving]

theorem Projection.recast_moving (p : Projection) :
    p.recast (.moving offset) = p.rebuild (Span.recast (.moving offset)) id := by
  simp only [Projection.recast, Projection.rebuild, funext ProjectionItem.recast_moving]

theorem SortItem.recast_moving (i : SortItem) :
    i.recast (.moving offset) = i.rebuild (Span.recast (.moving offset)) id := by
  simp only [SortItem.recast, SortItem.rebuild, Expression.recast_moving]

theorem YieldItem.recast_moving (i : YieldItem) :
    i.recast (.moving offset) = i.rebuild (Span.recast (.moving offset)) := rfl

theorem Clause.recast_moving (c : Clause) :
    c.recast (.moving offset) = c.rebuild (Span.recast (.moving offset)) id := by
  cases c <;> simp only [Clause.recast, Clause.rebuild, funext Pattern.recast_moving,
    Expression.recast_moving, funext Expression.recast_moving, funext MergeAction.recast_moving,
    funext SetItem.recast_moving, funext RemoveItem.recast_moving, Projection.recast_moving,
    funext SortItem.recast_moving, funext YieldItem.recast_moving, Recasting.spell_moving,
    List.map_id]

theorem SingleQuery.recast_moving (q : SingleQuery) :
    q.recast (.moving offset)
      = q.rebuild (Span.recast (.moving offset)) (Clause.rebuild (Span.recast (.moving offset)) id) := by
  simp only [SingleQuery.recast, SingleQuery.rebuild, funext Clause.recast_moving]

theorem QueryBody.recast_moving (b : QueryBody) :
    b.recast (.moving offset)
      = b.rebuild (Span.recast (.moving offset)) (Clause.rebuild (Span.recast (.moving offset)) id) := by
  induction b with
  | single q => simp only [QueryBody.recast, QueryBody.rebuild, SingleQuery.recast_moving]
  | union all left right s ih =>
    simp only [QueryBody.recast, QueryBody.rebuild, SingleQuery.recast_moving, ih]

theorem Query.recast_moving (q : Query) :
    q.recast (.moving offset)
      = q.rebuild (Span.recast (.moving offset)) (Clause.rebuild (Span.recast (.moving offset)) id) := by
  simp only [Query.recast, Query.rebuild, QueryBody.recast_moving]

end Moving

/-! ## Nowhere -/

/-- Every span is put to nowhere. -/
def Recasting.erasing : Recasting := .moving fun _ => 0

theorem Clause.recast_erasing : Clause.recast .erasing = Clause.erase := funext Clause.recast_moving

theorem SingleQuery.recast_erasing (q : SingleQuery) : q.recast .erasing = q.erase :=
  q.recast_moving

theorem QueryBody.recast_erasing (b : QueryBody) : b.recast .erasing = b.erase := b.recast_moving

theorem Query.recast_erasing (q : Query) : q.recast .erasing = q.erase := q.recast_moving

end Cypher
