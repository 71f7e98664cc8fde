import Cypher.Proofs.Tree.Glyphs
import Cypher.Tree.Query

/-!
# Recasting a tree

Two trees read from two texts are compared through a RECASTING: every
offset goes through one function, and every name that a reserved word could
spell goes through another one. Names of variables are never touched, and
neither is anything else. With both functions the identity the comparison
is equality; with a constant for the offsets it is equality up to spans.

The height of a tree sees nothing of either function, and its glyphs see
the second one only.
-/

namespace Cypher

/-- What becomes of the offsets of a tree and of its names. -/
structure Recasting where
  offset : Nat → Nat
  spell : String → String

section Recast

variable (r : Recasting)

def Span.recast (s : Span) : Span := ⟨r.offset s.start, r.offset s.stop⟩

mutual

/-- Keys, labels, types and the parts of dotted names are the names that
`spell` goes through. -/
def Expression.recast : Expression → Expression
  | .literal v s => .literal v (s.recast r)
  | .variable n s => .variable n (s.recast r)
  | .parameter n s => .parameter n (s.recast r)
  | .property e k s => .property e.recast (r.spell k) (s.recast r)
  | .index a i s => .index a.recast i.recast (s.recast r)
  | .slice e lower upper s =>
    .slice e.recast (recastOption lower) (recastOption upper) (s.recast r)
  | .list es s => .list (recastList es) (s.recast r)
  | .listComprehension n e filter projection s =>
    .listComprehension n e.recast (recastOption filter) (recastOption projection)
      (s.recast r)
  | .patternComprehension p filter e s =>
    .patternComprehension p.recast (recastOption filter) e.recast (s.recast r)
  | .patternPredicate p => .patternPredicate p.recast
  | .map entries s => .map (recastEntries entries) (s.recast r)
  | .mapProjection n selectors s =>
    .mapProjection n (recastSelectors selectors) (s.recast r)
  | .call n es s => .call (n.map r.spell) (recastList es) (s.recast r)
  | .case e branches otherwise s =>
    .case (recastOption e) (recastBranches branches) (recastOption otherwise)
      (s.recast r)
  | .prefixed op e s => .prefixed op e.recast (s.recast r)
  | .infixed op a b s => .infixed op a.recast b.recast (s.recast r)
  | .nullCheck negated e s => .nullCheck negated e.recast (s.recast r)
  | .labelCheck e ls s => .labelCheck e.recast (ls.map r.spell) (s.recast r)
  | .star s => .star (s.recast r)
  | .hole s => .hole (s.recast r)

def recastOption : Option Expression → Option Expression
  | none => none
  | some e => some e.recast

def recastList : List Expression → List Expression
  | [] => []
  | e :: es => e.recast :: recastList es

def MapEntry.recast : MapEntry → MapEntry
  | ⟨k, e, s⟩ => ⟨r.spell k, e.recast, s.recast r⟩

def recastEntries : List MapEntry → List MapEntry
  | [] => []
  | e :: es => e.recast :: recastEntries es

def MapSelector.recast : MapSelector → MapSelector
  | .property k s => .property (r.spell k) (s.recast r)
  | .everything s => .everything (s.recast r)
  | .entry e => .entry e.recast
  | .variable n s => .variable n (s.recast r)

def recastSelectors : List MapSelector → List MapSelector
  | [] => []
  | s :: ss => s.recast :: recastSelectors ss

def CaseBranch.recast : CaseBranch → CaseBranch
  | ⟨c, e, s⟩ => ⟨c.recast, e.recast, s.recast r⟩

def recastBranches : List CaseBranch → List CaseBranch
  | [] => []
  | b :: bs => b.recast :: recastBranches bs

def Properties.recast : Properties → Properties
  | .map entries s => .map (recastEntries entries) (s.recast r)
  | .parameter n s => .parameter n (s.recast r)

def recastProperties : Option Properties → Option Properties
  | none => none
  | some p => some p.recast

def NodePattern.recast : NodePattern → NodePattern
  | ⟨n, ls, p, s⟩ => ⟨n, ls.map r.spell, recastProperties p, s.recast r⟩

def RelationshipPattern.recast : RelationshipPattern → RelationshipPattern
  | ⟨d, n, ts, h, p, s⟩ =>
    ⟨d, n, ts.map r.spell, h, recastProperties p, s.recast r⟩

def Link.recast : Link → Link
  | ⟨rel, n⟩ => ⟨rel.recast, n.recast⟩

def recastLinks : List Link → List Link
  | [] => []
  | l :: ls => l.recast :: recastLinks ls

def Pattern.recast : Pattern → Pattern
  | ⟨n, start, chain, s⟩ => ⟨n, start.recast, recastLinks chain, s.recast r⟩

end

/-! ## Clauses and queries -/

def PropertyPath.recast (p : PropertyPath) : PropertyPath :=
  ⟨p.name, r.spell p.key, p.span.recast r⟩

def SetItem.recast : SetItem → SetItem
  | .property target how e s =>
    .property (target.recast r) how (e.recast r) (s.recast r)
  | .variable n how e s => .variable n how (e.recast r) (s.recast r)
  | .labels n ls s => .labels n (ls.map r.spell) (s.recast r)

def RemoveItem.recast : RemoveItem → RemoveItem
  | .property target => .property (target.recast r)
  | .labels n ls s => .labels n (ls.map r.spell) (s.recast r)

def MergeAction.recast (a : MergeAction) : MergeAction :=
  ⟨a.trigger, a.items.map (SetItem.recast r), a.span.recast r⟩

def ProjectionItem.recast : ProjectionItem → ProjectionItem
  | .everything s => .everything (s.recast r)
  | .expression e n s => .expression (e.recast r) n (s.recast r)

def Projection.recast (p : Projection) : Projection :=
  ⟨p.distinct, p.items.map (ProjectionItem.recast r), p.span.recast r⟩

def SortItem.recast (i : SortItem) : SortItem :=
  ⟨i.key.recast r, i.direction, i.span.recast r⟩

def YieldItem.recast (i : YieldItem) : YieldItem :=
  ⟨i.field, i.name, i.span.recast r⟩

def Clause.recast : Clause → Clause
  | .matchPatterns kind ps filter s =>
    .matchPatterns kind (ps.map (Pattern.recast r))
      (filter.map (Expression.recast r)) (s.recast r)
  | .create ps s => .create (ps.map (Pattern.recast r)) (s.recast r)
  | .merge ps actions s =>
    .merge (ps.map (Pattern.recast r))
      (actions.map (MergeAction.recast r)) (s.recast r)
  | .set items s => .set (items.map (SetItem.recast r)) (s.recast r)
  | .delete detach es s =>
    .delete detach (es.map (Expression.recast r)) (s.recast r)
  | .remove items s =>
    .remove (items.map (RemoveItem.recast r)) (s.recast r)
  | .withProjection p filter s =>
    .withProjection (p.recast r) (filter.map (Expression.recast r))
      (s.recast r)
  | .unwind e n s => .unwind (e.recast r) n (s.recast r)
  | .returnProjection p s => .returnProjection (p.recast r) (s.recast r)
  | .orderBy items s => .orderBy (items.map (SortItem.recast r)) (s.recast r)
  | .skip e s => .skip (e.recast r) (s.recast r)
  | .limit e s => .limit (e.recast r) (s.recast r)
  | .call n es fields filter s =>
    .call (n.map r.spell) (es.map (List.map (Expression.recast r)))
      (fields.map (List.map (YieldItem.recast r)))
      (filter.map (Expression.recast r)) (s.recast r)

def SingleQuery.recast (q : SingleQuery) : SingleQuery :=
  ⟨q.clauses.map (Clause.recast r), q.span.recast r⟩

def QueryBody.recast : QueryBody → QueryBody
  | .single q => .single (q.recast r)
  | .union all left right s =>
    .union all left.recast (right.recast r) (s.recast r)

/-- The query with its offsets and names put through the two functions. -/
def Query.recast (q : Query) : Query :=
  ⟨q.version, q.body.recast r, q.span.recast r⟩

/-! ## Companions -/

variable {r}

@[simp] theorem recastOption_eq (e : Option Expression) :
    recastOption r e = e.map (Expression.recast r) := by
  cases e <;> rfl

@[simp] theorem recastList_eq (es : List Expression) :
    recastList r es = es.map (Expression.recast r) := by
  induction es with
  | nil => rfl
  | cons e es ih => rw [recastList, ih, List.map_cons]

@[simp] theorem recastEntries_eq (es : List MapEntry) :
    recastEntries r es = es.map (MapEntry.recast r) := by
  induction es with
  | nil => rfl
  | cons e es ih => rw [recastEntries, ih, List.map_cons]

@[simp] theorem recastSelectors_eq (ss : List MapSelector) :
    recastSelectors r ss = ss.map (MapSelector.recast r) := by
  induction ss with
  | nil => rfl
  | cons s ss ih => rw [recastSelectors, ih, List.map_cons]

@[simp] theorem recastBranches_eq (bs : List CaseBranch) :
    recastBranches r bs = bs.map (CaseBranch.recast r) := by
  induction bs with
  | nil => rfl
  | cons b bs ih => rw [recastBranches, ih, List.map_cons]

@[simp] theorem recastProperties_eq (p : Option Properties) :
    recastProperties r p = p.map (Properties.recast r) := by
  cases p <;> rfl

@[simp] theorem recastLinks_eq (ls : List Link) :
    recastLinks r ls = ls.map (Link.recast r) := by
  induction ls with
  | nil => rfl
  | cons l ls ih => rw [recastLinks, ih, List.map_cons]

/-- The span of a recast expression is its span, recast. -/
theorem Expression.span_recast (e : Expression) :
    (e.recast r).span = e.span.recast r := by
  cases e with
  | patternPredicate p => cases p; rfl
  | _ => rfl

end Recast

/-! ## What recasting keeps -/

section Height

variable {r : Recasting}

mutual

/-- Neither offsets nor names have a part in the height. -/
theorem Expression.height_recast : ∀ e : Expression,
    (e.recast r).height = e.height
  | .literal .. | .variable .. | .parameter .. | .star _ | .hole _ => rfl
  | .property e _ _ | .prefixed _ e _ | .nullCheck _ e _ | .labelCheck e _ _ => by
    simp only [Expression.recast, Expression.height, e.height_recast]
  | .index l r _ | .infixed _ l r _ => by
    simp only [Expression.recast, Expression.height, l.height_recast, r.height_recast]
  | .slice e lower upper _ => by
    simp only [Expression.recast, Expression.height, e.height_recast, heightOption_recast lower,
      heightOption_recast upper]
  | .list es _ | .call _ es _ => by
    simp only [Expression.recast, Expression.height, heightList_recast es]
  | .listComprehension _ e filter projection _ => by
    simp only [Expression.recast, Expression.height, e.height_recast, heightOption_recast filter,
      heightOption_recast projection]
  | .patternComprehension p filter e _ => by
    simp only [Expression.recast, Expression.height, p.height_recast,
      heightOption_recast filter, e.height_recast]
  | .patternPredicate p => by
    simp only [Expression.recast, Expression.height, p.height_recast]
  | .map entries _ => by
    simp only [Expression.recast, Expression.height, heightEntries_recast entries]
  | .mapProjection _ selectors _ => by
    simp only [Expression.recast, Expression.height, heightSelectors_recast selectors]
  | .case e branches otherwise _ => by
    simp only [Expression.recast, Expression.height, heightBranches_recast branches,
      heightOption_recast e, heightOption_recast otherwise]

theorem heightOption_recast : ∀ e : Option Expression,
    heightOption (recastOption r e) = heightOption e
  | none => rfl
  | some e => e.height_recast

theorem heightList_recast : ∀ es : List Expression,
    heightList (recastList r es) = heightList es
  | [] => rfl
  | e :: es => by simp only [recastList, heightList, e.height_recast, heightList_recast es]

theorem MapEntry.height_recast : ∀ e : MapEntry,
    (e.recast r).height = e.height
  | ⟨_, e, _⟩ => by simp only [MapEntry.recast, MapEntry.height, e.height_recast]

theorem heightEntries_recast : ∀ es : List MapEntry,
    heightEntries (recastEntries r es) = heightEntries es
  | [] => rfl
  | e :: es => by
    simp only [recastEntries, heightEntries, e.height_recast, heightEntries_recast es]

theorem MapSelector.height_recast : ∀ s : MapSelector,
    (s.recast r).height = s.height
  | .property .. | .everything _ | .variable .. => rfl
  | .entry e => e.height_recast

theorem heightSelectors_recast : ∀ ss : List MapSelector,
    heightSelectors (recastSelectors r ss) = heightSelectors ss
  | [] => rfl
  | s :: ss => by
    simp only [recastSelectors, heightSelectors, s.height_recast, heightSelectors_recast ss]

theorem CaseBranch.height_recast : ∀ b : CaseBranch,
    (b.recast r).height = b.height
  | ⟨c, r, _⟩ => by
    simp only [CaseBranch.recast, CaseBranch.height, c.height_recast, r.height_recast]

theorem heightBranches_recast : ∀ bs : List CaseBranch,
    heightBranches (recastBranches r bs) = heightBranches bs
  | [] => rfl
  | b :: bs => by
    simp only [recastBranches, heightBranches, b.height_recast, heightBranches_recast bs]

theorem Properties.height_recast : ∀ p : Properties,
    (p.recast r).height = p.height
  | .map [] _ | .parameter .. => rfl
  | .map (e :: es) _ => by
    simp only [Properties.recast, recastEntries, Properties.height, e.height_recast,
      heightEntries_recast es]

theorem heightProperties_recast : ∀ p : Option Properties,
    heightProperties (recastProperties r p) = heightProperties p
  | none => rfl
  | some p => p.height_recast

theorem NodePattern.height_recast : ∀ n : NodePattern,
    (n.recast r).height = n.height
  | ⟨_, _, p, _⟩ => heightProperties_recast p

theorem RelationshipPattern.height_recast : ∀ rel : RelationshipPattern,
    (rel.recast r).height = rel.height
  | ⟨_, _, _, _, p, _⟩ => heightProperties_recast p

theorem Link.height_recast : ∀ l : Link, (l.recast r).height = l.height
  | ⟨rel, n⟩ => by simp only [Link.recast, Link.height, rel.height_recast, n.height_recast]

theorem heightLinks_recast : ∀ ls : List Link,
    heightLinks (recastLinks r ls) = heightLinks ls
  | [] => rfl
  | l :: ls => by simp only [recastLinks, heightLinks, l.height_recast, heightLinks_recast ls]

theorem Pattern.height_recast : ∀ p : Pattern, (p.recast r).height = p.height
  | ⟨_, start, chain, _⟩ => by
    simp only [Pattern.recast, Pattern.height, start.height_recast, heightLinks_recast chain]

end

/-- Expressions that are the same once recast are equally high. -/
theorem Expression.height_eq_of_recast_eq {e e' : Expression}
    (h : e.recast r = e'.recast r) : e.height = e'.height := by
  rw [← e.height_recast (r := r), h, e'.height_recast]

end Height

/-! ## The recasting that changes nothing -/

/-- Every offset and every name is left as it is. -/
def Recasting.same : Recasting := ⟨id, id⟩

section Same

@[simp] theorem Span.recast_same (s : Span) : s.recast .same = s := rfl

@[simp] theorem Recasting.spell_same : Recasting.same.spell = id := rfl

mutual

@[simp] theorem Expression.recast_same : ∀ e : Expression, e.recast .same = e
  | .literal .. | .variable .. | .parameter .. | .star _ | .hole _ => rfl
  | .property e _ _ | .prefixed _ e _ | .nullCheck _ e _ | .labelCheck e _ _ => by
    simp [Expression.recast, e.recast_same]
  | .index l r _ | .infixed _ l r _ => by
    simp [Expression.recast, l.recast_same, r.recast_same]
  | .slice e lower upper _ => by
    simp only [Expression.recast, e.recast_same, recastOption_same lower,
      recastOption_same upper, Span.recast_same]
  | .list es _ | .call _ es _ => by
    simp [Expression.recast, recastList_same es, -recastList_eq]
  | .listComprehension _ e filter projection _ => by
    simp only [Expression.recast, e.recast_same, recastOption_same filter,
      recastOption_same projection, Span.recast_same]
  | .patternComprehension p filter e _ => by
    simp only [Expression.recast, p.recast_same, recastOption_same filter, e.recast_same,
      Span.recast_same]
  | .patternPredicate p => by simp only [Expression.recast, p.recast_same]
  | .map entries _ => by
    simp only [Expression.recast, recastEntries_same entries, Span.recast_same]
  | .mapProjection _ selectors _ => by
    simp only [Expression.recast, recastSelectors_same selectors, Span.recast_same]
  | .case e branches otherwise _ => by
    simp only [Expression.recast, recastOption_same e, recastBranches_same branches,
      recastOption_same otherwise, Span.recast_same]

theorem recastOption_same : ∀ e : Option Expression, recastOption .same e = e
  | none => rfl
  | some e => by simp only [recastOption, e.recast_same]

theorem recastList_same : ∀ es : List Expression, recastList .same es = es
  | [] => rfl
  | e :: es => by simp only [recastList, e.recast_same, recastList_same es]

@[simp] theorem MapEntry.recast_same : ∀ e : MapEntry, e.recast .same = e
  | ⟨_, e, _⟩ => by simp [MapEntry.recast, e.recast_same]

theorem recastEntries_same : ∀ es : List MapEntry, recastEntries .same es = es
  | [] => rfl
  | e :: es => by simp only [recastEntries, e.recast_same, recastEntries_same es]

@[simp] theorem MapSelector.recast_same : ∀ s : MapSelector, s.recast .same = s
  | .property .. | .everything _ | .variable .. => rfl
  | .entry e => by simp only [MapSelector.recast, e.recast_same]

theorem recastSelectors_same : ∀ ss : List MapSelector, recastSelectors .same ss = ss
  | [] => rfl
  | s :: ss => by simp only [recastSelectors, s.recast_same, recastSelectors_same ss]

@[simp] theorem CaseBranch.recast_same : ∀ b : CaseBranch, b.recast .same = b
  | ⟨c, e, _⟩ => by
    simp only [CaseBranch.recast, c.recast_same, e.recast_same, Span.recast_same]

theorem recastBranches_same : ∀ bs : List CaseBranch, recastBranches .same bs = bs
  | [] => rfl
  | b :: bs => by simp only [recastBranches, b.recast_same, recastBranches_same bs]

@[simp] theorem Properties.recast_same : ∀ p : Properties, p.recast .same = p
  | .map entries _ => by
    simp only [Properties.recast, recastEntries_same entries, Span.recast_same]
  | .parameter .. => rfl

theorem recastProperties_same : ∀ p : Option Properties, recastProperties .same p = p
  | none => rfl
  | some p => by simp only [recastProperties, p.recast_same]

@[simp] theorem NodePattern.recast_same : ∀ n : NodePattern, n.recast .same = n
  | ⟨_, _, p, _⟩ => by simp [NodePattern.recast, recastProperties_same p, -recastProperties_eq]

@[simp] theorem RelationshipPattern.recast_same :
    ∀ rel : RelationshipPattern, rel.recast .same = rel
  | ⟨_, _, _, _, p, _⟩ => by
    simp [RelationshipPattern.recast, recastProperties_same p, -recastProperties_eq]

@[simp] theorem Link.recast_same : ∀ l : Link, l.recast .same = l
  | ⟨rel, n⟩ => by simp only [Link.recast, rel.recast_same, n.recast_same]

theorem recastLinks_same : ∀ ls : List Link, recastLinks .same ls = ls
  | [] => rfl
  | l :: ls => by simp only [recastLinks, l.recast_same, recastLinks_same ls]

@[simp] theorem Pattern.recast_same : ∀ p : Pattern, p.recast .same = p
  | ⟨_, start, chain, _⟩ => by
    simp only [Pattern.recast, start.recast_same, recastLinks_same chain, Span.recast_same]

end

@[simp] theorem PropertyPath.recast_same (p : PropertyPath) : p.recast .same = p := rfl

@[simp] theorem SetItem.recast_same (i : SetItem) : i.recast .same = i := by
  cases i <;> simp [SetItem.recast]

@[simp] theorem RemoveItem.recast_same (i : RemoveItem) : i.recast .same = i := by
  cases i <;> simp [RemoveItem.recast]

@[simp] theorem MergeAction.recast_same (a : MergeAction) : a.recast .same = a := by
  simp [MergeAction.recast, funext SetItem.recast_same]

@[simp] theorem ProjectionItem.recast_same (i : ProjectionItem) : i.recast .same = i := by
  cases i <;> simp [ProjectionItem.recast]

@[simp] theorem Projection.recast_same (p : Projection) : p.recast .same = p := by
  simp [Projection.recast, funext ProjectionItem.recast_same]

@[simp] theorem SortItem.recast_same (i : SortItem) : i.recast .same = i := by
  simp [SortItem.recast]

@[simp] theorem YieldItem.recast_same (i : YieldItem) : i.recast .same = i := rfl

@[simp] theorem Clause.recast_same (c : Clause) : c.recast .same = c := by
  have hexpression : Expression.recast .same = id := funext Expression.recast_same
  have hpattern : Pattern.recast .same = id := funext Pattern.recast_same
  cases c <;> simp [Clause.recast, hexpression, hpattern, funext MergeAction.recast_same,
    funext SetItem.recast_same, funext RemoveItem.recast_same,
    funext SortItem.recast_same, funext YieldItem.recast_same]

@[simp] theorem SingleQuery.recast_same (q : SingleQuery) : q.recast .same = q := by
  simp [SingleQuery.recast, funext Clause.recast_same]

@[simp] theorem QueryBody.recast_same (b : QueryBody) : b.recast .same = b := by
  induction b with
  | single q => simp [QueryBody.recast]
  | union all left right s ih => simp [QueryBody.recast, ih]

@[simp] theorem Query.recast_same (q : Query) : q.recast .same = q := by
  simp [Query.recast]

end Same

end Cypher
