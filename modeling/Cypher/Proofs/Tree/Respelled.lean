import Cypher.Proofs.Tree.Glyphs
import Cypher.Proofs.Tree.Recast

/-!
# The text of a recast tree

A recast tree has the glyphs of the tree that it was made from, with the
names respelled that a reserved word could spell. Where the new spelling
differs in the case of letters only, so do the canonical texts.
-/

namespace Cypher

open Glyph (joined separated dotted after named)

/-- The glyph with the name in it respelled, unless it is that of a variable. -/
def Glyph.respell (spell : String → String) : Glyph → Glyph
  | .symbol n => .symbol (spell n)
  | g => g

namespace Glyph

variable (f : Glyph → Glyph)

theorem map_joined (between : List Glyph) (runs : List (List Glyph)) :
    (joined between runs).map f = joined (between.map f) (runs.map (List.map f)) := by
  fun_induction joined between runs with
  | case1 => rfl
  | case2 run => rfl
  | case3 run runs hne ih =>
    cases runs with
    | nil => exact absurd rfl hne
    | cons next runs => simp only [List.map_append, ih, List.map_cons, joined]

variable {spell : String → String}

theorem map_separated (runs : List (List Glyph)) :
    (separated runs).map (respell spell) = separated (runs.map (List.map (respell spell))) :=
  map_joined _ _ _

theorem map_labels (names : List String) :
    (labels names).map (respell spell) = labels (names.map spell) := by
  unfold labels
  rw [List.map_flatMap, List.flatMap_map]
  rfl

theorem map_dotted (parts : List String) :
    (dotted parts).map (respell spell) = dotted (parts.map spell) := by
  unfold dotted
  rw [map_joined, List.map_map, List.map_map]
  rfl

theorem map_after (word : Keyword) (run : List Glyph) :
    (after word run).map (respell spell) = after word (run.map (respell spell)) := rfl

theorem map_named (n : Option String) : (named n).map (respell spell) = named n := by
  cases n <;> rfl

theorem map_typeGlyphs (types : List String) :
    (typeGlyphs types).map (respell spell) = typeGlyphs (types.map spell) := by
  cases types with
  | nil => rfl
  | cons first others =>
    simp only [typeGlyphs, List.map_append, List.map_cons, List.map_nil, List.map_flatMap,
      List.flatMap_map]
    rfl

theorem map_bracketed (run : List Glyph) :
    (bracketed run).map (respell spell) = bracketed (run.map (respell spell)) := by
  unfold bracketed
  rw [List.isEmpty_map]
  split
  · rfl
  · rw [List.map_append, List.map_cons]
    rfl

theorem map_spaced (left right : List Glyph) :
    (spaced left right).map (respell spell)
      = spaced (left.map (respell spell)) (right.map (respell spell)) := by
  unfold spaced
  rw [List.isEmpty_map, List.isEmpty_map]
  split
  · rw [List.map_append]
  · rw [List.map_append, List.map_cons]
    rfl

theorem map_hops (h : HopRange) : h.glyphs.map (respell spell) = h.glyphs := by
  obtain ⟨low, high⟩ := h
  cases low with
  | none => cases high <;> rfl
  | some low =>
    cases high with
    | none => rfl
    | some high =>
      unfold HopRange.glyphs
      dsimp only
      split <;> rfl

theorem respell_literal (v : Literal) : v.glyph.respell spell = v.glyph := by
  cases v with
  | boolean b => cases b <;> rfl
  | _ => rfl

theorem respell_ofInfix (op : InfixOperator) : (ofInfix op).respell spell = ofInfix op := by
  cases op <;> rfl

end Glyph

section Respelled

variable {r : Recasting}

open Glyph

/-! ## Expressions and patterns -/

mutual

theorem Expression.glyphs_recast : ∀ e : Expression,
    (e.recast r).glyphs = e.glyphs.map (respell r.spell)
  | .literal v _ => by
    simp only [Expression.recast, Expression.glyphs, List.map_cons, List.map_nil,
      respell_literal]
  | .variable .. | .parameter .. | .star _ | .hole _ => rfl
  | .property e _ _ => by
    simp only [Expression.recast, Expression.glyphs, List.map_append, e.glyphs_recast,
      List.map_cons, List.map_nil, respell]
  | .index l i _ => by
    simp only [Expression.recast, Expression.glyphs, List.map_append, l.glyphs_recast,
      i.glyphs_recast, List.map_cons, List.map_nil, respell]
  | .slice e lower upper _ => by
    simp only [Expression.recast, Expression.glyphs, List.map_append, e.glyphs_recast,
      glyphsOption_recast lower, glyphsOption_recast upper, List.map_cons, List.map_nil,
      respell]
  | .list es _ => by
    simp only [Expression.recast, Expression.glyphs, List.map_append, map_separated,
      glyphsList_recast es, List.map_cons, List.map_nil, respell]
  | .listComprehension _ e filter projection _ => by
    simp only [Expression.recast, Expression.glyphs, List.map_append, map_after,
      e.glyphs_recast, glyphsWhere_recast filter, glyphsBar_recast projection, List.map_cons,
      List.map_nil, respell]
  | .patternComprehension p filter e _ => by
    simp only [Expression.recast, Expression.glyphs, List.map_append, p.glyphs_recast,
      glyphsWhere_recast filter, e.glyphs_recast, List.map_cons, List.map_nil, respell]
  | .patternPredicate p => by
    simp only [Expression.recast, Expression.glyphs, p.glyphs_recast]
  | .map entries _ => by
    simp only [Expression.recast, Expression.glyphs, List.map_append, map_separated,
      glyphsEntries_recast entries, List.map_cons, List.map_nil, respell]
  | .mapProjection _ selectors _ => by
    simp only [Expression.recast, Expression.glyphs, List.map_append, map_separated,
      glyphsSelectors_recast selectors, List.map_cons, List.map_nil, respell]
  | .call _ es _ => by
    simp only [Expression.recast, Expression.glyphs, List.map_append, map_dotted,
      map_separated, glyphsList_recast es, List.map_cons, List.map_nil, respell]
  | .case e branches otherwise _ => by
    simp only [Expression.recast, Expression.glyphs, List.map_append, glyphsSpaced_recast e,
      glyphsBranches_recast branches, glyphsElse_recast otherwise, List.map_cons,
      List.map_nil, respell]
  | .prefixed .negate e _ | .prefixed .not e _ | .prefixed .distinct e _ => by
    simp only [Expression.recast, Expression.glyphs, List.map_append, e.glyphs_recast,
      List.map_cons, List.map_nil, respell]
  | .infixed _ a b _ => by
    simp only [Expression.recast, Expression.glyphs, List.map_append, a.glyphs_recast,
      b.glyphs_recast, respell_ofInfix, List.map_cons, List.map_nil]
    rfl
  | .nullCheck _ e _ => by
    simp only [Expression.recast, Expression.glyphs, List.map_append, e.glyphs_recast,
      List.map_cons, List.map_nil, respell]
  | .labelCheck e _ _ => by
    simp only [Expression.recast, Expression.glyphs, List.map_append, e.glyphs_recast,
      map_labels]

theorem glyphsOption_recast : ∀ e : Option Expression,
    glyphsOption (recastOption r e) = (glyphsOption e).map (respell r.spell)
  | none => rfl
  | some e => e.glyphs_recast

theorem glyphsWhere_recast : ∀ e : Option Expression,
    glyphsWhere (recastOption r e) = (glyphsWhere e).map (respell r.spell)
  | none => rfl
  | some e => by simp only [recastOption, glyphsWhere, e.glyphs_recast, map_after]

theorem glyphsBar_recast : ∀ e : Option Expression,
    glyphsBar (recastOption r e) = (glyphsBar e).map (respell r.spell)
  | none => rfl
  | some e => by
    simp only [recastOption, glyphsBar, e.glyphs_recast, List.map_cons, respell]

theorem glyphsSpaced_recast : ∀ e : Option Expression,
    glyphsSpaced (recastOption r e) = (glyphsSpaced e).map (respell r.spell)
  | none => rfl
  | some e => by
    simp only [recastOption, glyphsSpaced, e.glyphs_recast, List.map_cons, respell]

theorem glyphsElse_recast : ∀ e : Option Expression,
    glyphsElse (recastOption r e) = (glyphsElse e).map (respell r.spell)
  | none => rfl
  | some e => by simp only [recastOption, glyphsElse, e.glyphs_recast, map_after]

theorem glyphsList_recast : ∀ es : List Expression,
    glyphsList (recastList r es) = (glyphsList es).map (List.map (respell r.spell))
  | [] => rfl
  | e :: es => by
    simp only [recastList, glyphsList, e.glyphs_recast, glyphsList_recast es, List.map_cons]

theorem MapEntry.glyphs_recast : ∀ e : MapEntry,
    (e.recast r).glyphs = e.glyphs.map (respell r.spell)
  | ⟨_, e, _⟩ => by
    simp only [MapEntry.recast, MapEntry.glyphs, e.glyphs_recast, List.map_cons, respell]

theorem glyphsEntries_recast : ∀ es : List MapEntry,
    glyphsEntries (recastEntries r es) = (glyphsEntries es).map (List.map (respell r.spell))
  | [] => rfl
  | e :: es => by
    simp only [recastEntries, glyphsEntries, e.glyphs_recast, glyphsEntries_recast es,
      List.map_cons]

theorem MapSelector.glyphs_recast : ∀ s : MapSelector,
    (s.recast r).glyphs = s.glyphs.map (respell r.spell)
  | .property .. | .everything _ | .variable .. => rfl
  | .entry e => e.glyphs_recast

theorem glyphsSelectors_recast : ∀ ss : List MapSelector,
    glyphsSelectors (recastSelectors r ss)
      = (glyphsSelectors ss).map (List.map (respell r.spell))
  | [] => rfl
  | s :: ss => by
    simp only [recastSelectors, glyphsSelectors, s.glyphs_recast, glyphsSelectors_recast ss,
      List.map_cons]

theorem CaseBranch.glyphs_recast : ∀ b : CaseBranch,
    (b.recast r).glyphs = b.glyphs.map (respell r.spell)
  | ⟨c, e, _⟩ => by
    simp only [CaseBranch.recast, CaseBranch.glyphs, c.glyphs_recast, e.glyphs_recast,
      List.map_append, map_after]

theorem glyphsBranches_recast : ∀ bs : List CaseBranch,
    glyphsBranches (recastBranches r bs) = (glyphsBranches bs).map (respell r.spell)
  | [] => rfl
  | b :: bs => by
    simp only [recastBranches, glyphsBranches, b.glyphs_recast, glyphsBranches_recast bs,
      List.map_append]

theorem Properties.glyphs_recast : ∀ p : Properties,
    (p.recast r).glyphs = p.glyphs.map (respell r.spell)
  | .map entries _ => by
    simp only [Properties.recast, Properties.glyphs, List.map_append, map_separated,
      glyphsEntries_recast entries, List.map_cons, List.map_nil, respell]
  | .parameter .. => rfl

theorem glyphsProperties_recast : ∀ p : Option Properties,
    glyphsProperties (recastProperties r p) = (glyphsProperties p).map (respell r.spell)
  | none => rfl
  | some p => p.glyphs_recast

theorem NodePattern.glyphs_recast : ∀ n : NodePattern,
    (n.recast r).glyphs = n.glyphs.map (respell r.spell)
  | ⟨n, _, p, _⟩ => by
    have hname : (n.toList.map Glyph.name).map (respell r.spell) = n.toList.map Glyph.name := by
      cases n <;> rfl
    simp only [NodePattern.recast, NodePattern.glyphs, map_spaced, map_labels, hname,
      glyphsProperties_recast p, List.map_append, List.map_cons, List.map_nil, respell]

theorem RelationshipPattern.glyphs_recast : ∀ rel : RelationshipPattern,
    (rel.recast r).glyphs = rel.glyphs.map (respell r.spell)
  | ⟨d, n, _, h, p, _⟩ => by
    have hname : (n.toList.map Glyph.name).map (respell r.spell) = n.toList.map Glyph.name := by
      cases n <;> rfl
    have hhops : (h.toList.flatMap HopRange.glyphs).map (respell r.spell)
        = h.toList.flatMap HopRange.glyphs := by
      cases h with
      | none => rfl
      | some h =>
        rw [Option.toList_some, List.flatMap_singleton]
        exact map_hops h
    have hfirst : d.ends.1.map (respell r.spell) = d.ends.1 := by cases d <;> rfl
    have hsecond : d.ends.2.map (respell r.spell) = d.ends.2 := by cases d <;> rfl
    simp only [RelationshipPattern.recast, RelationshipPattern.glyphs, map_spaced,
      map_bracketed, map_typeGlyphs, hname, hhops, hfirst, hsecond,
      glyphsProperties_recast p, List.map_append]

theorem Link.glyphs_recast : ∀ l : Link, (l.recast r).glyphs = l.glyphs.map (respell r.spell)
  | ⟨rel, n⟩ => by
    simp only [Link.recast, Link.glyphs, rel.glyphs_recast, n.glyphs_recast, List.map_append]

theorem glyphsLinks_recast : ∀ ls : List Link,
    glyphsLinks (recastLinks r ls) = (glyphsLinks ls).map (respell r.spell)
  | [] => rfl
  | l :: ls => by
    simp only [recastLinks, glyphsLinks, l.glyphs_recast, glyphsLinks_recast ls,
      List.map_append]

theorem Pattern.glyphs_recast : ∀ p : Pattern,
    (p.recast r).glyphs = p.glyphs.map (respell r.spell)
  | ⟨none, start, chain, _⟩ => by
    simp only [Pattern.recast, Pattern.glyphs, start.glyphs_recast, glyphsLinks_recast chain,
      List.map_append]
  | ⟨some _, start, chain, _⟩ => by
    simp only [Pattern.recast, Pattern.glyphs, start.glyphs_recast, glyphsLinks_recast chain,
      List.map_append, List.map_cons, respell]

end

/-! ## Clauses and queries -/

theorem SetItem.glyphs_recast (i : SetItem) :
    (i.recast r).glyphs = i.glyphs.map (respell r.spell) := by
  have hhow (how : Assignment) : how.glyphs.map (respell r.spell) = how.glyphs := by
    cases how <;> rfl
  cases i with
  | property target how e s =>
    simp only [SetItem.recast, SetItem.glyphs, PropertyPath.recast, PropertyPath.glyphs,
      e.glyphs_recast, hhow, List.map_append, List.map_cons, List.map_nil, respell]
  | «variable» n how e s =>
    simp only [SetItem.recast, SetItem.glyphs, e.glyphs_recast, hhow, List.map_append,
      List.map_cons, respell]
  | labels n ls s =>
    simp only [SetItem.recast, SetItem.glyphs, List.map_cons, map_labels, respell]

theorem RemoveItem.glyphs_recast (i : RemoveItem) :
    (i.recast r).glyphs = i.glyphs.map (respell r.spell) := by
  cases i with
  | property target => rfl
  | labels n ls s =>
    simp only [RemoveItem.recast, RemoveItem.glyphs, List.map_cons, map_labels, respell]

theorem MergeAction.glyphs_recast (a : MergeAction) :
    (a.recast r).glyphs = a.glyphs.map (respell r.spell) := by
  simp only [MergeAction.recast, MergeAction.glyphs, List.map_append, map_after, map_separated,
    List.map_map, Function.comp_def, SetItem.glyphs_recast, List.map_cons, List.map_nil,
    respell]

theorem ProjectionItem.glyphs_recast (i : ProjectionItem) :
    (i.recast r).glyphs = i.glyphs.map (respell r.spell) := by
  cases i with
  | everything s => rfl
  | expression e n s =>
    simp only [ProjectionItem.recast, ProjectionItem.glyphs, e.glyphs_recast, List.map_append,
      map_named]

theorem Projection.glyphs_recast (p : Projection) :
    (p.recast r).glyphs = p.glyphs.map (respell r.spell) := by
  obtain ⟨distinct, items, s⟩ := p
  cases distinct <;>
    simp only [Projection.recast, Projection.glyphs, List.map_append, map_separated,
      List.map_map, Function.comp_def, ProjectionItem.glyphs_recast]
  · rfl
  · rfl

theorem SortItem.glyphs_recast (i : SortItem) :
    (i.recast r).glyphs = i.glyphs.map (respell r.spell) := by
  obtain ⟨key, direction, s⟩ := i
  cases direction with
  | ascending => exact key.glyphs_recast
  | descending =>
    simp only [SortItem.recast, SortItem.glyphs, key.glyphs_recast, List.map_append,
      List.map_cons, List.map_nil, respell]

theorem YieldItem.glyphs_recast (i : YieldItem) :
    (i.recast r).glyphs = i.glyphs.map (respell r.spell) := by
  simp only [YieldItem.recast, YieldItem.glyphs, List.map_cons, map_named, respell]

theorem glyphsWhere_map (e : Option Expression) :
    glyphsWhere (e.map (Expression.recast r)) = (glyphsWhere e).map (respell r.spell) := by
  rw [← recastOption_eq, glyphsWhere_recast]

theorem Clause.glyphs_recast (c : Clause) :
    (c.recast r).glyphs = c.glyphs.map (respell r.spell) := by
  cases c with
  | matchPatterns kind ps filter s =>
    have hkind : kind.glyphs.map (respell r.spell) = kind.glyphs := by cases kind <;> rfl
    simp only [Clause.recast, Clause.glyphs, hkind, glyphsWhere_map, map_separated,
      List.map_map, Function.comp_def, Pattern.glyphs_recast, List.map_append, List.map_cons,
      respell]
  | create ps s =>
    simp only [Clause.recast, Clause.glyphs, map_separated, List.map_map, Function.comp_def,
      Pattern.glyphs_recast, List.map_cons, respell]
  | merge ps actions s =>
    simp only [Clause.recast, Clause.glyphs, map_separated, List.map_map, Function.comp_def,
      Pattern.glyphs_recast, List.map_cons, respell, List.map_append, List.flatMap_map,
      List.map_flatMap, MergeAction.glyphs_recast]
  | set items s =>
    simp only [Clause.recast, Clause.glyphs, map_separated, List.map_map, Function.comp_def,
      SetItem.glyphs_recast, List.map_cons, respell]
  | delete detach es s =>
    have hdetach : (if detach then [Glyph.keyword .DETACH, .space] else []).map (respell r.spell)
        = if detach then [Glyph.keyword .DETACH, .space] else [] := by
      cases detach <;> rfl
    simp only [Clause.recast, Clause.glyphs, hdetach, map_separated, List.map_map,
      Function.comp_def, Expression.glyphs_recast, List.map_append, List.map_cons, respell]
  | remove items s =>
    simp only [Clause.recast, Clause.glyphs, map_separated, List.map_map, Function.comp_def,
      RemoveItem.glyphs_recast, List.map_cons, respell]
  | withProjection p filter s =>
    simp only [Clause.recast, Clause.glyphs, p.glyphs_recast, glyphsWhere_map,
      List.map_append, List.map_cons, respell]
  | unwind e n s =>
    simp only [Clause.recast, Clause.glyphs, e.glyphs_recast, map_after, List.map_append,
      List.map_cons, List.map_nil, respell]
  | returnProjection p s =>
    simp only [Clause.recast, Clause.glyphs, p.glyphs_recast, List.map_cons, respell]
  | orderBy items s =>
    simp only [Clause.recast, Clause.glyphs, map_separated, List.map_map, Function.comp_def,
      SortItem.glyphs_recast, List.map_cons, respell]
  | skip e s | limit e s =>
    simp only [Clause.recast, Clause.glyphs, e.glyphs_recast, List.map_cons, respell]
  | call n es fields filter s =>
    cases es <;> cases fields <;>
      simp only [Clause.recast, Clause.glyphs, map_dotted, map_after, map_separated,
        Option.map_none, Option.map_some, List.map_map, Function.comp_def,
        Expression.glyphs_recast, YieldItem.glyphs_recast, glyphsWhere_map, List.map_append,
        List.map_cons, List.map_nil, respell]

theorem SingleQuery.glyphs_recast (q : SingleQuery) :
    (q.recast r).glyphs = q.glyphs.map (respell r.spell) := by
  simp only [SingleQuery.recast, SingleQuery.glyphs, map_joined, List.map_map,
    Function.comp_def, Clause.glyphs_recast, List.map_cons, List.map_nil, respell]

theorem QueryBody.glyphs_recast (b : QueryBody) :
    (b.recast r).glyphs = b.glyphs.map (respell r.spell) := by
  induction b with
  | single q => exact q.glyphs_recast
  | union all left right s ih =>
    have hall : (if all then [Glyph.keyword .ALL, .space] else []).map (respell r.spell)
        = if all then [Glyph.keyword .ALL, .space] else [] := by
      cases all <;> rfl
    simp only [QueryBody.recast, QueryBody.glyphs, ih, right.glyphs_recast, hall,
      List.map_append, List.map_cons, respell]

/-- The glyphs of a recast query are its glyphs, respelled. -/
theorem Query.glyphs_recast (q : Query) :
    (q.recast r).glyphs = q.glyphs.map (respell r.spell) := by
  obtain ⟨version, body, s⟩ := q
  cases version with
  | none => exact body.glyphs_recast
  | some v =>
    simp only [Query.recast, Query.glyphs, body.glyphs_recast, List.map_cons, respell]

end Respelled

/-! ## Texts up to case -/

/-- The text with its ASCII letters in upper case. -/
def upper (text : String) : String := String.ofList (text.toList.map Char.toUpper)

/-- Names in another case make a text in another case. -/
theorem Query.upper_text_recast {r : Recasting} (q : Query)
    (h : ∀ n, (Glyph.symbol (r.spell n)).chars.map Char.toUpper
      = (Glyph.symbol n).chars.map Char.toUpper) :
    upper (q.recast r).text = upper q.text := by
  have hglyph (g : Glyph) :
      (g.respell r.spell).chars.map Char.toUpper = g.chars.map Char.toUpper := by
    cases g with
    | symbol n => exact h n
    | _ => rfl
  unfold upper Query.text Glyph.textOf
  rw [q.glyphs_recast, String.toList_ofList, String.toList_ofList, List.flatMap_map,
    List.map_flatMap, List.map_flatMap]
  simp only [hglyph]

end Cypher
