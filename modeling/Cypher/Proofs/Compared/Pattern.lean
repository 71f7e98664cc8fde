import Cypher.Grammar.Pattern
import Cypher.Proofs.Compared.Basic

/-!
# Comparing patterns

What is looked for ahead is a matter of kinds alone, so runs in step take
every decision alike. The rest follows the productions: a node of the tree
is built from parts that are the same once recast.
-/

namespace Cypher.Grammar

/-! ## Looking ahead -/

section Lookahead

variable {ahead ahead' : List Token}

theorem kindAt_congr (h : ahead.map Token.kind = ahead'.map Token.kind) (n : Nat) :
    kindAt ahead n = kindAt ahead' n := by
  unfold kindAt
  rw [← List.getElem?_map, h, List.getElem?_map]

theorem relationshipAhead_of_kinds (h : ahead.map Token.kind = ahead'.map Token.kind) :
    relationshipAhead ahead = relationshipAhead ahead' := by
  unfold relationshipAhead
  simp only [kindAt_congr h]

theorem nodeAhead_congr (h : ahead.map Token.kind = ahead'.map Token.kind) :
    nodeAhead ahead = nodeAhead ahead' := by
  unfold nodeAhead
  simp only [kindAt_congr h]

/-- The group that opens ahead closes at one place, whatever else the
tokens are. -/
theorem afterGroup_congr (h : ahead.map Token.kind = ahead'.map Token.kind) (n : Nat) :
    (afterGroup n ahead).map (List.map Token.kind)
      = (afterGroup n ahead').map (List.map Token.kind) := by
  induction ahead generalizing ahead' n with
  | nil =>
    cases ahead' with
    | nil => rfl
    | cons t' rest' => cases h
  | cons t rest ih =>
    cases ahead' with
    | nil => cases h
    | cons t' rest' =>
      obtain ⟨hkind, hrest⟩ := List.cons.inj h
      unfold afterGroup
      rw [hkind]
      split
      · exact ih hrest _
      · split
        · exact congrArg some hrest
        · exact ih hrest _
      · exact ih hrest _

theorem patternPredicateAhead_congr (h : ahead.map Token.kind = ahead'.map Token.kind) :
    patternPredicateAhead ahead = patternPredicateAhead ahead' := by
  have hgroup := afterGroup_congr h 0
  unfold patternPredicateAhead
  rw [nodeAhead_congr h]
  cases hl : afterGroup 0 ahead with
  | none =>
    rw [hl, Option.map_none, eq_comm, Option.map_eq_none_iff] at hgroup
    rw [hgroup]
  | some rest =>
    rw [hl, Option.map_some, eq_comm, Option.map_eq_some_iff] at hgroup
    obtain ⟨rest', hr, heq⟩ := hgroup
    simp only [hr, relationshipAhead_of_kinds heq]

/-- The same of the node that a pattern comprehension starts with, behind the name
of the path. -/
theorem comprehensionBehind_congr (h : ahead.map Token.kind = ahead'.map Token.kind) :
    (nodeAhead ahead && match afterGroup 0 ahead with
      | some rest =>
        relationshipAhead rest || kindAt rest 0 = some (.keyword .WHERE)
          || kindAt rest 0 = some (.operator .pipe)
      | none => false)
    = (nodeAhead ahead' && match afterGroup 0 ahead' with
      | some rest =>
        relationshipAhead rest || kindAt rest 0 = some (.keyword .WHERE)
          || kindAt rest 0 = some (.operator .pipe)
      | none => false) := by
  have hgroup := afterGroup_congr h 0
  rw [nodeAhead_congr h]
  cases hl : afterGroup 0 ahead with
  | none =>
    rw [hl, Option.map_none, eq_comm, Option.map_eq_none_iff] at hgroup
    rw [hgroup]
  | some rest =>
    rw [hl, Option.map_some, eq_comm, Option.map_eq_some_iff] at hgroup
    obtain ⟨rest', hr, heq⟩ := hgroup
    simp only [hr, relationshipAhead_of_kinds heq, kindAt_congr heq]

theorem patternComprehensionAhead_congr (h : ahead.map Token.kind = ahead'.map Token.kind) :
    patternComprehensionAhead ahead = patternComprehensionAhead ahead' := by
  unfold patternComprehensionAhead
  apply comprehensionBehind_congr
  rw [kindAt_congr h, kindAt_congr h]
  split
  · rw [List.map_drop, List.map_drop, h]
  · exact h

theorem listComprehensionAhead_congr (h : ahead.map Token.kind = ahead'.map Token.kind) :
    listComprehensionAhead ahead = listComprehensionAhead ahead' := by
  unfold listComprehensionAhead
  simp only [kindAt_congr h]

/-- Which tokens spell a name is a matter of their kinds. -/
theorem isSome_symbolicName_congr {t t' : Token} (h : t.kind = t'.kind) :
    t.symbolicName?.isSome = t'.symbolicName?.isSome := by
  unfold Token.symbolicName?
  rw [h]
  cases t'.kind <;> rfl

theorem callAhead_congr (h : ahead.map Token.kind = ahead'.map Token.kind) :
    callAhead ahead = callAhead ahead' := by
  induction ahead using callAhead.induct generalizing ahead' with
  | case1 =>
    cases ahead' with
    | nil => rfl
    | cons t' rest' => cases h
  | case2 t =>
    match ahead' with
    | [] | _ :: _ :: _ => simp at h
    | [t'] => simp only [callAhead, (List.cons.inj h).1]
  | case3 t part rest hdot ih =>
    match ahead' with
    | [] | [_] => simp at h
    | t' :: part' :: rest' =>
      obtain ⟨ht, htail⟩ := List.cons.inj h
      obtain ⟨hpart, hrest⟩ := List.cons.inj htail
      have hdot' := hdot
      rw [ht, isSome_symbolicName_congr hpart] at hdot'
      rw [callAhead, if_pos hdot, callAhead, if_pos hdot']
      exact ih hrest
  | case4 t part rest hdot =>
    match ahead' with
    | [] | [_] => simp at h
    | t' :: part' :: rest' =>
      obtain ⟨ht, htail⟩ := List.cons.inj h
      obtain ⟨hpart, hrest⟩ := List.cons.inj htail
      have hdot' := hdot
      rw [ht, isSome_symbolicName_congr hpart] at hdot'
      rw [callAhead, if_neg hdot, callAhead, if_neg hdot', ht]

end Lookahead

namespace Comparison

theorem kinds_eq {c : Comparison} {ahead ahead' : List Token}
    (h : ahead.map c.token = ahead'.map c.token) :
    ahead.map Token.kind = ahead'.map Token.kind := by
  have hkinds := congrArg (List.map Prod.fst) h
  rw [List.map_map, List.map_map] at hkinds
  exact hkinds

variable {c : Comparison} {config config' : Config} (law : c.Lawful config config')
  {expr expr' : Parser Expression}
  (hexpr : c.Agrees expr expr' (Expression.recast c.view))

namespace Agrees

/-! ## Property maps -/

include law hexpr

theorem mapEntry : c.Agrees (mapEntry expr) (mapEntry expr') (MapEntry.recast c.view) := by
  apply (start law).bind
  intro begin begin' hbegin
  apply (symbolicName law).bind
  intro key key' hkey
  apply (expect law).bind
  intro _ _ _
  apply hexpr.bind
  intro value value' hvalue
  apply (spanFrom law hbegin).map
  intro s s' hs
  simp only [MapEntry.recast, hkey, hvalue, hs]

theorem mapEntries : c.Agrees (mapEntries expr) (mapEntries expr')
    (Prod.map (List.map (MapEntry.recast c.view)) (Span.recast c.view)) := by
  apply (start law).bind
  intro begin begin' hbegin
  apply (expect law).bind
  intro _ _ _
  apply ((mapEntry law hexpr).commaSeparatedUntil law).bind
  intro entries entries' hentries
  apply (expect law).bind
  intro _ _ _
  apply (spanFrom law hbegin).map
  intro s s' hs
  simp only [Prod.map, hentries, hs]

theorem properties : c.Agrees (properties expr) (properties expr')
    (Option.map (Properties.recast c.view)) := by
  apply (current law).bind
  intro t t' ht
  rw [kind_eq ht]
  split
  · apply (mapEntries law hexpr).map
    intro found found' hfound
    obtain ⟨hentries, hspan⟩ := Prod.mk.inj hfound
    simp only [Option.map_some, Properties.recast, recastEntries_eq, hentries, hspan]
  · apply (advance law).map
    intro _ _ _
    simp only [Option.map_some, Properties.recast, span_eq ht]
  · exact pure rfl

/-! ## Nodes -/

omit hexpr in
theorem optionalLabels :
    c.Agrees optionalLabels optionalLabels (List.map c.view.spell) := by
  apply (current law).bind
  intro t t' ht
  rw [kind_eq ht]
  split
  · exact labelList law
  · exact pure rfl

theorem nodePattern :
    c.Agrees (nodePattern expr) (nodePattern expr') (NodePattern.recast c.view) := by
  apply (start law).bind
  intro begin begin' hbegin
  apply (expect law).bind
  intro _ _ _
  apply (optionalVariable law).bind
  intro name name' hname
  apply (optionalLabels law).bind
  intro labels labels' hlabels
  apply (properties law hexpr).bind
  intro found found' hfound
  apply (expect law).bind
  intro _ _ _
  apply (spanFrom law hbegin).map
  intro s s' hs
  rw [show name = name' from hname]
  simp only [NodePattern.recast, recastProperties_eq, hlabels, hfound, hs]

/-! ## Relationships -/

omit hexpr in
theorem hopBound : c.Agrees hopBound hopBound id := by
  apply (current law).bind
  intro t t' ht
  rw [kind_eq ht]
  split
  · split
    · exact (advance law).map fun _ _ _ => rfl
    · exact fail_same law trivial
  · exact pure rfl

omit hexpr in
theorem hopRange : c.Agrees hopRange hopRange id := by
  apply (hopBound law).bind
  rintro min _ rfl
  apply (consume law).bind
  rintro due _ rfl
  cases due with
  | true =>
    apply (hopBound law).map
    rintro max _ rfl
    rfl
  | false => exact pure rfl

omit hexpr in
theorem anotherType : c.Agrees anotherType anotherType c.view.spell := by
  apply (consume law).bind
  intro _ _ _
  exact symbolicName law

omit hexpr in
theorem relationshipTypes :
    c.Agrees relationshipTypes relationshipTypes (List.map c.view.spell) := by
  apply (consume law).bind
  rintro due _ rfl
  cases due with
  | true =>
    apply (symbolicName law).bind
    intro first first' hfirst
    apply (((anotherType law).behind law).many law).map
    intro others others' hothers
    rw [List.map_cons, List.map_cons, hfirst, hothers]
  | false => exact pure rfl

/-- What stands between the brackets, recast. -/
def detailView (r : Recasting) (d : Detail) : Detail :=
  { d with types := d.types.map r.spell, properties := d.properties.map (Properties.recast r) }

theorem detail : c.Agrees (detail expr) (detail expr') (detailView c.view) := by
  apply (optionalVariable law).bind
  rintro name _ rfl
  apply (relationshipTypes law).bind
  intro types types' htypes
  apply ((hopRange law).behind law).bind
  intro hops hops' hhops
  rw [Option.map_id_fun, id, id] at hhops
  apply (properties law hexpr).map
  intro found found' hfound
  simp only [detailView, htypes, hhops, hfound, id]

theorem bracketedDetail :
    c.Agrees (bracketedDetail expr) (bracketedDetail expr') (detailView c.view) := by
  apply (consume law).bind
  rintro due _ rfl
  cases due with
  | true =>
    apply (detail law hexpr).bind
    intro found found' hfound
    exact (expect law).map fun _ _ _ => hfound
  | false => exact pure rfl

omit hexpr in
theorem farEnd (incoming : Bool) : c.Agrees (farEnd incoming) (farEnd incoming) id := by
  apply (current law).bind
  intro t t' ht
  rw [kind_eq ht]
  split
  · cases incoming with
    | true => exact fail_same law trivial
    | false => exact (advance law).map fun _ _ _ => rfl
  · exact (expect law).map fun _ _ _ => rfl

theorem relationshipPattern : c.Agrees (relationshipPattern expr) (relationshipPattern expr')
    (RelationshipPattern.recast c.view) := by
  apply (start law).bind
  intro begin begin' hbegin
  apply (consume law).bind
  rintro incoming _ rfl
  apply (expect law).bind
  intro _ _ _
  apply (bracketedDetail law hexpr).bind
  intro found found' hfound
  obtain ⟨hname, htypes, hhops, hproperties⟩ := Detail.mk.inj hfound
  apply (farEnd law incoming).bind
  rintro direction _ rfl
  apply (spanFrom law hbegin).map
  intro s s' hs
  simp only [RelationshipPattern.recast, recastProperties_eq, hname, htypes, hhops,
    hproperties, hs, id]

/-! ## Paths -/

theorem link : c.Agrees (link expr) (link expr') (Option.map (Link.recast c.view)) := by
  apply (lookAhead law).bind
  intro ahead ahead' hahead
  rw [relationshipAhead_of_kinds (kinds_eq hahead)]
  split
  · apply (relationshipPattern law hexpr).bind
    intro relationship relationship' hrelationship
    apply (nodePattern law hexpr).map
    intro node node' hnode
    simp only [Option.map_some, Link.recast, hrelationship, hnode]
  · exact pure rfl

theorem patternChain {name : Option String} {begin begin' : Nat}
    (hbegin : c.view.offset begin = c.view.offset begin') :
    c.Agrees (patternChain expr name begin) (patternChain expr' name begin')
      (Pattern.recast c.view) := by
  apply (nodePattern law hexpr).bind
  intro first first' hfirst
  apply ((link law hexpr).many law).bind
  intro chain chain' hchain
  apply (spanFrom law hbegin).map
  intro s s' hs
  simp only [Pattern.recast, recastLinks_eq, hfirst, hchain, hs]

omit hexpr in
theorem pathName : c.Agrees pathName pathName id := by
  apply (lookAhead law).bind
  intro ahead ahead' hahead
  have hkinds := kinds_eq hahead
  rw [kindAt_congr hkinds, kindAt_congr hkinds]
  split
  · apply (advance law).bind
    intro _ _ _
    exact (advance law).map fun _ _ _ => rfl
  · exact pure rfl

theorem pattern : c.Agrees (pattern expr) (pattern expr') (Pattern.recast c.view) := by
  apply (start law).bind
  intro begin begin' hbegin
  apply (pathName law).bind
  rintro name _ rfl
  exact patternChain law hexpr hbegin

theorem patternList : c.Agrees (patternList expr) (patternList expr')
    (List.map (Pattern.recast c.view)) :=
  (pattern law hexpr).commaSeparated law

end Agrees

end Comparison

end Cypher.Grammar
