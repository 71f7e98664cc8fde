import Cypher.Grammar.Operand
import Cypher.Proofs.Compared.Pattern

/-!
# Comparing operands

An operand carries its height along. Trees that are the same once recast
are equally high, so the height test falls out alike on both sides.
-/

namespace Cypher

/-- The operand with its tree recast. -/
def Operand.recast (r : Recasting) (o : Operand) : Operand := ⟨o.tree.recast r, o.height⟩

namespace Operand

variable {r : Recasting} {o o' : Operand}

theorem tree_eq (h : o.recast r = o'.recast r) : o.tree.recast r = o'.tree.recast r :=
  congrArg tree h

theorem height_eq (h : o.recast r = o'.recast r) : o.height = o'.height :=
  show (o.recast r).height = (o'.recast r).height by rw [h]

/-- Operands that are the same once recast start at one place. -/
theorem start_eq (h : o.recast r = o'.recast r) :
    r.offset o.tree.span.start = r.offset o'.tree.span.start := by
  have hspan := congrArg Expression.span (tree_eq h)
  rw [Expression.span_recast, Expression.span_recast] at hspan
  exact congrArg Span.start hspan

end Operand

/-- Optional trees that are the same once recast are equally high. -/
theorem heightOption_eq_of_map_eq {r : Recasting} {e e' : Option Expression}
    (h : e.map (Expression.recast r) = e'.map (Expression.recast r)) :
    heightOption e = heightOption e' := by
  rw [← heightOption_recast (r := r) e, recastOption_eq, h, ← recastOption_eq,
    heightOption_recast e']

namespace Grammar.Comparison.Agrees

variable {c : Comparison} {config config' : Config} (law : c.Lawful config config')
  {expr expr' : Parser Expression}
  (hexpr : c.Agrees expr expr' (Expression.recast c.view)) {begin begin' : Nat}
  (hbegin : c.view.offset begin = c.view.offset begin')

include law

/-! ## Atoms -/

theorem leaf {make : Span → Expression}
    (h : ∀ s s' : Span, s.recast c.view = s'.recast c.view →
      (make s).recast c.view = (make s').recast c.view) :
    c.Agrees (leaf make) (leaf make) (Expression.recast c.view) := by
  apply (current law).bind
  intro t t' ht
  exact (advance law).map fun _ _ _ => h _ _ (span_eq ht)

include hexpr

include hbegin in
theorem callArguments {name name' : List String}
    (hname : name.map c.view.spell = name'.map c.view.spell) :
    c.Agrees (callArguments expr name begin) (callArguments expr' name' begin')
      (Expression.recast c.view) := by
  apply (expect law).bind
  intro _ _ _
  apply (hexpr.commaSeparatedUntil law).bind
  intro arguments arguments' harguments
  apply (expect law).bind
  intro _ _ _
  apply (spanFrom law hbegin).map
  intro s s' hs
  simp only [Expression.recast, recastList_eq, hname, harguments, hs]

include hbegin in
theorem call {first : String} :
    c.Agrees (call expr first begin) (call expr' first begin') (Expression.recast c.view) := by
  apply (advance law).bind
  intro _ _ _
  apply (((symbolicName law).behind law).many law).bind
  intro others others' hothers
  apply callArguments law hexpr hbegin
  rw [List.map_cons, List.map_cons, hothers]

omit hexpr in
include hbegin in
theorem dotSelector :
    c.Agrees (dotSelector begin) (dotSelector begin') (MapSelector.recast c.view) := by
  apply (consume law).bind
  rintro due _ rfl
  cases due with
  | true =>
    apply (spanFrom law hbegin).map
    intro s s' hs
    simp only [MapSelector.recast, hs]
  | false =>
    apply (symbolicName law).bind
    intro key key' hkey
    apply (spanFrom law hbegin).map
    intro s s' hs
    simp only [MapSelector.recast, hkey, hs]

omit hexpr in
theorem variableSelector :
    c.Agrees variableSelector variableSelector (MapSelector.recast c.view) := by
  apply (current law).bind
  intro t t' ht
  apply (variableName law).map
  rintro name _ rfl
  simp only [MapSelector.recast, span_eq ht, id]

theorem mapSelector :
    c.Agrees (mapSelector expr) (mapSelector expr') (MapSelector.recast c.view) := by
  apply (start law).bind
  intro begin begin' hbegin
  apply (consume law).bind
  rintro due _ rfl
  cases due with
  | true => exact dotSelector law hbegin
  | false =>
    apply (lookAhead law).bind
    intro ahead ahead' hahead
    rw [kindAt_congr (kinds_eq hahead)]
    split
    · apply (mapEntry law hexpr).map
      intro entry entry' hentry
      simp only [MapSelector.recast, hentry]
    · exact variableSelector law

include hbegin in
theorem mapProjection {name : String} :
    c.Agrees (mapProjection expr name begin) (mapProjection expr' name begin')
      (Expression.recast c.view) := by
  apply (expect law).bind
  intro _ _ _
  apply ((mapSelector law hexpr).commaSeparatedUntil law).bind
  intro selectors selectors' hselectors
  apply (expect law).bind
  intro _ _ _
  apply (spanFrom law hbegin).map
  intro s s' hs
  simp only [Expression.recast, recastSelectors_eq, hselectors, hs]

theorem named {name : String} {s s' : Span} (hs : s.recast c.view = s'.recast c.view) :
    c.Agrees (named expr name s) (named expr' name s') (Expression.recast c.view) := by
  have hstart : c.view.offset s.start = c.view.offset s'.start := congrArg Span.start hs
  apply (lookAhead law).bind
  intro ahead ahead' hahead
  have hkinds : (ahead.drop 1).map Token.kind = (ahead'.drop 1).map Token.kind := by
    rw [List.map_drop, List.map_drop, kinds_eq hahead]
  rw [callAhead_congr hkinds]
  split
  · exact call law hexpr hstart
  · apply (advance law).bind
    intro _ _ _
    apply (current law).bind
    intro t t' ht
    rw [kind_eq ht]
    split
    · exact mapProjection law hexpr hstart
    · apply pure
      simp only [Expression.recast, hs]

theorem mapLiteral :
    c.Agrees (mapLiteral expr) (mapLiteral expr') (Expression.recast c.view) := by
  apply (mapEntries law hexpr).map
  intro found found' hfound
  obtain ⟨hentries, hspan⟩ := Prod.mk.inj hfound
  simp only [Expression.recast, recastEntries_eq, hentries, hspan]

theorem parenthesized :
    c.Agrees (parenthesized expr) (parenthesized expr') (Expression.recast c.view) := by
  apply (expect law).bind
  intro _ _ _
  apply hexpr.bind
  intro inner inner' hinner
  exact (expect law).map fun _ _ _ => hinner

include hbegin in
theorem group :
    c.Agrees (group expr begin) (group expr' begin') (Expression.recast c.view) := by
  apply (lookAhead law).bind
  intro ahead ahead' hahead
  rw [patternPredicateAhead_congr (kinds_eq hahead)]
  split
  · apply (patternChain law hexpr hbegin).map
    intro path path' hpath
    simp only [Expression.recast, hpath]
  · exact parenthesized law hexpr

theorem optionalWhere : c.Agrees (optionalWhere expr) (optionalWhere expr')
    (Option.map (Expression.recast c.view)) :=
  hexpr.behind law

include hbegin in
theorem listComprehension : c.Agrees (listComprehension expr begin)
    (listComprehension expr' begin') (Expression.recast c.view) := by
  apply (expect law).bind
  intro _ _ _
  apply (variableName law).bind
  rintro name _ rfl
  apply (expect law).bind
  intro _ _ _
  apply hexpr.bind
  intro source source' hsource
  apply (optionalWhere law hexpr).bind
  intro filter filter' hfilter
  apply (hexpr.behind law).bind
  intro projection projection' hprojection
  apply (expect law).bind
  intro _ _ _
  apply (spanFrom law hbegin).map
  intro s s' hs
  simp only [Expression.recast, recastOption_eq, hsource, hfilter, hprojection, hs, id]

include hbegin in
theorem patternComprehension : c.Agrees (patternComprehension expr begin)
    (patternComprehension expr' begin') (Expression.recast c.view) := by
  apply (expect law).bind
  intro _ _ _
  apply (pattern law hexpr).bind
  intro path path' hpath
  apply (optionalWhere law hexpr).bind
  intro filter filter' hfilter
  apply (expect law).bind
  intro _ _ _
  apply hexpr.bind
  intro projection projection' hprojection
  apply (expect law).bind
  intro _ _ _
  apply (spanFrom law hbegin).map
  intro s s' hs
  simp only [Expression.recast, recastOption_eq, hpath, hfilter, hprojection, hs]

include hbegin in
theorem listLiteral :
    c.Agrees (listLiteral expr begin) (listLiteral expr' begin') (Expression.recast c.view) := by
  apply (expect law).bind
  intro _ _ _
  apply (hexpr.commaSeparatedUntil law).bind
  intro items items' hitems
  apply (expect law).bind
  intro _ _ _
  apply (spanFrom law hbegin).map
  intro s s' hs
  simp only [Expression.recast, recastList_eq, hitems, hs]

include hbegin in
theorem bracket :
    c.Agrees (bracket expr begin) (bracket expr' begin') (Expression.recast c.view) := by
  apply (lookAhead law).bind
  intro ahead ahead' hahead
  have hkinds := kinds_eq hahead
  have hinside : (ahead.drop 1).map Token.kind = (ahead'.drop 1).map Token.kind := by
    rw [List.map_drop, List.map_drop, hkinds]
  rw [listComprehensionAhead_congr hkinds, patternComprehensionAhead_congr hinside]
  split
  · exact listComprehension law hexpr hbegin
  · split
    · exact patternComprehension law hexpr hbegin
    · exact listLiteral law hexpr hbegin

theorem caseBranch :
    c.Agrees (caseBranch expr) (caseBranch expr') (Option.map (CaseBranch.recast c.view)) := by
  apply (start law).bind
  intro begin begin' hbegin
  apply (consume law).bind
  rintro due _ rfl
  cases due with
  | true =>
    apply hexpr.bind
    intro condition condition' hcondition
    apply (expect law).bind
    intro _ _ _
    apply hexpr.bind
    intro result result' hresult
    apply (spanFrom law hbegin).map
    intro s s' hs
    simp only [Option.map_some, CaseBranch.recast, hcondition, hresult, hs]
  | false => exact pure rfl

include hbegin in
theorem caseExpression : c.Agrees (caseExpression expr begin) (caseExpression expr' begin')
    (Expression.recast c.view) := by
  apply (expect law).bind
  intro _ _ _
  apply (hexpr.unlessDue law).bind
  intro operand operand' hoperand
  apply ((caseBranch law hexpr).many law).bind
  intro branches branches' hbranches
  have hempty : branches.isEmpty = branches'.isEmpty := by
    simpa only [List.isEmpty_map] using congrArg List.isEmpty hbranches
  rw [hempty]
  split
  · exact fail_same law trivial
  · apply (hexpr.behind law).bind
    intro otherwise otherwise' hotherwise
    apply (expect law).bind
    intro _ _ _
    apply (spanFrom law hbegin).map
    intro s s' hs
    simp only [Expression.recast, recastOption_eq, recastBranches_eq, hoperand, hbranches,
      hotherwise, hs]

include hbegin in
theorem existsCall :
    c.Agrees (existsCall expr begin) (existsCall expr' begin') (Expression.recast c.view) := by
  apply (advance law).bind
  intro _ _ _
  exact callArguments law hexpr hbegin rfl

/-- Atoms agree, the fault that can be got over included. -/
theorem atom :
    c.Agrees (atom config expr) (atom config' expr') (Expression.recast c.view) := by
  apply (current law).bind
  intro t t' ht
  have hstart := start_eq ht
  rw [kind_eq ht]
  split
  case h_9 => exact group law hexpr hstart
  case h_10 => exact bracket law hexpr hstart
  case h_11 => exact mapLiteral law hexpr
  case h_12 => exact caseExpression law hexpr hstart
  case h_13 => exact existsCall law hexpr hstart
  case h_14 => exact named law hexpr (span_eq ht)
  case h_15 => exact law.recover
  all_goals
    apply leaf law
    intro s s' hs
    simp only [Expression.recast, hs]

/-! ## Suffixes -/

omit hexpr in
theorem grown {o o' : Operand} {tree tree' : Expression} {inner inner' : Nat}
    (ho : o.recast c.view = o'.recast c.view)
    (htree : tree.recast c.view = tree'.recast c.view) (hinner : inner = inner') :
    c.Agrees (grown config o tree inner) (grown config' o' tree' inner')
      (roundView (Operand.recast c.view)) := by
  have hheight : max o.height inner + 1 = max o'.height inner' + 1 := by
    rw [Operand.height_eq ho, hinner]
  apply (checkHeight law hheight).map
  intro _ _ _
  simp only [roundView, Operand.recast, htree, hheight]

section Suffixes

variable {o o' : Operand} (ho : o.recast c.view = o'.recast c.view)

omit hexpr in
include ho in
theorem propertyAccess : c.Agrees (propertyAccess config o) (propertyAccess config' o')
    (roundView (Operand.recast c.view)) := by
  apply (advance law).bind
  intro _ _ _
  apply (symbolicName law).bind
  intro key key' hkey
  apply (spanFrom law (Operand.start_eq ho)).bind
  intro s s' hs
  apply grown law ho _ rfl
  simp only [Expression.recast, Operand.tree_eq ho, hkey, hs]

omit hexpr in
include ho in
theorem indexTail {position position' : Expression}
    (hposition : position.recast c.view = position'.recast c.view) :
    c.Agrees (indexTail config o position) (indexTail config' o' position')
      (roundView (Operand.recast c.view)) := by
  apply (expect law).bind
  intro _ _ _
  apply (spanFrom law (Operand.start_eq ho)).bind
  intro s s' hs
  apply grown law ho _ (Expression.height_eq_of_recast_eq hposition)
  simp only [Expression.recast, Operand.tree_eq ho, hposition, hs]

include ho in
theorem sliceTail {lower lower' : Option Expression}
    (hlower : lower.map (Expression.recast c.view) = lower'.map (Expression.recast c.view)) :
    c.Agrees (sliceTail config expr o lower) (sliceTail config' expr' o' lower')
      (roundView (Operand.recast c.view)) := by
  apply (expect law).bind
  intro _ _ _
  apply (hexpr.unlessDue law).bind
  intro upper upper' hupper
  apply (expect law).bind
  intro _ _ _
  apply (spanFrom law (Operand.start_eq ho)).bind
  intro s s' hs
  apply grown law ho
  · simp only [Expression.recast, recastOption_eq, Operand.tree_eq ho, hlower, hupper, hs]
  · rw [heightOption_eq_of_map_eq hlower, heightOption_eq_of_map_eq hupper]

include ho in
theorem subscript : c.Agrees (subscript config expr o) (subscript config' expr' o')
    (roundView (Operand.recast c.view)) := by
  apply (expect law).bind
  intro _ _ _
  apply (hexpr.unlessDue law).bind
  intro lower lower' hlower
  apply (current law).bind
  intro t t' ht
  cases lower with
  | some position =>
    cases lower' with
    | some position' =>
      have hposition : position.recast c.view = position'.recast c.view :=
        Option.some.inj hlower
      simp only [kind_eq ht]
      split
      · exact sliceTail law hexpr ho hlower
      · exact indexTail law ho hposition
    | none => cases hlower
  | none =>
    cases lower' with
    | some position' => cases hlower
    | none => exact sliceTail law hexpr ho rfl

omit hexpr in
include ho in
theorem labelCheck : c.Agrees (labelCheck config o) (labelCheck config' o')
    (roundView (Operand.recast c.view)) := by
  apply (labelList law).bind
  intro labels labels' hlabels
  apply (spanFrom law (Operand.start_eq ho)).bind
  intro s s' hs
  apply grown law ho _ rfl
  simp only [Expression.recast, Operand.tree_eq ho, hlabels, hs]

include ho in
/-- A colon is a suffix on both sides or on neither. -/
theorem suffix : c.Agrees (suffix config expr o) (suffix config' expr' o')
    (roundView (Operand.recast c.view)) := by
  apply (current law).bind
  intro t t' ht
  rw [kind_eq ht]
  split
  · exact propertyAccess law ho
  · exact subscript law hexpr ho
  · apply (lookAhead law).bind
    intro ahead ahead' hahead
    have hname : (ahead[1]?.bind Token.symbolicName?).isSome
        = (ahead'[1]?.bind Token.symbolicName?).isSome := by
      have hkind := kindAt_congr (kinds_eq hahead) 1
      unfold kindAt at hkind
      cases h : ahead[1]? with
      | none =>
        rw [h, Option.map_none, eq_comm, Option.map_eq_none_iff] at hkind
        rw [hkind]
      | some u =>
        rw [h, Option.map_some, eq_comm, Option.map_eq_some_iff] at hkind
        obtain ⟨u', hu', heq⟩ := hkind
        rw [hu']
        exact isSome_symbolicName_congr heq.symm
    rw [hname]
    split
    · exact labelCheck law ho
    · exact pure (congrArg ForInStep.done ho)
  · exact pure (congrArg ForInStep.done ho)

end Suffixes

theorem operand :
    c.Agrees (operand config expr) (operand config' expr') (Operand.recast c.view) := by
  apply (atom law hexpr).bind
  intro tree tree' htree
  have hheight := Expression.height_eq_of_recast_eq htree
  apply (checkHeight law hheight).bind
  intro _ _ _
  apply iterate law fun o o' ho => suffix law hexpr ho
  simp only [Operand.recast, htree, hheight]

end Grammar.Comparison.Agrees

end Cypher
