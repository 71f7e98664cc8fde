import Cypher.Grammar.Operand
import Cypher.Proofs.Closed.Basic

/-!
# Patterns and operands

A closed property of the parser of expressions holds of every pattern and of
every operand. The lemmas follow the productions, one for each, and their
proofs are the productions read as sequences.
-/

namespace Cypher.Grammar.Closed

variable {config : Config} {K : (α : Type) → Parser α → Parser α → Prop}
  (closed : Closed config K)
  {expr expr' : Parser Expression} (hexpr : K _ expr expr') {name : List String} {begin : Nat}
  {o : Operand}

include closed

/-! ## Patterns -/

section Patterns

include hexpr in
theorem mapEntry : K _ (mapEntry expr) (mapEntry expr') :=
  closed.next .start fun begin =>
  closed.next .symbolicName fun _ =>
  closed.next .expect fun _ =>
  closed.bind hexpr fun _ =>
  closed.spanned begin _

include hexpr in
theorem mapEntries : K _ (mapEntries expr) (mapEntries expr') :=
  closed.next .start fun begin =>
  closed.next .expect fun _ =>
  closed.bind (closed.commaSeparatedUntil (closed.mapEntry hexpr)) fun _ =>
  closed.next .expect fun _ =>
  closed.spanned begin _

include hexpr in
theorem properties : K _ (properties expr) (properties expr') := by
  apply closed.next .current
  intro t
  split
  · exact closed.map (closed.mapEntries hexpr) _
  · exact closed.map (closed.step .advance) _
  · exact closed.step (.pure none)

theorem optionalLabels : K _ optionalLabels optionalLabels := by
  apply closed.next .current
  intro t
  split
  · exact closed.labelList
  · exact closed.step (.pure [])

include hexpr in
theorem nodePattern : K _ (nodePattern expr) (nodePattern expr') :=
  closed.next .start fun begin =>
  closed.next .expect fun _ =>
  closed.next .optionalVariable fun _ =>
  closed.bind closed.optionalLabels fun _ =>
  closed.bind (closed.properties hexpr) fun _ =>
  closed.next .expect fun _ =>
  closed.spanned begin _

theorem hopBound : K _ hopBound hopBound := by
  apply closed.next .current
  intro t
  split
  · split
    · exact closed.map (closed.step .advance) _
    · exact closed.step (.fail trivial)
  · exact closed.step (.pure none)

theorem hopRange : K _ hopRange hopRange := by
  apply closed.bind closed.hopBound
  intro min
  apply closed.next .consume
  intro due
  split
  · exact closed.map closed.hopBound _
  · exact closed.step (.pure _)

theorem anotherType : K _ anotherType anotherType :=
  closed.next .consume fun _ => closed.step .symbolicName

theorem relationshipTypes : K _ relationshipTypes relationshipTypes := by
  apply closed.next .consume
  intro due
  split
  · exact closed.next .symbolicName fun first =>
      closed.map (closed.many (closed.behind closed.anotherType)) _
  · exact closed.step (.pure [])

include hexpr in
theorem detail : K _ (detail expr) (detail expr') :=
  closed.next .optionalVariable fun _ =>
  closed.bind closed.relationshipTypes fun _ =>
  closed.bind (closed.behind closed.hopRange) fun _ =>
  closed.map (closed.properties hexpr) _

include hexpr in
theorem bracketedDetail : K _ (bracketedDetail expr) (bracketedDetail expr') := by
  apply closed.next .consume
  intro due
  split
  · exact closed.bind (closed.detail hexpr) fun found => closed.map (closed.step .expect) _
  · exact closed.step (.pure _)

theorem farEnd {incoming : Bool} : K _ (farEnd incoming) (farEnd incoming) := by
  apply closed.next .current
  intro t
  split
  · split
    · exact closed.step (.fail trivial)
    · exact closed.map (closed.step .advance) _
  · exact closed.map (closed.step .expect) _

include hexpr in
theorem relationshipPattern : K _ (relationshipPattern expr) (relationshipPattern expr') :=
  closed.next .start fun begin =>
  closed.next .consume fun _ =>
  closed.next .expect fun _ =>
  closed.bind (closed.bracketedDetail hexpr) fun _ =>
  closed.bind closed.farEnd fun _ =>
  closed.spanned begin _

include hexpr in
theorem link : K _ (link expr) (link expr') := by
  apply closed.next .lookAhead
  intro ahead
  split
  · exact closed.bind (closed.relationshipPattern hexpr) fun _ =>
      closed.map (closed.nodePattern hexpr) _
  · exact closed.step (.pure none)

include hexpr in
theorem patternChain {name : Option String} :
    K _ (patternChain expr name begin) (patternChain expr' name begin) :=
  closed.bind (closed.nodePattern hexpr) fun _ =>
  closed.bind (closed.many (closed.link hexpr)) fun _ =>
  closed.spanned begin _

theorem pathName : K _ pathName pathName := by
  apply closed.next .lookAhead
  intro ahead
  split
  · exact closed.next .advance fun _ => closed.map (closed.step .advance) _
  · exact closed.step (.pure none)

include hexpr in
theorem pattern : K _ (pattern expr) (pattern expr') :=
  closed.next .start fun _ =>
  closed.bind closed.pathName fun _ =>
  closed.patternChain hexpr

include hexpr in
theorem patternList :
    K _ (patternList expr) (patternList expr') := closed.commaSeparated (closed.pattern hexpr)

end Patterns

/-! ## Atoms -/

section Atoms

theorem leaf {make : Span → Expression} : K _ (leaf make) (leaf make) :=
  closed.next .current fun _ => closed.map (closed.step .advance) _

include hexpr

theorem callArguments : K _ (callArguments expr name begin) (callArguments expr' name begin) :=
  closed.next .expect fun _ =>
  closed.bind (closed.commaSeparatedUntil hexpr) fun _ =>
  closed.next .expect fun _ =>
  closed.spanned begin _

theorem call {first : String} : K _ (call expr first begin) (call expr' first begin) :=
  closed.next .advance fun _ =>
  closed.bind (closed.many (closed.behind (closed.step .symbolicName))) fun _ =>
  closed.callArguments hexpr

omit hexpr in
theorem dotSelector : K _ (dotSelector begin) (dotSelector begin) := by
  apply closed.next .consume
  intro due
  split
  · exact closed.spanned begin _
  · exact closed.next .symbolicName fun _ => closed.spanned begin _

omit hexpr in
theorem variableSelector : K _ variableSelector variableSelector :=
  closed.next .current fun _ => closed.map (closed.step .variableName) _

theorem mapSelector : K _ (mapSelector expr) (mapSelector expr') := by
  apply closed.next .start
  intro begin
  apply closed.next .consume
  intro due
  split
  · exact closed.dotSelector
  · apply closed.next .lookAhead
    intro ahead
    split
    · exact closed.map (closed.mapEntry hexpr) _
    · exact closed.variableSelector

theorem mapProjection {name : String} :
    K _ (mapProjection expr name begin) (mapProjection expr' name begin) :=
  closed.next .expect fun _ =>
  closed.bind (closed.commaSeparatedUntil (closed.mapSelector hexpr)) fun _ =>
  closed.next .expect fun _ =>
  closed.spanned begin _

theorem named {name : String} {span : Span} :
    K _ (named expr name span) (named expr' name span) := by
  apply closed.next .lookAhead
  intro ahead
  split
  · exact closed.call hexpr
  · apply closed.next .advance
    intro _
    apply closed.next .current
    intro t
    split
    · exact closed.mapProjection hexpr
    · exact closed.step (.pure _)

theorem mapLiteral :
    K _ (mapLiteral expr) (mapLiteral expr') := closed.map (closed.mapEntries hexpr) _

theorem parenthesized : K _ (parenthesized expr) (parenthesized expr') :=
  closed.next .expect fun _ =>
  closed.bind hexpr fun _ =>
  closed.map (closed.step .expect) _

theorem group : K _ (group expr begin) (group expr' begin) := by
  apply closed.next .lookAhead
  intro ahead
  split
  · exact closed.map (closed.patternChain hexpr) _
  · exact closed.parenthesized hexpr

theorem optionalWhere : K _ (optionalWhere expr) (optionalWhere expr') := closed.behind hexpr

theorem listComprehension : K _ (listComprehension expr begin) (listComprehension expr' begin) :=
  closed.next .expect fun _ =>
  closed.next .variableName fun _ =>
  closed.next .expect fun _ =>
  closed.bind hexpr fun _ =>
  closed.bind (closed.optionalWhere hexpr) fun _ =>
  closed.bind (closed.behind hexpr) fun _ =>
  closed.next .expect fun _ =>
  closed.spanned begin _

theorem patternComprehension :
    K _ (patternComprehension expr begin) (patternComprehension expr' begin) :=
  closed.next .expect fun _ =>
  closed.bind (closed.pattern hexpr) fun _ =>
  closed.bind (closed.optionalWhere hexpr) fun _ =>
  closed.next .expect fun _ =>
  closed.bind hexpr fun _ =>
  closed.next .expect fun _ =>
  closed.spanned begin _

theorem listLiteral : K _ (listLiteral expr begin) (listLiteral expr' begin) :=
  closed.next .expect fun _ =>
  closed.bind (closed.commaSeparatedUntil hexpr) fun _ =>
  closed.next .expect fun _ =>
  closed.spanned begin _

theorem bracket : K _ (bracket expr begin) (bracket expr' begin) := by
  apply closed.next .lookAhead
  intro ahead
  split
  · exact closed.listComprehension hexpr
  · split
    · exact closed.patternComprehension hexpr
    · exact closed.listLiteral hexpr

theorem caseBranch : K _ (caseBranch expr) (caseBranch expr') := by
  apply closed.next .start
  intro begin
  apply closed.next .consume
  intro due
  split
  · exact closed.bind hexpr fun _ =>
      closed.next .expect fun _ =>
      closed.bind hexpr fun _ =>
      closed.spanned begin _
  · exact closed.step (.pure none)

theorem caseExpression : K _ (caseExpression expr begin) (caseExpression expr' begin) := by
  apply closed.next .expect
  intro _
  apply closed.bind (closed.unlessDue hexpr)
  intro operand
  apply closed.bind (closed.many (closed.caseBranch hexpr))
  intro branches
  split
  · exact closed.step (.fail trivial)
  · exact closed.bind (closed.behind hexpr) fun _ =>
      closed.next .expect fun _ =>
      closed.spanned begin _

theorem existsCall : K _ (existsCall expr begin) (existsCall expr' begin) :=
  closed.next .advance fun _ => closed.callArguments hexpr

theorem atom : K _ (atom config expr) (atom config expr') := by
  apply closed.next .current
  intro t
  split
  case h_9 => exact closed.group hexpr
  case h_10 => exact closed.bracket hexpr
  case h_11 => exact closed.mapLiteral hexpr
  case h_12 => exact closed.caseExpression hexpr
  case h_13 => exact closed.existsCall hexpr
  case h_14 => exact closed.named hexpr
  case h_15 => exact closed.recover
  all_goals exact closed.leaf

end Atoms

/-! ## Suffixes -/

section Suffixes

theorem grown {tree : Expression} {inner : Nat} :
    K _ (grown config o tree inner) (grown config o tree inner) :=
  closed.map (closed.step .checkHeight) _

theorem propertyAccess : K _ (propertyAccess config o) (propertyAccess config o) :=
  closed.next .advance fun _ =>
  closed.next .symbolicName fun _ =>
  closed.next (.spanFrom _) fun _ =>
  closed.grown

theorem indexTail {position : Expression} :
    K _ (indexTail config o position) (indexTail config o position) :=
  closed.next .expect fun _ =>
  closed.next (.spanFrom _) fun _ =>
  closed.grown

theorem labelCheck : K _ (labelCheck config o) (labelCheck config o) :=
  closed.bind closed.labelList fun _ =>
  closed.next (.spanFrom _) fun _ =>
  closed.grown

include hexpr

theorem sliceTail {lower : Option Expression} :
    K _ (sliceTail config expr o lower) (sliceTail config expr' o lower) :=
  closed.next .expect fun _ =>
  closed.bind (closed.unlessDue hexpr) fun _ =>
  closed.next .expect fun _ =>
  closed.next (.spanFrom _) fun _ =>
  closed.grown

theorem subscript : K _ (subscript config expr o) (subscript config expr' o) := by
  apply closed.next .expect
  intro _
  apply closed.bind (closed.unlessDue hexpr)
  intro lower
  apply closed.next .current
  intro t
  cases lower with
  | none => exact closed.sliceTail hexpr
  | some position =>
    dsimp only
    split
    · exact closed.sliceTail hexpr
    · exact closed.indexTail

theorem suffix : K _ (suffix config expr o) (suffix config expr' o) := by
  apply closed.next .current
  intro t
  split
  · exact closed.propertyAccess
  · exact closed.subscript hexpr
  · apply closed.next .lookAhead
    intro ahead
    split
    · exact closed.labelCheck
    · exact closed.step (.pure _)
  · exact closed.step (.pure _)

/-- A closed property of expressions holds of operands. -/
theorem operand : K _ (operand config expr) (operand config expr') :=
  closed.bind (closed.atom hexpr) fun _ =>
  closed.next .checkHeight fun _ =>
  closed.iterate (fun _ => closed.suffix hexpr) _

end Suffixes

end Cypher.Grammar.Closed
