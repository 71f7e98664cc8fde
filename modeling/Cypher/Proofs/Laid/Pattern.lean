import Cypher.Grammar.Pattern
import Cypher.Proofs.Laid.Tokens

/-!
# Laying out patterns

The nodes of a pattern begin with a token of their own, so they may be read
from anywhere: only the values in property maps need a fresh place, and each
stands behind its colon.
-/

namespace Cypher.Grammar

variable {tokens : List Token} {expr : Parser Expression} {b : Bool} {s₀ s : State}

/-! ## Property maps -/

theorem lays_mapEntry (hexpr : Lays tokens true expr fun e => [e.outline]) :
    Lays tokens false (mapEntry expr) fun e => [e.outline] := by
  intro s h
  refine Leads.startHere ?_
  refine h.symbolicName.bind fun key s h => ?_
  refine h.expect.bind fun _ s h => ?_
  refine (hexpr.after h).bind fun value s h => ?_
  exact Leads.spanHere (Leads.pure h.close)

theorem lays_mapEntries (hexpr : Lays tokens true expr fun e => [e.outline]) :
    Lays tokens false (mapEntries expr) fun found =>
      [.node found.2 (found.1.map MapEntry.outline)] := by
  intro s h
  refine Leads.startHere ?_
  refine h.expect.bind fun _ s h => ?_
  refine ((lays_mapEntry hexpr).commaSeparatedUntil.weaken.after h).bind fun entries s h => ?_
  refine h.expect.bind fun _ s h => ?_
  refine Leads.spanHere (Leads.pure ?_)
  exact h.close.of_eq (by simp [List.map_eq_flatMap])

theorem lays_properties (hexpr : Lays tokens true expr fun e => [e.outline]) :
    Lays tokens false (properties expr) (·.toList.map Properties.outline) := by
  intro s h
  refine Leads.current ?_
  split
  · refine (lays_mapEntries hexpr s h).bind fun found s h => Leads.pure ?_
    exact h.of_eq (by simp [Properties.outline])
  · next hdue =>
    refine Leads.advance (Leads.pure ?_)
    exact (h.leaf (by simp [hdue])).forget
  · exact Leads.pure h

/-! ## Nodes -/

theorem lays_optionalLabels : Lays tokens false optionalLabels fun _ => [] := by
  intro s h
  refine Leads.current ?_
  split
  · exact lays_labelList s h
  · exact Leads.pure h

theorem lays_nodePattern (hexpr : Lays tokens true expr fun e => [e.outline]) :
    Lays tokens false (nodePattern expr) fun n => [n.outline] := by
  intro s h
  refine Leads.startHere ?_
  refine h.expect.bind fun _ s h => ?_
  refine h.optionalVariable.bind fun name s h => ?_
  refine (lays_optionalLabels.weaken.after h).bind fun labels s h => ?_
  refine ((lays_properties hexpr).after h).bind fun found s h => ?_
  refine h.expect.bind fun _ s h => ?_
  refine Leads.spanHere (Leads.pure ?_)
  exact h.close.of_eq (by simp [NodePattern.outline])

/-! ## Relationships -/

theorem lays_hopBound : Lays tokens false hopBound fun _ => [] := by
  intro s h
  refine Leads.current ?_
  split
  · next hdue =>
    split
    · exact Leads.advance (Leads.pure (h.pass hdue).forget)
    · exact Leads.fail
  · exact Leads.pure h

theorem lays_hopRange : Lays tokens false hopRange fun _ => [] := by
  intro s h
  refine (lays_hopBound s h).bind fun low s h => ?_
  refine h.consume.bind fun due s h => ?_
  split
  · exact (lays_hopBound.after h).bind fun high s h => Leads.pure h
  · exact Leads.pure h

theorem lays_anotherType : Lays tokens false anotherType fun _ => [] := by
  intro s h
  exact h.consume.bind fun _ s h => h.symbolicName.mono fun _ _ h => h.forget

theorem lays_relationshipTypes : Lays tokens false relationshipTypes fun _ => [] := by
  intro s h
  refine h.consume.bind fun due s h => ?_
  split
  · refine h.symbolicName.bind fun first s h => ?_
    refine (lays_anotherType.weaken.behind.many.weaken.after h).bind fun others s h => ?_
    exact Leads.pure (h.forget.of_eq (by simp))
  · exact Leads.pure h

theorem lays_detail (hexpr : Lays tokens true expr fun e => [e.outline]) :
    Lays tokens false (detail expr) (·.properties.toList.map Properties.outline) := by
  intro s h
  refine h.optionalVariable.bind fun name s h => ?_
  refine (lays_relationshipTypes.after h).bind fun types s h => ?_
  refine (lays_hopRange.weaken.behind.after h).bind fun hops s h => ?_
  refine ((lays_properties hexpr).after h).bind fun found s h => Leads.pure ?_
  exact h.of_eq (by simp)

theorem lays_bracketedDetail (hexpr : Lays tokens true expr fun e => [e.outline]) :
    Lays tokens false (bracketedDetail expr) (·.properties.toList.map Properties.outline) := by
  intro s h
  refine h.consume.bind fun due s h => ?_
  split
  · refine ((lays_detail hexpr).after h).bind fun found s h => ?_
    exact h.expect.bind fun _ s h => Leads.pure h.forget
  · exact Leads.pure h

theorem lays_farEnd {incoming : Bool} : Lays tokens false (farEnd incoming) fun _ => [] := by
  intro s h
  refine Leads.current ?_
  split
  · next hdue =>
    split
    · exact Leads.fail
    · exact Leads.advance (Leads.pure (h.pass hdue).forget)
  · exact h.expect.bind fun _ s h => Leads.pure h.forget

theorem lays_relationshipPattern (hexpr : Lays tokens true expr fun e => [e.outline]) :
    Lays tokens false (relationshipPattern expr) fun r => [r.outline] := by
  intro s h
  refine Leads.startHere ?_
  refine h.consume.bind fun incoming s h => ?_
  refine h.expect.bind fun _ s h => ?_
  refine ((lays_bracketedDetail hexpr).weaken.after h).bind fun found s h => ?_
  refine (lays_farEnd.after h).bind fun direction s h => ?_
  refine Leads.spanHere (Leads.pure ?_)
  exact h.close.of_eq (by simp [RelationshipPattern.outline])

/-! ## Paths -/

theorem lays_link (hexpr : Lays tokens true expr fun e => [e.outline]) :
    Lays tokens false (link expr) (·.toList.flatMap Link.outlines) := by
  intro s h
  refine Leads.lookAhead ?_
  split
  · refine (lays_relationshipPattern hexpr s h).bind fun r s h => ?_
    refine ((lays_nodePattern hexpr).after h).bind fun n s h => Leads.pure ?_
    exact h.of_eq (by simp [Link.outlines])
  · exact Leads.pure h

/-- A path takes up all that has been read since it began. -/
theorem Since.patternChain (h : Since tokens b false s₀ [] s)
    (hexpr : Lays tokens true expr fun e => [e.outline]) {name : Option String} :
    Leads (patternChain expr name s₀.current.span.start) s fun p =>
      Since tokens false false s₀ [p.outline] := by
  refine ((lays_nodePattern hexpr).after h).bind fun first s h => ?_
  refine ((lays_link hexpr).many.after h).bind fun chain s h => ?_
  refine Leads.spanHere (Leads.pure ?_)
  exact ((h.wrap (.inr (by simp))).forget).of_eq (by simp [Pattern.outline])

theorem lays_pathName : Lays tokens false pathName fun _ => [] := by
  intro s h
  refine Leads.lookAhead ?_
  split
  · exact Leads.advance (Leads.advance (Leads.pure h.skip.skip))
  · exact Leads.pure h

theorem lays_pattern (hexpr : Lays tokens true expr fun e => [e.outline]) :
    Lays tokens false (pattern expr) fun p => [p.outline] := by
  intro s h
  refine Leads.startHere ?_
  refine (lays_pathName s h).bind fun name s h => ?_
  exact h.patternChain hexpr

theorem lays_patternList (hexpr : Lays tokens true expr fun e => [e.outline]) :
    Lays tokens false (patternList expr) (·.map Pattern.outline) :=
  fun s h => ((lays_pattern hexpr).commaSeparated s h).mono fun _ _ h =>
    h.of_eq List.map_eq_flatMap.symm

end Cypher.Grammar
