import Cypher.Proofs.Leaves.Pattern
import Cypher.Proofs.Traced.Tokens

/-!
# Tracing patterns

The nodes of a pattern are closed by parentheses and its relationships by a dash
or an arrow, so that every hole in them is sealed. Their stars are those that lead to
a range of hops.
-/

namespace Cypher.Grammar

variable {tokens : List Token} {expr : Parser Expression} {f : Known} {s₀ s : State}

/-! ## Property maps -/

theorem traces_mapEntry (hexpr : Traces tokens .operand expr fun e => [e.sketch]) :
    Traces tokens {} (mapEntry expr) fun e => [e.sketch] := by
  intro s hs
  refine Leads.startHere ?_
  refine (Traced.nothing hs).symbolicName.bind fun key s h => ?_
  refine h.expect.bind fun _ s h => ?_
  refine (hexpr.after h).bind fun value s h => ?_
  exact Leads.spanHere (Leads.pure h.part.forget)

/-- The entries of a map in its braces, which may become an expression or not. -/
theorem traces_mapEntries (hexpr : Traces tokens .operand expr fun e => [e.sketch])
    (hs : s.Underway tokens) :
    Leads (mapEntries expr) s fun found s' =>
      Traced tokens {} .token s (found.1.map MapEntry.sketch) s'
        ∧ found.2 = ⟨s.current.span.start, max s'.stop s.current.span.start⟩ := by
  refine Leads.startHere ?_
  refine (Traced.nothing hs).expect.bind fun _ s h => ?_
  refine ((traces_mapEntry hexpr).commaSeparatedUntil.after h).bind fun entries s h => ?_
  refine h.expect.bind fun _ s h => ?_
  exact Leads.spanHere (Leads.pure ⟨h.of_eq (by simp [List.map_eq_flatMap]), rfl⟩)

theorem traces_properties (hexpr : Traces tokens .operand expr fun e => [e.sketch]) :
    Traces tokens { sealed := true } (properties expr) (·.toList.map Properties.sketch) := by
  intro s hs
  refine Leads.current ?_
  split
  · refine (traces_mapEntries hexpr hs).bind fun found s h => Leads.pure ?_
    obtain ⟨h, hspan⟩ := h
    refine (h.part.of_eq ?_).mono (fun hb => by cases hb) id id
    simp [Properties.sketch, ← hspan]
  · next hdue =>
    refine Leads.advance (Leads.pure ?_)
    exact (Traced.leaf .part (by rw [hdue]; rfl) (by simp) hs (by simp [hdue])
      (by rw [hdue]; rfl)).mono (fun hb => by cases hb) id id
  · exact Leads.pure (Traced.nothing hs)

/-! ## Nodes -/

theorem traces_optionalLabels : Traces tokens { sealed := true } optionalLabels fun _ => [] := by
  intro s hs
  refine Leads.current ?_
  split
  · exact (traces_labelList hs).mono fun _ _ h => h.mono (fun hb => by cases hb) id id
  · exact Leads.pure (Traced.nothing hs)

theorem traces_nodePattern (hexpr : Traces tokens .operand expr fun e => [e.sketch]) :
    Traces tokens .token (nodePattern expr) fun n => [n.sketch] := by
  intro s hs
  refine Leads.startHere ?_
  refine (Traced.nothing hs).expect.bind fun _ s h => ?_
  refine h.optionalVariable.bind fun name s h => ?_
  refine (traces_optionalLabels.after h).bind fun labels s h => ?_
  refine ((traces_properties hexpr).after h).bind fun found s h => ?_
  refine h.expect.bind fun _ s h => ?_
  refine Leads.spanHere (Leads.pure ?_)
  exact h.part.of_eq (by simp [NodePattern.sketch])

/-! ## Relationships -/

theorem traces_hopBound : Traces tokens { sealed := true } hopBound fun _ => [] := by
  intro s hs
  have h := Traced.nothing hs
  refine Leads.current ?_
  split
  · next hdue =>
    split
    · exact Leads.advance (Leads.pure ((h.pass hdue).mono (fun hb => by cases hb) id id))
    · exact Leads.fail
  · exact Leads.pure h

theorem traces_hopRange : Traces tokens { sealed := true } hopRange fun _ => [] := by
  intro s hs
  refine (traces_hopBound hs).bind fun low s h => ?_
  refine (h.consume).bind fun due s h => ?_
  split
  · exact (traces_hopBound.after h).bind fun high s h => Leads.pure h
  · exact Leads.pure h

theorem traces_anotherType : Traces tokens .token anotherType fun _ => [] :=
  fun _ hs => ((Traced.nothing hs).consume).bind fun _ _ h => h.symbolicName

theorem traces_relationshipTypes :
    Traces tokens { sealed := true } relationshipTypes fun _ => [] := by
  intro s hs
  refine ((Traced.nothing hs).consume).bind fun due s h => ?_
  split
  · refine h.symbolicName.bind fun first s h => ?_
    refine (traces_anotherType.behind.many.after h).bind fun others s h => Leads.pure ?_
    exact (h.of_eq (by simp)).mono (fun hb => by cases hb) id id
  · exact Leads.pure h

/-- The star of a relationship is left over until its node is made. -/
theorem traces_hops (hs : s.Underway tokens) :
    Leads (behind (.operator .star) hopRange) s fun hops =>
      Traced tokens { stars := hops.isSome.toNat } { sealed := true } s [] := by
  have h := Traced.nothing hs
  refine Leads.consume (fun hdue => ?_) fun _ => Leads.pure h
  refine (traces_hopRange.after (h.pass hdue)).bind fun hops s h => Leads.pure ?_
  exact h.mono (fun hb => by cases hb) id id

theorem traces_detail (hexpr : Traces tokens .operand expr fun e => [e.sketch])
    (hs : s.Underway tokens) :
    Leads (detail expr) s fun d =>
      Traced tokens { stars := d.hops.isSome.toNat } { sealed := true } s
        (d.properties.toList.map Properties.sketch) := by
  refine (Traced.nothing hs).optionalVariable.bind fun name s h => ?_
  refine (traces_relationshipTypes.after h).bind fun types s h => ?_
  refine (traces_hops h.here).bind fun hops s h' => ?_
  refine ((traces_properties hexpr).after (h.transStars h')).bind fun found s h => Leads.pure ?_
  exact h.of_eq (by simp)

theorem traces_bracketedDetail (hexpr : Traces tokens .operand expr fun e => [e.sketch])
    (hs : s.Underway tokens) :
    Leads (bracketedDetail expr) s fun d =>
      Traced tokens { stars := d.hops.isSome.toNat } { sealed := true } s
        (d.properties.toList.map Properties.sketch) := by
  have h := Traced.nothing hs
  refine Leads.consume (fun hdue => ?_) fun _ => Leads.pure h
  have h := h.pass hdue
  refine (traces_detail hexpr h.here).bind fun d s h' => ?_
  refine (h.transStars h').expect.bind fun _ s h => Leads.pure ?_
  exact h.mono (fun hb => by cases hb) id id

theorem traces_farEnd {incoming : Bool} : Traces tokens .token (farEnd incoming) fun _ => [] := by
  intro s hs
  have h := Traced.nothing hs
  refine Leads.current ?_
  split
  · next hdue =>
    split
    · exact Leads.fail
    · exact Leads.advance (Leads.pure (h.pass hdue))
  · exact h.expect.bind fun _ s h => Leads.pure h

/-- A relationship takes the star of its hops. -/
theorem traces_relationshipPattern (hexpr : Traces tokens .operand expr fun e => [e.sketch]) :
    Traces tokens .token (relationshipPattern expr) fun r => [r.sketch] := by
  intro s hs
  refine Leads.startHere ?_
  refine ((Traced.nothing hs).consume).bind fun incoming s h => ?_
  refine h.expect.bind fun _ s h => ?_
  refine (traces_bracketedDetail hexpr h.here).bind fun d s h' => ?_
  refine (traces_farEnd.after (h.transStars h')).bind fun direction s h => ?_
  refine Leads.spanHere (Leads.pure ?_)
  cases hhops : d.hops with
  | none =>
    rw [hhops] at h
    exact h.part.of_eq (by simp [RelationshipPattern.sketch])
  | some hops =>
    rw [hhops] at h
    exact (Traced.wrap .hops rfl h (by simp)).of_eq (by simp [RelationshipPattern.sketch])

/-! ## Paths -/

theorem traces_link (hexpr : Traces tokens .operand expr fun e => [e.sketch]) :
    Traces tokens { sealed := true } (link expr) (·.toList.flatMap Link.sketches) := by
  intro s hs
  refine Leads.lookAhead ?_
  split
  · refine (traces_relationshipPattern hexpr hs).bind fun r s h => ?_
    refine ((traces_nodePattern hexpr).after h).bind fun n s h => Leads.pure ?_
    exact (h.of_eq (by simp [Link.sketches])).mono (fun hb => by cases hb) id id
  · exact Leads.pure (Traced.nothing hs)

/-- A path takes up all that has been read since it began. -/
theorem Traced.patternChain (h : Traced tokens {} f s₀ [] s)
    (hexpr : Traces tokens .operand expr fun e => [e.sketch]) {name : Option String} :
    Leads (patternChain expr name s₀.current.span.start) s fun p s' =>
      Traced tokens {} .token s₀ [p.sketch] s'
        ∧ p.span = ⟨s₀.current.span.start, max s'.stop s₀.current.span.start⟩ := by
  refine ((traces_nodePattern hexpr).after h).bind fun first s h => ?_
  refine ((traces_link hexpr).many.after h).bind fun chain s h => ?_
  refine Leads.spanHere (Leads.pure ⟨?_, rfl⟩)
  exact h.part.of_eq (by simp [Pattern.sketch])

theorem traces_pathName : Traces tokens { sealed := true } pathName fun _ => [] := by
  intro s hs
  refine Leads.lookAhead ?_
  split
  · next name hname heq =>
    rw [kindAt_succ] at heq
    refine Leads.advance (Leads.advance (Leads.pure ?_))
    have hequals := ((Traced.nothing hs).pass (kind_of_kindAt hname)).pass (kind_of_kindAt heq)
    exact hequals.mono (fun hb => by cases hb) id id
  · exact Leads.pure (Traced.nothing hs)

theorem traces_pattern (hexpr : Traces tokens .operand expr fun e => [e.sketch]) :
    Traces tokens .token (pattern expr) fun p => [p.sketch] := by
  intro s hs
  refine Leads.startHere ?_
  refine (traces_pathName hs).bind fun name s h => ?_
  exact (h.patternChain hexpr).mono fun _ _ h => h.1

theorem traces_patternList (hexpr : Traces tokens .operand expr fun e => [e.sketch]) :
    Traces tokens { sealed := true } (patternList expr) (·.map Pattern.sketch) :=
  fun _ hs => ((traces_pattern hexpr).commaSeparated hs).mono fun _ _ h =>
    h.of_eq List.map_eq_flatMap.symm

end Cypher.Grammar
