import Cypher.Grammar.Operand
import Cypher.Proofs.Laid.Pattern

/-!
# Laying out operands

An atom is laid out from where it begins, and each suffix makes the operand before
it the first part of a wider node. What stands between parentheses is laid out
without them.

A missing operand is the one place where a fault is got over. It may be missing
only where none has been missed, and the hole stands where the fault was found.
-/

namespace Cypher.Grammar

variable {tokens : List Token} {config : Config} {expr : Parser Expression} {b f : Bool}
  {s₀ s : State}

/-! ## Atoms -/

theorem lays_recoverExpression :
    Lays tokens true (recoverExpression config) fun e => [e.outline] := by
  intro s h
  unfold recoverExpression
  split
  · intro e s' hrun
    cases hrun
    exact (h.record _).skipBy _
  · exact Leads.fail

/-- An atom of one token. -/
theorem Since.atomOfToken (h : Since tokens b f s [] s) (hkind : s.current.kind ≠ .eof)
    {make : Span → Expression} (hmake : ∀ span, (make span).outline = .node span []) :
    Leads (Grammar.leaf make) s fun e => Since tokens false false s [e.outline] := by
  refine Leads.current (Leads.advance (Leads.pure ?_))
  exact (h.leaf hkind).forget.of_eq (by rw [hmake]; rfl)

theorem Since.callArguments (h : Since tokens b f s₀ [] s)
    (hexpr : Lays tokens true expr fun e => [e.outline]) {name : List String} :
    Leads (callArguments expr name s₀.current.span.start) s fun e =>
      Since tokens false false s₀ [e.outline] := by
  refine h.expect.bind fun _ s h => ?_
  refine (hexpr.commaSeparatedUntil.after h).bind fun arguments s h => ?_
  refine h.expect.bind fun _ s h => Leads.spanHere (Leads.pure ?_)
  exact h.close.of_eq (by simp [Expression.outline, List.map_eq_flatMap])

theorem Since.call (h : Since tokens b f s₀ [] s) (hkind : s.current.kind ≠ .eof)
    (hexpr : Lays tokens true expr fun e => [e.outline]) {first : String} :
    Leads (call expr first s₀.current.span.start) s fun e =>
      Since tokens false false s₀ [e.outline] := by
  refine Leads.advance ?_
  refine (lays_dottedNames.weaken.after (h.advance hkind)).bind fun others s h => ?_
  exact h.callArguments hexpr

theorem lays_mapSelector (hexpr : Lays tokens true expr fun e => [e.outline]) :
    Lays tokens false (mapSelector expr) fun i => [i.outline] := by
  intro s h
  refine Leads.startHere ?_
  refine Leads.consume (fun hdue => ?_) fun _ => ?_
  · have h := h.pass hdue
    refine Leads.consume (fun hdue => ?_) fun _ => ?_
    · refine Leads.spanHere (Leads.pure ?_)
      exact (h.pass hdue).close
    · refine h.symbolicName.bind fun key s h => Leads.spanHere (Leads.pure ?_)
      exact h.close
  · refine Leads.lookAhead ?_
    split
    · refine (lays_mapEntry hexpr s h).bind fun entry s h => Leads.pure ?_
      exact h
    · refine Leads.current ?_
      have hname : Leads (variableName .projectionItem) s fun _ s' =>
          Since tokens true true s [.node s.current.span []] s' :=
        Leads.variableName fun _ hdue => h.leaf (by simp [hdue])
      exact hname.bind fun name s h => Leads.pure h.forget

theorem Since.mapProjection (h : Since tokens b f s₀ [] s)
    (hexpr : Lays tokens true expr fun e => [e.outline]) {name : String} :
    Leads (mapProjection expr name s₀.current.span.start) s fun e =>
      Since tokens false false s₀ [e.outline] := by
  refine h.expect.bind fun _ s h => ?_
  refine ((lays_mapSelector hexpr).commaSeparatedUntil.weaken.after h).bind
    fun selectors s h => ?_
  refine h.expect.bind fun _ s h => Leads.spanHere (Leads.pure ?_)
  exact h.close.of_eq (by simp [Expression.outline, List.map_eq_flatMap])

theorem Since.named (h : Since tokens b f s [] s) (hkind : s.current.kind ≠ .eof)
    (hexpr : Lays tokens true expr fun e => [e.outline]) {name : String} :
    Leads (named expr name s.current.span) s fun e =>
      Since tokens false false s [e.outline] := by
  refine Leads.lookAhead ?_
  split
  · exact h.call hkind hexpr
  · refine Leads.advance (Leads.current ?_)
    split
    · exact (h.advance hkind).mapProjection hexpr
    · exact Leads.pure (h.leaf hkind).forget

theorem lays_mapLiteral (hexpr : Lays tokens true expr fun e => [e.outline]) :
    Lays tokens false (mapLiteral expr) fun e => [e.outline] := by
  intro s h
  refine (lays_mapEntries hexpr s h).bind fun found s h => Leads.pure ?_
  exact h.of_eq (by simp [Expression.outline])

theorem lays_optionalWhere (hexpr : Lays tokens true expr fun e => [e.outline]) :
    Lays tokens false (optionalWhere expr) (·.toList.map Expression.outline) :=
  fun _ h => (hexpr.behind.after h).mono fun _ _ h => h.of_eq List.map_eq_flatMap.symm

theorem Since.group (h : Since tokens b f s [] s)
    (hexpr : Lays tokens true expr fun e => [e.outline]) :
    Leads (group expr s.current.span.start) s fun e =>
      Since tokens false false s [e.outline] := by
  refine Leads.lookAhead ?_
  split
  · refine (h.forget.patternChain hexpr).bind fun p s h => Leads.pure ?_
    exact h.wrapSame.of_eq (by simp [Expression.outline])
  · refine h.expect.bind fun _ s h => ?_
    refine (hexpr.after h).bind fun inner s h => ?_
    exact h.expect.bind fun _ s h => Leads.pure h.forget

theorem Since.listComprehension (h : Since tokens b f s [] s)
    (hexpr : Lays tokens true expr fun e => [e.outline]) :
    Leads (listComprehension expr s.current.span.start) s fun e =>
      Since tokens false false s [e.outline] := by
  refine h.expect.bind fun _ s h => ?_
  refine h.variableName.bind fun name s h => ?_
  refine h.expect.bind fun _ s h => ?_
  refine (hexpr.after h).bind fun source s h => ?_
  refine ((lays_optionalWhere hexpr).after h).bind fun filter s h => ?_
  refine (hexpr.behind.after h).bind fun projection s h => ?_
  refine h.expect.bind fun _ s h => Leads.spanHere (Leads.pure ?_)
  exact h.close.of_eq (by simp [Expression.outline, List.map_eq_flatMap])

theorem Since.patternComprehension (h : Since tokens b f s [] s)
    (hexpr : Lays tokens true expr fun e => [e.outline]) :
    Leads (patternComprehension expr s.current.span.start) s fun e =>
      Since tokens false false s [e.outline] := by
  refine h.expect.bind fun _ s h => ?_
  refine ((lays_pattern hexpr).weaken.after h).bind fun path s h => ?_
  refine ((lays_optionalWhere hexpr).after h).bind fun filter s h => ?_
  refine h.expect.bind fun _ s h => ?_
  refine (hexpr.after h).bind fun projection s h => ?_
  refine h.expect.bind fun _ s h => Leads.spanHere (Leads.pure ?_)
  exact h.close.of_eq (by simp [Expression.outline])

theorem Since.listLiteral (h : Since tokens b f s [] s)
    (hexpr : Lays tokens true expr fun e => [e.outline]) :
    Leads (listLiteral expr s.current.span.start) s fun e =>
      Since tokens false false s [e.outline] := by
  refine h.expect.bind fun _ s h => ?_
  refine (hexpr.commaSeparatedUntil.after h).bind fun items s h => ?_
  refine h.expect.bind fun _ s h => Leads.spanHere (Leads.pure ?_)
  exact h.close.of_eq (by simp [Expression.outline, List.map_eq_flatMap])

theorem Since.bracket (h : Since tokens b f s [] s)
    (hexpr : Lays tokens true expr fun e => [e.outline]) :
    Leads (bracket expr s.current.span.start) s fun e =>
      Since tokens false false s [e.outline] := by
  refine Leads.lookAhead ?_
  split
  · exact h.listComprehension hexpr
  · split
    · exact h.patternComprehension hexpr
    · exact h.listLiteral hexpr

theorem lays_caseBranch (hexpr : Lays tokens true expr fun e => [e.outline]) :
    Lays tokens false (caseBranch expr) (·.toList.flatMap fun branch => [branch.outline]) := by
  intro s h
  refine Leads.startHere (Leads.consume (fun hdue => ?_) fun _ => Leads.pure h)
  refine (hexpr.after (h.pass hdue)).bind fun condition s h => ?_
  refine h.expect.bind fun _ s h => ?_
  refine (hexpr.after h).bind fun result s h => Leads.spanHere (Leads.pure ?_)
  exact h.close

theorem Since.caseExpression (h : Since tokens b f s [] s)
    (hexpr : Lays tokens true expr fun e => [e.outline]) :
    Leads (caseExpression expr s.current.span.start) s fun e =>
      Since tokens false false s [e.outline] := by
  refine h.expect.bind fun _ s h => ?_
  refine (hexpr.unlessDue.after h).bind fun operand s h => ?_
  refine ((lays_caseBranch hexpr).many.after h).bind fun branches s h => ?_
  split
  · exact Leads.fail
  · refine (hexpr.behind.after h).bind fun otherwise s h => ?_
    refine h.expect.bind fun _ s h => Leads.spanHere (Leads.pure ?_)
    exact h.close.of_eq (by simp [Expression.outline, List.map_eq_flatMap])

/-- An atom is laid out from its first token to its last, and a hole where none
begins. -/
theorem lays_atom (hexpr : Lays tokens true expr fun e => [e.outline]) :
    Lays tokens true (atom config expr) fun e => [e.outline] := by
  intro s h
  have hleaf {make : Span → Expression} (hkind : s.current.kind ≠ .eof)
      (hmake : ∀ span, (make span).outline = .node span []) :
      Leads (leaf make) s fun e => Since tokens false false s [e.outline] :=
    h.atomOfToken hkind hmake
  refine Leads.current ?_
  split
  · next hdue => exact hleaf (by simp [hdue]) fun _ => rfl
  · next hdue => exact hleaf (by simp [hdue]) fun _ => rfl
  · next hdue => exact hleaf (by simp [hdue]) fun _ => rfl
  · next hdue => exact hleaf (by simp [hdue]) fun _ => rfl
  · next hdue => exact hleaf (by simp [hdue]) fun _ => rfl
  · next hdue => exact hleaf (by simp [hdue]) fun _ => rfl
  · next hdue => exact hleaf (by simp [hdue]) fun _ => rfl
  · next hdue => exact hleaf (by simp [hdue]) fun _ => rfl
  · exact h.group hexpr
  · exact h.bracket hexpr
  · exact lays_mapLiteral hexpr s h.forget
  · exact h.caseExpression hexpr
  · next hdue => exact Leads.advance ((h.pass hdue).callArguments hexpr)
  · next hdue => exact h.named (by simp [hdue]) hexpr
  · exact lays_recoverExpression s h

/-! ## Suffixes -/

section Suffixes

variable {o : Operand}

/-- A suffix ends where the reading has come to, and the operand before it is the first
part of the node. -/
theorem Since.suffixed {l : List Outline} (h : Since tokens b f s₀ (o.tree.outline :: l) s)
    {tree : Expression}
    (htree : tree.outline = .node ⟨o.tree.span.start, max s.stop o.tree.span.start⟩
      (o.tree.outline :: l)) {inner : Nat} :
    Leads (grown config o tree inner) s fun r =>
      Since tokens false false s₀ [r.value.tree.outline] := by
  refine Leads.checkHeight (Leads.pure ?_)
  show Since tokens false false s₀ [tree.outline] s
  rw [htree, ← Expression.span_outline]
  refine (h.wrapFirst fun hlt => ?_).forget
  obtain ⟨-, -, -, hstop⟩ := h.placed.exists_edge (Nat.zero_lt_of_lt hlt)
  rw [hstop]
  exact Nat.max_eq_left (Nat.le_of_lt hlt)

theorem Since.propertyAccess (h : Since tokens b f s₀ [o.tree.outline] s) :
    Leads (propertyAccess config o) s fun r =>
      Since tokens false false s₀ [r.value.tree.outline] := by
  refine Leads.advance ?_
  refine h.skip.symbolicName.bind fun key s h => Leads.spanHere ?_
  exact h.suffixed rfl

theorem Since.sliceTail {lower : Option Expression}
    (h : Since tokens b f s₀ (o.tree.outline :: lower.toList.map Expression.outline) s)
    (hexpr : Lays tokens true expr fun e => [e.outline]) :
    Leads (sliceTail config expr o lower) s fun r =>
      Since tokens false false s₀ [r.value.tree.outline] := by
  refine h.expect.bind fun _ s h => ?_
  refine (hexpr.unlessDue.after h).bind fun upper s h => ?_
  refine h.expect.bind fun _ s h => Leads.spanHere ?_
  exact h.suffixed (by simp [Expression.outline, List.map_eq_flatMap])

theorem Since.subscript (h : Since tokens b f s₀ [o.tree.outline] s)
    (hexpr : Lays tokens true expr fun e => [e.outline]) :
    Leads (subscript config expr o) s fun r =>
      Since tokens false false s₀ [r.value.tree.outline] := by
  refine h.expect.bind fun _ s h => ?_
  refine (hexpr.unlessDue.after h).bind fun lower s h => Leads.current ?_
  cases lower with
  | none => exact h.sliceTail hexpr
  | some position =>
    dsimp only
    split
    · exact h.sliceTail hexpr
    · exact h.expect.bind fun _ s h => Leads.spanHere (h.suffixed rfl)

theorem Since.labelCheck (h : Since tokens b false s₀ [o.tree.outline] s) :
    Leads (labelCheck config o) s fun r =>
      Since tokens false false s₀ [r.value.tree.outline] := by
  refine (lays_labelList.after h).bind fun labels s h => Leads.spanHere ?_
  exact h.suffixed rfl

theorem Since.suffix (h : Since tokens false false s₀ [o.tree.outline] s)
    (hexpr : Lays tokens true expr fun e => [e.outline]) :
    Leads (suffix config expr o) s fun r =>
      Since tokens false false s₀ [r.value.tree.outline] := by
  refine Leads.current ?_
  split
  · exact h.propertyAccess
  · exact h.subscript hexpr
  · refine Leads.lookAhead ?_
    split
    · exact h.labelCheck
    · exact Leads.pure h
  · exact Leads.pure h

end Suffixes

theorem lays_operand (hexpr : Lays tokens true expr fun e => [e.outline]) :
    Lays tokens true (operand config expr) fun o => [o.tree.outline] := by
  intro s h
  refine (lays_atom hexpr s h).bind fun tree s h => Leads.checkHeight ?_
  exact Leads.iterate h fun o s h => h.suffix hexpr

end Cypher.Grammar
