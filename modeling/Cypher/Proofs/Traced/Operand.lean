import Cypher.Grammar.Operand
import Cypher.Proofs.Traced.Pattern

/-!
# Tracing operands

An atom is traced from its first token to its last. Parentheses leave no node: they
are put around the frame of the expression between them, and that frame goes on to
the suffix behind them, whose node begins with its operand and so in the middle of
the parentheses.
-/

namespace Cypher.Grammar

open Token (Kind)

variable {tokens : List Token} {config : Config} {expr : Parser Expression} {f : Known}
  {s₀ s : State}

/-! ## Atoms -/

theorem traces_recoverExpression :
    Traces tokens .operand (recoverExpression config) fun e => [e.sketch] := by
  intro s hs
  unfold recoverExpression
  split
  · exact Traced.missing hs
  · exact Leads.fail

/-- An atom of one token. -/
theorem traces_leaf (hs : s.Underway tokens) (hkind : s.current.kind ≠ .eof)
    {make : Span → Expression} {form : Form} (hmake : ∀ span, (make span).sketch = .node form span [])
    (hform : form.isExpression = true ∧ form ≠ .hole)
    (hstarred : form.isStarred = s.current.kind.isStar)
    (hplain : s.current.kind.closing [] = some []) :
    Leads (leaf make) s fun e => Traced tokens {} .operand s [e.sketch] := by
  refine Leads.current (Leads.advance (Leads.pure ?_))
  have hitem : form ≠ .item := by
    rintro rfl
    exact absurd hform.1 (by decide)
  rw [hmake]
  exact (Traced.leaf form hstarred ⟨hform.2, hitem⟩ hs hkind hplain).asOperand hform.1

section Atoms

variable (hexpr : Traces tokens .operand expr fun e => [e.sketch])

include hexpr

theorem Traced.callArguments (h : Traced tokens {} .token s₀ [] s) {name : List String} :
    Leads (callArguments expr name s₀.current.span.start) s fun e =>
      Traced tokens {} .operand s₀ [e.sketch] := by
  refine h.expect.bind fun _ s h => ?_
  refine (hexpr.commaSeparatedUntil.after h).bind fun arguments s h => ?_
  refine h.expect.bind fun _ s h => Leads.spanHere (Leads.pure ?_)
  exact h.close.of_eq (by simp [Expression.sketch, List.map_eq_flatMap])

theorem Traced.call (h : Traced tokens {} .token s₀ [] s.advance) {first : String} :
    Leads (call expr first s₀.current.span.start) s fun e =>
      Traced tokens {} .operand s₀ [e.sketch] := by
  refine Leads.advance ?_
  exact (traces_dottedNames.after h).bind fun others s h => h.callArguments hexpr

omit hexpr in
/-- A point leads to a key or to the star of a map projection. -/
theorem Traced.dotSelector (h : Traced tokens {} .token s₀ [] s) :
    Leads (dotSelector s₀.current.span.start) s fun i => Traced tokens {} {} s₀ [i.sketch] := by
  refine Leads.consume (fun hdue => ?_) fun _ => ?_
  · refine Leads.spanHere (Leads.pure ?_)
    exact (Traced.wrap .everyKey rfl (h.pass hdue) (by simp)).forget
  · refine h.symbolicName.bind fun key s h => Leads.spanHere (Leads.pure ?_)
    exact h.part.forget

theorem traces_mapSelector : Traces tokens {} (mapSelector expr) fun i => [i.sketch] := by
  intro s hs
  refine Leads.startHere ?_
  refine Leads.consume (fun hdue => ((Traced.nothing hs).pass hdue).dotSelector) fun _ => ?_
  refine Leads.lookAhead ?_
  split
  · exact (traces_mapEntry hexpr hs).bind fun entry s h => Leads.pure h
  · refine Leads.current ?_
    have hname : Leads (variableName .projectionItem) s fun _ s' =>
        Traced tokens {} {} s [.node .part s.current.span []] s' := by
      refine Leads.variableName fun name hdue => ?_
      exact (Traced.leaf .part (by rw [hdue]; rfl) (by simp) hs (by simp [hdue])
        (by rw [hdue]; rfl)).forget
    exact hname.bind fun name s h => Leads.pure h

theorem Traced.mapProjection (h : Traced tokens {} .token s₀ [] s) {name : String} :
    Leads (mapProjection expr name s₀.current.span.start) s fun e =>
      Traced tokens {} .operand s₀ [e.sketch] := by
  refine h.expect.bind fun _ s h => ?_
  refine ((traces_mapSelector hexpr).commaSeparatedUntil.after h).bind fun selectors s h => ?_
  refine h.expect.bind fun _ s h => Leads.spanHere (Leads.pure ?_)
  exact h.close.of_eq (by simp [Expression.sketch, List.map_eq_flatMap])

theorem traces_named (hs : s.Underway tokens) {name : String}
    (hdue : s.current.kind = .identifier name) :
    Leads (named expr name s.current.span) s fun e => Traced tokens {} .operand s [e.sketch] := by
  have h := (Traced.nothing hs).pass hdue
  refine Leads.lookAhead ?_
  split
  · exact h.call hexpr
  · refine Leads.advance (Leads.current ?_)
    split
    · exact h.mapProjection hexpr
    · refine Leads.pure ?_
      exact (Traced.leaf .atom (by rw [hdue]; rfl) (by simp) hs (by simp [hdue])
        (by rw [hdue]; rfl)).asOperand rfl

theorem traces_mapLiteral : Traces tokens .operand (mapLiteral expr) fun e => [e.sketch] := by
  intro s hs
  refine (traces_mapEntries hexpr hs).bind fun found s h => Leads.pure ?_
  obtain ⟨h, hspan⟩ := h
  exact h.close.of_eq (by simp [Expression.sketch, ← hspan])

theorem traces_optionalWhere :
    Traces tokens {} (optionalWhere expr) (·.toList.map Expression.sketch) := by
  have hbehind : Traces tokens {} (behind (.keyword .WHERE) expr) _ := hexpr.behind
  exact fun _ hs => (hbehind hs).mono fun _ _ h => h.of_eq List.map_eq_flatMap.symm

theorem traces_group (hs : s.Underway tokens) (hdue : s.current.kind = .punctuation .lparen) :
    Leads (group expr s.current.span.start) s fun e => Traced tokens {} .operand s [e.sketch] := by
  refine Leads.lookAhead ?_
  split
  · refine ((Traced.nothing hs).patternChain hexpr).bind fun p s h => Leads.pure ?_
    exact h.1.close.of_eq (by simp [Expression.sketch, h.2])
  · refine Leads.expect fun _ => ?_
    refine (hexpr hs.advance).bind fun inner s h => Leads.expect fun hclose => Leads.pure ?_
    exact Traced.parenthesize hs hdue h hclose

theorem traces_listComprehension (hs : s.Underway tokens) :
    Leads (listComprehension expr s.current.span.start) s fun e =>
      Traced tokens {} .operand s [e.sketch] := by
  refine (Traced.nothing hs).expect.bind fun _ s h => ?_
  refine h.variableName.bind fun name s h => ?_
  refine h.expect.bind fun _ s h => ?_
  refine (hexpr.after h).bind fun source s h => ?_
  refine ((traces_optionalWhere hexpr).after h).bind fun filter s h => ?_
  refine (hexpr.behind.after h).bind fun projection s h => ?_
  refine h.expect.bind fun _ s h => Leads.spanHere (Leads.pure ?_)
  exact h.close.of_eq (by simp [Expression.sketch, List.map_eq_flatMap])

theorem traces_patternComprehension (hs : s.Underway tokens) :
    Leads (patternComprehension expr s.current.span.start) s fun e =>
      Traced tokens {} .operand s [e.sketch] := by
  refine (Traced.nothing hs).expect.bind fun _ s h => ?_
  refine ((traces_pattern hexpr).after h).bind fun path s h => ?_
  refine ((traces_optionalWhere hexpr).after h).bind fun filter s h => ?_
  refine h.expect.bind fun _ s h => ?_
  refine (hexpr.after h).bind fun projection s h => ?_
  refine h.expect.bind fun _ s h => Leads.spanHere (Leads.pure ?_)
  exact h.close.of_eq (by simp [Expression.sketch])

theorem traces_listLiteral (hs : s.Underway tokens) :
    Leads (listLiteral expr s.current.span.start) s fun e =>
      Traced tokens {} .operand s [e.sketch] := by
  refine (Traced.nothing hs).expect.bind fun _ s h => ?_
  refine (hexpr.commaSeparatedUntil.after h).bind fun items s h => ?_
  refine h.expect.bind fun _ s h => Leads.spanHere (Leads.pure ?_)
  exact h.close.of_eq (by simp [Expression.sketch, List.map_eq_flatMap])

theorem traces_bracket (hs : s.Underway tokens) :
    Leads (bracket expr s.current.span.start) s fun e =>
      Traced tokens {} .operand s [e.sketch] := by
  refine Leads.lookAhead ?_
  split
  · exact traces_listComprehension hexpr hs
  · split
    · exact traces_patternComprehension hexpr hs
    · exact traces_listLiteral hexpr hs

theorem traces_caseBranch :
    Traces tokens {} (caseBranch expr) (·.toList.flatMap fun branch => [branch.sketch]) := by
  intro s hs
  have h := Traced.nothing hs
  refine Leads.startHere (Leads.consume (fun hdue => ?_) fun _ => Leads.pure h.forget)
  refine (hexpr.after (h.pass hdue)).bind fun condition s h => ?_
  refine h.expect.bind fun _ s h => ?_
  refine (hexpr.after h).bind fun result s h => Leads.spanHere (Leads.pure ?_)
  exact h.part.forget

theorem traces_caseExpression (hs : s.Underway tokens) :
    Leads (caseExpression expr s.current.span.start) s fun e =>
      Traced tokens {} .operand s [e.sketch] := by
  refine (Traced.nothing hs).expect.bind fun _ s h => ?_
  refine (hexpr.unlessDue.after h).bind fun operand s h => ?_
  refine ((traces_caseBranch hexpr).many.after h).bind fun branches s h => ?_
  split
  · exact Leads.fail
  · refine (hexpr.behind.after h).bind fun otherwise s h => ?_
    refine h.expect.bind fun _ s h => Leads.spanHere (Leads.pure ?_)
    exact h.close.of_eq (by simp [Expression.sketch, List.map_eq_flatMap])

/-- An atom is traced from its first token to its last, and a hole where none begins. -/
theorem traces_atom : Traces tokens .operand (atom config expr) fun e => [e.sketch] := by
  intro s hs
  have hleaf {make : Span → Expression} {kind : Kind} (hdue : s.current.kind = kind)
      (hkind : kind ≠ .eof) (hmake : ∀ span, (make span).sketch = .node .atom span [])
      (hstarred : kind.isStar = false) (hplain : kind.closing [] = some []) :
      Leads (leaf make) s fun e => Traced tokens {} .operand s [e.sketch] :=
    traces_leaf hs (hdue ▸ hkind) hmake (by simp [Form.isExpression]) (hdue ▸ hstarred.symm)
      (hdue ▸ hplain)
  refine Leads.current ?_
  split
  · next hdue => exact hleaf hdue (by simp) (fun _ => rfl) rfl rfl
  · next hdue => exact hleaf hdue (by simp) (fun _ => rfl) rfl rfl
  · next hdue => exact hleaf hdue (by simp) (fun _ => rfl) rfl rfl
  · next hdue => exact hleaf hdue (by simp) (fun _ => rfl) rfl rfl
  · next hdue => exact hleaf hdue (by simp) (fun _ => rfl) rfl rfl
  · next hdue => exact hleaf hdue (by simp) (fun _ => rfl) rfl rfl
  · next hdue => exact hleaf hdue (by simp) (fun _ => rfl) rfl rfl
  · next hdue =>
    exact traces_leaf hs (by simp [hdue]) (fun _ => rfl) (by simp [Form.isExpression])
      (by rw [hdue]; rfl) (by rw [hdue]; rfl)
  · next hdue => exact traces_group hexpr hs hdue
  · exact traces_bracket hexpr hs
  · exact traces_mapLiteral hexpr hs
  · exact traces_caseExpression hexpr hs
  · next hdue => exact Leads.advance (((Traced.nothing hs).pass hdue).callArguments hexpr)
  · next hdue => exact traces_named hexpr hs hdue
  · exact traces_recoverExpression hs

end Atoms

/-! ## Suffixes -/

section Suffixes

variable {o : Operand} {l : List Sketch}

/-- The node of a suffix goes from its operand to where the reading has come to. -/
theorem Traced.suffixed (h : Traced tokens {} .operand s₀ [o.tree.sketch] s) {s' : State}
    (h' : Traced tokens {} .token s l s') {tree : Expression}
    (htree : tree.sketch = .node .compound ⟨o.tree.span.start, max s'.stop o.tree.span.start⟩
      (o.tree.sketch :: l)) {inner : Nat} :
    Leads (grown config o tree inner) s' fun r =>
      Traced tokens {} .operand s₀ [r.value.tree.sketch] := by
  refine Leads.checkHeight (Leads.pure ?_)
  show Traced tokens {} .operand s₀ [tree.sketch] s'
  have hinside := h.inside _ List.mem_cons_self
  have hlt := h'.begun rfl
  have hstop : max s'.stop o.tree.span.start = s'.edge := by
    rw [h'.here.stop_eq, ← Expression.span_sketch]
    omega
  rw [htree, hstop, ← Expression.span_sketch]
  exact h.extend h'

theorem Traced.propertyAccess (h : Traced tokens {} .operand s₀ [o.tree.sketch] s)
    (hdue : s.current.kind = .punctuation .dot) :
    Leads (propertyAccess config o) s fun r =>
      Traced tokens {} .operand s₀ [r.value.tree.sketch] := by
  refine Leads.advance ?_
  refine ((Traced.nothing h.here).pass hdue).symbolicName.bind fun key s' h' => Leads.spanHere ?_
  exact h.suffixed h' rfl

theorem Traced.sliceTail {lower : Option Expression} {s' : State}
    (h : Traced tokens {} .operand s₀ [o.tree.sketch] s)
    (h' : Traced tokens { due := some [.rbracket] } f s (lower.toList.map Expression.sketch) s')
    (hexpr : Traces tokens .operand expr fun e => [e.sketch]) :
    Leads (sliceTail config expr o lower) s' fun r =>
      Traced tokens {} .operand s₀ [r.value.tree.sketch] := by
  refine h'.expect.bind fun _ s h' => ?_
  refine (hexpr.unlessDue.after h').bind fun upper s h' => ?_
  refine h'.expect.bind fun _ s h' => Leads.spanHere ?_
  exact h.suffixed h' (by simp [Expression.sketch, List.map_eq_flatMap])

theorem Traced.subscript (h : Traced tokens {} .operand s₀ [o.tree.sketch] s)
    (hexpr : Traces tokens .operand expr fun e => [e.sketch]) :
    Leads (subscript config expr o) s fun r =>
      Traced tokens {} .operand s₀ [r.value.tree.sketch] := by
  refine (Traced.nothing h.here).expect.bind fun _ s h' => ?_
  refine (hexpr.unlessDue.after h').bind fun lower s h' => Leads.current ?_
  cases lower with
  | none => exact h.sliceTail h' hexpr
  | some position =>
    dsimp only
    split
    · exact h.sliceTail h' hexpr
    · exact h'.expect.bind fun _ s h' => Leads.spanHere (h.suffixed h' rfl)

theorem Traced.labelCheck (h : Traced tokens {} .operand s₀ [o.tree.sketch] s) :
    Leads (labelCheck config o) s fun r =>
      Traced tokens {} .operand s₀ [r.value.tree.sketch] := by
  refine (traces_labelList h.here).bind fun labels s h' => Leads.spanHere ?_
  exact h.suffixed h' rfl

theorem Traced.suffix (h : Traced tokens {} .operand s₀ [o.tree.sketch] s)
    (hexpr : Traces tokens .operand expr fun e => [e.sketch]) :
    Leads (suffix config expr o) s fun r =>
      Traced tokens {} .operand s₀ [r.value.tree.sketch] := by
  refine Leads.current ?_
  split
  · next hdue => exact h.propertyAccess hdue
  · exact h.subscript hexpr
  · refine Leads.lookAhead ?_
    split
    · exact h.labelCheck
    · exact Leads.pure h
  · exact Leads.pure h

end Suffixes

theorem traces_operand (hexpr : Traces tokens .operand expr fun e => [e.sketch]) :
    Traces tokens .operand (operand config expr) fun o => [o.tree.sketch] := by
  intro s hs
  refine (traces_atom hexpr hs).bind fun tree s h => Leads.checkHeight ?_
  exact Leads.iterate h fun o s h => h.suffix hexpr

end Cypher.Grammar
