import Cypher.Proofs.Enclosed.Operand
import Cypher.Proofs.Leaves.Clause

/-!
# Clauses around a parenthesis put in

A clause starts with a word, and between its parts stand words and names. No
parenthesis is put in front of those: at the seam an operand stands.
-/

namespace Cypher.Grammar

open Token (Kind)
open Insertion

variable {κ : Insertion} {expr refusing expr' : Parser Expression} {brackets : List Bracket}
  {modes : List Mode} {d begin : Nat} {name : String}

theorem shadowed_optionalAlias (law : κ.Lawful) :
    Shadowed κ d optionalAlias optionalAlias optionalAlias brackets [.value, .call] :=
  (Shadowed.variableName law).behind law rfl (.plain rfl (by simp))

/-- At the seam no reserved word stands but those that start an operand. -/
theorem At.clauseBehind_of_seam {o : Outlook} {read : List Leaf} {s : State} {word : Keyword}
    (hfits : κ.Fits (d + 1) o brackets) (law : κ.Lawful) (h : At o read brackets modes s)
    (hs : s.ahead = κ.seam) (hapt : κ.apt) (hdue : s.current.kind = .keyword word) :
    clauseBehind expr word begin = none := by
  have hstarts := (law.opening (h.opens_of_seam hfits hs) hapt).startsAtom_current hs
  rw [hdue] at hstarts
  cases word <;> first | rfl | cases hstarts

/-! ## `MATCH`, `CREATE` and `MERGE` -/

section Clauses

variable (hexpr : ShadowedValues κ expr refusing expr')

include hexpr

theorem shadowed_matchClause (kind : MatchKind) :
    Shadowed κ (d + 1) (matchClause expr kind begin) (matchClause refusing kind begin)
      (matchClause expr' kind begin) [] [.value] := by
  refine (shadowed_patternList hexpr (by simp)).bind (covers_patternList hexpr.covers (by simp))
    fun _ => ?_
  refine ((shadowed_optionalWhere hexpr (by simp)).mono (by simp)).bind
    ((covers_optionalWhere hexpr.covers (by simp)).mono (by simp) (List.Subset.refl _)) fun _ => ?_
  exact .spanFrom fun _ => .pure _

theorem shadowed_qualifiedMatch (kind : MatchKind) :
    Shadowed κ (d + 1) (qualifiedMatch expr kind begin) (qualifiedMatch refusing kind begin)
      (qualifiedMatch expr' kind begin) [] [.value] :=
  .expect hexpr.law rfl (.plain rfl (by simp)) (shadowed_matchClause hexpr kind)

theorem shadowed_createClause :
    Shadowed κ (d + 1) (createClause expr begin) (createClause refusing begin) (createClause expr' begin)
      [] [.value] :=
  (shadowed_patternList hexpr (by simp)).bind (covers_patternList hexpr.covers (by simp)) fun _ =>
    .spanFrom fun _ => .pure _

omit hexpr in
theorem shadowed_assignment (law : κ.Lawful) :
    Shadowed κ (d + 1) assignment assignment assignment brackets [.value, .call] :=
  .consume law rfl (.operator (.inl (by simp)) (by simp)) (.pure _)
    (.consume law rfl (.operator (.inl (by simp)) (by simp)) (.pure _) .fail)

/-- An assigned value, and what is made of it. -/
theorem shadowed_assigned {β : Type} {make : Assignment → Expression → Span → β} :
    Shadowed κ (d + 1)
      (assignment >>= fun how => expr >>= fun value => spanFrom begin >>= fun span =>
        pure (make how value span))
      (assignment >>= fun how => refusing >>= fun value => spanFrom begin >>= fun span =>
        pure (make how value span))
      (assignment >>= fun how => expr' >>= fun value => spanFrom begin >>= fun span =>
        pure (make how value span)) [] [.value, .call] :=
  (shadowed_assignment hexpr.law).bind covers_assignment fun _ =>
    (hexpr.shadowed (by simp)).deeper.bind (hexpr.covers (by simp)) fun _ =>
      .spanFrom fun _ => .pure _

theorem shadows_setProperty {o : Outlook} {read : List Leaf} {s : State} (hfits : κ.Fits (d + 1) o [])
    (hdue : s.current.kind = .punctuation .dot) (h : At o read [] modes s) :
    Shadows κ (setProperty expr name begin) (setProperty refusing name begin)
      (setProperty expr' name begin) s := by
  refine .advance hexpr.law (by rw [hdue]; exact nofun) ?_
  have hkey : Shadowed κ (d + 1) (symbolicName .propertyKey) (symbolicName .propertyKey)
      (symbolicName .propertyKey) [] [.name] := .symbolicName hexpr.law
  refine (hkey.bind (covers_symbolicName .propertyKey) fun _ => .spanFrom fun _ => ?_) hfits
    (h.advance_nil (.dot hdue))
  exact (shadowed_assigned hexpr).mono (by simp)

omit hexpr in
theorem shadowed_setLabels (law : κ.Lawful) :
    Shadowed κ (d + 1) (setLabels name begin) (setLabels name begin) (setLabels name begin) []
      [.value, .call] :=
  (Shadowed.labelList law).bind covers_labelList fun _ => .spanFrom fun _ => .pure _

theorem shadowed_setItem :
    Shadowed κ (d + 1) (setItem expr) (setItem refusing) (setItem expr') [] [.value] := by
  have law := hexpr.law
  refine .start law fun begin =>
    (Shadowed.variableName law).bind (covers_variableName (by simp) _) fun name => ?_
  have hvariable : Shadowed κ (d + 1) (setVariable expr name begin) (setVariable refusing name begin)
      (setVariable expr' name begin) [] [.value, .call] := shadowed_assigned hexpr
  refine .current (fun o read s hfits h => ?_) fun o read s hfits h hs hapt => ?_
  · split
    · next hdue => exact shadows_setProperty hexpr hfits hdue h
    · exact shadowed_setLabels law hfits (h.mono (by simp))
    · exact hvariable hfits (h.mono (by simp))
  · exact absurd hapt (h.not_seam hfits law (by simp) hs)

theorem shadowed_setItems :
    Shadowed κ (d + 1) (setItems expr) (setItems refusing) (setItems expr') [] [.value] :=
  .commaSeparated hexpr.law (.comma (by simp)) (.of ((closed_moves {}).setItem hexpr.coincides))
    (covers_setItem hexpr.covers) (shadowed_setItem hexpr)

omit hexpr in
theorem shadowed_mergeTrigger (law : κ.Lawful) :
    Shadowed κ (d + 1) mergeTrigger mergeTrigger mergeTrigger brackets [.value] :=
  .consume law rfl (.plain rfl (by simp)) (.pure _)
    (.consume law rfl (.plain rfl (by simp)) (.pure _) .fail)

theorem shadowed_mergeAction :
    Shadowed κ (d + 1) (mergeAction expr) (mergeAction refusing) (mergeAction expr') []
      [.value, .call] := by
  have law := hexpr.law
  refine .start law fun begin =>
    .consume law rfl (.plain rfl (by simp)) ?_ (.pure _)
  refine (shadowed_mergeTrigger law).bind covers_mergeTrigger fun trigger => ?_
  refine .expect law rfl (.plain rfl (by simp)) ?_
  exact (shadowed_setItems hexpr).bind (covers_setItems hexpr.covers) fun _ =>
    .spanFrom fun _ => .pure _

theorem shadowed_mergeClause :
    Shadowed κ (d + 1) (mergeClause expr begin) (mergeClause refusing begin)
      (mergeClause expr' begin) [] [.value] := by
  refine (shadowed_patternList hexpr (by simp)).bind (covers_patternList hexpr.covers (by simp))
    fun _ => ?_
  have hactions := Shadowed.many hexpr.law (shortens_mergeAction hexpr.coincides)
    (covers_mergeAction hexpr.covers) (shadowed_mergeAction (d := d) hexpr)
  exact (hactions.bind (covers_mergeAction hexpr.covers).many fun _ =>
    .spanFrom fun _ => .pure _).mono (by simp)

/-! ## `SET`, `DELETE` and `REMOVE` -/

theorem shadowed_setClause :
    Shadowed κ (d + 1) (setClause expr begin) (setClause refusing begin) (setClause expr' begin)
      [] [.value] :=
  (shadowed_setItems hexpr).bind (covers_setItems hexpr.covers) fun _ => .spanFrom fun _ => .pure _

theorem shadowed_deleteClause (detach : Bool) :
    Shadowed κ (d + 1) (deleteClause expr detach begin) (deleteClause refusing detach begin)
      (deleteClause expr' detach begin) [] [.value] :=
  (Shadowed.commaSeparated hexpr.law (.comma (by simp)) (.of hexpr.coincides)
    (hexpr.covers (by simp)) (hexpr.shadowed (by simp)).deeper).bind
    ((hexpr.covers (by simp)).commaSeparated (.comma (by simp))) fun _ => .spanFrom fun _ => .pure _

theorem shadowed_detachClause :
    Shadowed κ (d + 1) (detachClause expr begin) (detachClause refusing begin)
      (detachClause expr' begin) [] [.value] :=
  .expect hexpr.law rfl (.plain rfl (by simp)) (shadowed_deleteClause hexpr true)

omit hexpr in
theorem shadowed_removeTail (law : κ.Lawful) :
    Shadowed κ (d + 1) (removeTail name begin) (removeTail name begin) (removeTail name begin) []
      [.value, .call] := by
  refine .consume law rfl .dot ?_ ?_
  · exact (Shadowed.symbolicName law).bind (covers_symbolicName .propertyKey) fun _ =>
      .spanFrom fun _ => .pure _
  · exact (Shadowed.labelList law).bind covers_labelList fun _ => .spanFrom fun _ => .pure _

omit hexpr in
theorem shadowed_removeItem (law : κ.Lawful) :
    Shadowed κ (d + 1) removeItem removeItem removeItem [] [.value] :=
  .start law fun _ => (Shadowed.variableName law).bind (covers_variableName (by simp) _)
    fun _ => (shadowed_removeTail law).mono (by simp)

omit hexpr in
theorem shadowed_removeClause (law : κ.Lawful) :
    Shadowed κ (d + 1) (removeClause begin) (removeClause begin) (removeClause begin) []
      [.value] :=
  (Shadowed.commaSeparated law (.comma (by simp)) (.of (closed_moves {}).removeItem)
    covers_removeItem (shadowed_removeItem law)).bind
    (covers_removeItem.commaSeparated (.comma (by simp))) fun _ => .spanFrom fun _ => .pure _

/-! ## `WITH`, `RETURN` and `UNWIND` -/

theorem shadowed_expressionItem :
    Shadowed κ (d + 1) (expressionItem expr begin) (expressionItem refusing begin)
      (expressionItem expr' begin) [] [.value] :=
  (hexpr.shadowed (by simp)).deeper.bind (hexpr.covers (by simp)) fun _ =>
    (shadowed_optionalAlias hexpr.law).bind covers_optionalAlias fun _ =>
      .spanFrom fun _ => .pure _

theorem shadowed_projectionItem :
    Shadowed κ (d + 1) (projectionItem expr) (projectionItem refusing) (projectionItem expr') []
      [.value] := by
  have law := hexpr.law
  -- A parenthesis starts where the operand does that it stands in front of.
  have hstart (expr : Parser Expression) : projectionItem expr
      = (start >>= fun begin => current >>= fun t =>
          if t.kind = .operator .star then advance >>= fun _ => pure (.everything t.span)
          else expressionItem expr begin) := rfl
  rw [hstart, hstart, hstart]
  refine .start law fun begin => .current (fun o read s hfits h => ?_) fun o read s hfits h hs _ => ?_
  · split
    · next hdue => exact .advance law (by rw [hdue]; exact nofun) (.pure _)
    · exact shadowed_expressionItem hexpr hfits h
  · rw [if_neg (law.paren_ne rfl)]
    split
    · next hdue => exact .strays hs (.advance hs h.ended (by rw [hdue]; exact nofun) .pure)
    · exact shadowed_expressionItem hexpr hfits h

theorem shadowed_projection :
    Shadowed κ (d + 1) (projection expr) (projection refusing) (projection expr') [] [.value] := by
  have law := hexpr.law
  have hitems (distinct : Bool) (begin : Nat) : Shadowed κ (d + 1)
      (commaSeparated (projectionItem expr) >>= fun items =>
        spanFrom begin >>= fun span => pure (⟨distinct, items, span⟩ : Projection))
      (commaSeparated (projectionItem refusing) >>= fun items =>
        spanFrom begin >>= fun span => pure (⟨distinct, items, span⟩ : Projection))
      (commaSeparated (projectionItem expr') >>= fun items =>
        spanFrom begin >>= fun span => pure (⟨distinct, items, span⟩ : Projection))
      [] [.value] :=
    (Shadowed.commaSeparated law (.comma (by simp))
      (.of ((closed_moves {}).projectionItem hexpr.coincides))
      (covers_projectionItem hexpr.covers) (shadowed_projectionItem hexpr)).bind
      ((covers_projectionItem hexpr.covers).commaSeparated (.comma (by simp))) fun _ =>
        .spanFrom fun _ => .pure _
  refine .start law fun begin => ?_
  exact .consume law rfl (.plain rfl (by simp)) (hitems true begin)
    (hitems false begin)

theorem shadowed_withClause :
    Shadowed κ (d + 1) (withClause expr begin) (withClause refusing begin) (withClause expr' begin)
      [] [.value] :=
  (shadowed_projection hexpr).bind (covers_projection hexpr.covers) fun _ =>
    (shadowed_optionalWhere hexpr (by simp)).bind (covers_optionalWhere hexpr.covers (by simp))
      fun _ => .spanFrom fun _ => .pure _

theorem shadowed_returnClause :
    Shadowed κ (d + 1) (returnClause expr begin) (returnClause refusing begin)
      (returnClause expr' begin) [] [.value] :=
  (shadowed_projection hexpr).bind (covers_projection hexpr.covers) fun _ =>
    .spanFrom fun _ => .pure _

theorem shadowed_unwindClause :
    Shadowed κ (d + 1) (unwindClause expr begin) (unwindClause refusing begin)
      (unwindClause expr' begin) [] [.value] := by
  refine (hexpr.shadowed (by simp)).deeper.bind (hexpr.covers (by simp)) fun source => ?_
  refine .expect hexpr.law rfl (.plain rfl (by simp)) ?_
  exact (Shadowed.variableName hexpr.law).bind (covers_variableName (by simp) _) fun _ =>
    .spanFrom fun _ => .pure _

/-! ## `ORDER BY`, `SKIP` and `LIMIT` -/

omit hexpr in
theorem shadowed_sortDirection (law : κ.Lawful) :
    Shadowed κ (d + 1) sortDirection sortDirection sortDirection brackets [.value, .call] := by
  refine .current (fun o read s hfits h => ?_) fun o read s hfits h hs hapt => ?_
  · have hword {direction : SortDirection} {word : Keyword}
        (hdue : s.current.kind = .keyword word) :
        Shadows κ (advance >>= fun _ => pure direction) (advance >>= fun _ => pure direction)
          (advance >>= fun _ => pure direction) s :=
      .advance law (by rw [hdue]; exact nofun) (.pure _)
    split
    · next hdue => exact hword hdue
    · next hdue => exact hword hdue
    · next hdue => exact hword hdue
    · next hdue => exact hword hdue
    · exact .pure _
  · have hopening := law.opening (h.opens_of_seam hfits hs) hapt
    have hparen : κ.paren.kind = .punctuation .lparen := by
      rw [law.kind, h.opens_of_seam hfits hs]
      rfl
    rw [hparen]
    split
    · next hdue => exact absurd hdue (hopening.current_ne hs rfl)
    · next hdue => exact absurd hdue (hopening.current_ne hs rfl)
    · next hdue => exact absurd hdue (hopening.current_ne hs rfl)
    · next hdue => exact absurd hdue (hopening.current_ne hs rfl)
    · exact .pure _

theorem shadowed_sortItem :
    Shadowed κ (d + 1) (sortItem expr) (sortItem refusing) (sortItem expr') [] [.value] :=
  .start hexpr.law fun _ => (hexpr.shadowed (by simp)).deeper.bind (hexpr.covers (by simp))
    fun _ => (shadowed_sortDirection hexpr.law).bind covers_sortDirection fun _ =>
      .spanFrom fun _ => .pure _

theorem shadowed_orderClause :
    Shadowed κ (d + 1) (orderClause expr begin) (orderClause refusing begin)
      (orderClause expr' begin) [] [.value] := by
  refine .expect hexpr.law rfl (.plain rfl (by simp)) ?_
  exact (Shadowed.commaSeparated hexpr.law (.comma (by simp))
    (.of ((closed_moves {}).sortItem hexpr.coincides)) (covers_sortItem hexpr.covers)
    (shadowed_sortItem hexpr)).bind ((covers_sortItem hexpr.covers).commaSeparated (.comma (by simp)))
      fun _ => .spanFrom fun _ => .pure _

theorem shadowed_skipClause :
    Shadowed κ (d + 1) (skipClause expr begin) (skipClause refusing begin) (skipClause expr' begin)
      [] [.value] :=
  (hexpr.shadowed (by simp)).deeper.bind (hexpr.covers (by simp)) fun _ =>
    .spanFrom fun _ => .pure _

theorem shadowed_limitClause :
    Shadowed κ (d + 1) (limitClause expr begin) (limitClause refusing begin)
      (limitClause expr' begin) [] [.value] :=
  (hexpr.shadowed (by simp)).deeper.bind (hexpr.covers (by simp)) fun _ =>
    .spanFrom fun _ => .pure _

/-! ## `CALL` -/

omit hexpr in
theorem shadowed_procedureName (law : κ.Lawful) :
    Shadowed κ (d + 1) procedureName procedureName procedureName brackets [.name] :=
  (Shadowed.symbolicName law).bind (covers_symbolicName .procedure) fun _ =>
    (Shadowed.dottedNames law).map

/-- Arguments are told by their parenthesis, and none is put in where they may stand. -/
theorem shadowed_procedureArguments :
    Shadowed κ (d + 1) (behind (.punctuation .lparen) (procedureArguments expr))
      (behind (.punctuation .lparen) (procedureArguments refusing))
      (behind (.punctuation .lparen) (procedureArguments expr')) brackets [.call] := by
  intro o read s hfits h
  refine .consume hexpr.law nofun (fun hs hapt => ?_) (fun hdue => ?_) fun _ => .pure _
  · exact absurd hapt (h.not_seam hfits hexpr.law (by simp) hs)
  · exact (shadows_arguments hexpr hfits h hdue fun _ _ => .pure _).map

omit hexpr in
theorem shadowed_yieldItem (law : κ.Lawful) :
    Shadowed κ (d + 1) yieldItem yieldItem yieldItem [] [.value] :=
  .start law fun _ => (Shadowed.variableName law).bind (covers_variableName (by simp) _)
    fun _ => ((shadowed_optionalAlias law).bind covers_optionalAlias fun _ =>
      .spanFrom fun _ => .pure _).mono (by simp)

theorem shadowed_callClause :
    Shadowed κ (d + 1) (callClause expr begin) (callClause refusing begin) (callClause expr' begin)
      [] [.name] := by
  have law := hexpr.law
  have hyield : Covers (behind (.keyword .YIELD) (commaSeparated yieldItem)) _ []
      [.value, .call] [.value, .call, .value, .call] :=
    .behind (.plain rfl (by simp)) (covers_yieldItem.commaSeparated (.comma (by simp)))
  have hfields : Shadowed κ (d + 1) (behind (.keyword .YIELD) (commaSeparated yieldItem))
      (behind (.keyword .YIELD) (commaSeparated yieldItem))
      (behind (.keyword .YIELD) (commaSeparated yieldItem)) [] [.value, .call] :=
    (Shadowed.commaSeparated law (.comma (by simp)) (.of (closed_moves {}).yieldItem)
      covers_yieldItem (shadowed_yieldItem law)).behind law rfl (.plain rfl (by simp))
  refine (shadowed_procedureName law).bind covers_procedureName fun procedure => ?_
  intro o read s hfits h
  refine (shadowed_procedureArguments hexpr hfits h).bind (leads_procedureArguments hexpr.covers h)
    fun arguments s h => ?_
  refine (hfields hfits h).bind (hyield h) fun fields s h => ?_
  exact (shadowed_optionalWhere hexpr (by simp) hfits (h.mono (by simp))).andThen fun _ _ =>
    .spanFrom fun _ => .pure _

/-! ## All clauses -/

theorem shadows_clauseBehind {word : Keyword} {rest restr rest' : Parser Clause} {o : Outlook}
    {read : List Leaf} {s : State} (hfits : κ.Fits (d + 1) o [])
    (hrest : clauseBehind expr word begin = some rest)
    (hrefusing : clauseBehind refusing word begin = some restr)
    (hother : clauseBehind expr' word begin = some rest')
    (hdue : s.current.kind = .keyword word) (h : At o read [] [.value, .call] s) :
    Shadows κ rest restr rest' s.advance := by
  unfold clauseBehind at hrest hrefusing hother
  split at hrest
  case h_17 => cases hrest
  all_goals cases hrest; cases hrefusing; cases hother
  · exact shadowed_matchClause hexpr _ hfits (h.passWord rfl hdue)
  · exact shadowed_qualifiedMatch hexpr _ hfits (h.passWord rfl hdue)
  · exact shadowed_qualifiedMatch hexpr _ hfits (h.passWord rfl hdue)
  · exact shadowed_createClause hexpr hfits (h.passWord rfl hdue)
  · exact shadowed_mergeClause hexpr hfits (h.passWord rfl hdue)
  · exact shadowed_setClause hexpr hfits (h.passWord rfl hdue)
  · exact shadowed_deleteClause hexpr _ hfits (h.passWord rfl hdue)
  · exact shadowed_detachClause hexpr hfits (h.passWord rfl hdue)
  · exact shadowed_removeClause hexpr.law hfits (h.passWord rfl hdue)
  · exact shadowed_withClause hexpr hfits (h.passWord rfl hdue)
  · exact shadowed_unwindClause hexpr hfits (h.passWord rfl hdue)
  · exact shadowed_returnClause hexpr hfits (h.passWord rfl hdue)
  · exact shadowed_orderClause hexpr hfits (h.passWord rfl hdue)
  · exact shadowed_skipClause hexpr hfits (h.passWord rfl hdue)
  · exact shadowed_limitClause hexpr hfits (h.passWord rfl hdue)
  · have hpasses : Passes s.current [] [.value, .call] [] [] .name :=
      .keyword (by simp) hdue fun m hname hentry => by
        simp [Scan.passKeyword, Scan.toMode, hname, hentry]
    exact shadowed_callClause hexpr hfits (h.advance_nil hpasses)

theorem shadowed_clause :
    Shadowed κ (d + 1) (clause expr) (clause refusing) (clause expr') [] [.value, .call] := by
  have law := hexpr.law
  -- The words a clause starts with are the same whatever its expressions.
  have hwords (word : Keyword) (begin : Nat) :
      (clauseBehind expr word begin = none ∧ clauseBehind refusing word begin = none
        ∧ clauseBehind expr' word begin = none)
      ∨ ∃ rest restr rest', clauseBehind expr word begin = some rest
        ∧ clauseBehind refusing word begin = some restr
        ∧ clauseBehind expr' word begin = some rest' := by
    cases word <;> first | exact .inl ⟨rfl, rfl, rfl⟩ | exact .inr ⟨_, _, _, rfl, rfl, rfl⟩
  refine .current (fun o read s hfits h => ?_) fun o read s hfits h hs hapt => ?_
  · split
    · next word hdue =>
      rcases hwords word s.current.span.start with ⟨hexpr, hrefusing, hother⟩ |
          ⟨rest, restr, rest', hrest, hrefusing, hother⟩
      · rw [hexpr, hrefusing, hother]
        exact .pure _
      · rw [hrest, hrefusing, hother]
        refine .advance law (by rw [hdue]; exact nofun) ?_
        exact (shadows_clauseBehind hexpr hfits hrest hrefusing hother hdue h).map
    · exact .pure _
  · rcases law.parenthesis with hparen | hparen <;> rw [hparen]
    all_goals
      split
      · next word hdue =>
        rw [h.clauseBehind_of_seam hfits law hs hapt hdue,
          h.clauseBehind_of_seam hfits law hs hapt hdue]
        exact .pure _
      · exact .pure _

end Clauses

end Cypher.Grammar
