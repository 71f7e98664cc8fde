import Cypher.Grammar.Clause
import Cypher.Proofs.Continued.Operand

/-!
# Clauses in a text continued

The optional parts of a clause start with words that start no clause. So they
are missing where the text ends, and missing where its sequel starts.
-/

namespace Cypher.Grammar

open Token (Kind)

variable {more : Sequel} {whole : List Token} {expr : Parser Expression} {n : Nat}
  {settled : Bool} {s : State}

theorem rests_optionalAlias : Rests more optionalAlias := (settles_variableName .alias).behind rfl

/-! ## `MATCH`, `CREATE` and `MERGE` -/

theorem settles_matchClause (hexpr : Settles more expr) (kind : MatchKind) (begin : Nat) :
    Settles more (matchClause expr kind begin) := by
  intro whole n settled s h
  refine (settles_patternList hexpr h).bind fun patterns s h => ?_
  refine (rests_optionalWhere hexpr h).bind fun filter s h => ?_
  exact Continues.spanFrom (Continues.pure h)

theorem settles_qualifiedMatch (hexpr : Settles more expr) (kind : MatchKind) (begin : Nat) :
    Settles more (qualifiedMatch expr kind begin) :=
  fun _ _ _ _ h => Continues.expect nofun fun hmatch =>
    settles_matchClause hexpr kind begin (h.pass hmatch rfl)

theorem settles_createClause (hexpr : Settles more expr) (begin : Nat) :
    Settles more (createClause expr begin) := by
  intro whole n settled s h
  refine (settles_patternList hexpr h).bind fun patterns s h => ?_
  exact Continues.spanFrom (Continues.pure h)

theorem settles_assignment : Settles more assignment := by
  intro whole n settled s h
  refine Continues.consume rfl (fun heq => Continues.pure (h.pass heq rfl)) fun _ => ?_
  exact Continues.consume rfl (fun heq => Continues.pure (h.pass heq rfl)) fun _ => Continues.fail

theorem continues_setProperty (hexpr : Settles more expr) {name : String} {begin : Nat}
    (hdot : s.current.kind = .punctuation .dot) (h : Along whole n settled s) :
    Continues more whole (setProperty expr name begin) s fun _ => Along whole n true := by
  refine Continues.advance (by rw [hdot]; exact nofun) ?_
  refine (settles_symbolicName _ (h.pass hdot rfl)).bind fun key s h => Continues.spanFrom ?_
  refine (settles_assignment h).bind fun how s h => ?_
  refine (hexpr h).bind fun value s h => ?_
  exact Continues.spanFrom (Continues.pure h)

theorem rests_setLabels (name : String) (begin : Nat) : Rests more (setLabels name begin) :=
  fun _ _ _ h => (rests_labelList h).bind fun _ _ h => Continues.spanFrom (Continues.pure h)

theorem settles_setVariable (hexpr : Settles more expr) (name : String) (begin : Nat) :
    Settles more (setVariable expr name begin) := by
  intro whole n settled s h
  refine (settles_assignment h).bind fun how s h => ?_
  refine (hexpr h).bind fun value s h => ?_
  exact Continues.spanFrom (Continues.pure h)

theorem settles_setItem (hexpr : Settles more expr) : Settles more (setItem expr) := by
  intro whole n settled s h
  refine Continues.start ((settles_variableName _ h).bind fun name s h => ?_)
  refine Continues.current (fun hs _ => ?_) ?_
  · simp only [more.kind, show s.eof.kind = .eof from hs.ended]
  · split
    · next hdot => exact continues_setProperty hexpr hdot h
    · exact rests_setLabels _ _ h
    · exact settles_setVariable hexpr _ _ h

theorem settles_setItems (hexpr : Settles more expr) : Settles more (setItems expr) :=
  (settles_setItem hexpr).commaSeparated

/-- The events are named by words that start clauses, but here one of them must come. -/
theorem settles_mergeTrigger : Settles more mergeTrigger := by
  intro whole n settled s h
  refine Continues.assume (φ := s.current.kind ≠ .eof) (fun _ {a s'} hrun heof => ?_) fun hne => ?_
  · have hnone : Leads mergeTrigger s fun _ _ => False :=
      Leads.consume (fun hdue => absurd (heof.symm.trans hdue) nofun) fun _ =>
        Leads.consume (fun hdue => absurd (heof.symm.trans hdue) nofun) fun _ => Leads.fail
    exact hnone a s' hrun
  · refine Continues.consumeDue nofun hne (fun hdue => Continues.pure (h.pass hdue rfl)) fun _ => ?_
    exact Continues.consumeDue nofun hne (fun hdue => Continues.pure (h.pass hdue rfl)) fun _ =>
      Continues.fail

theorem round_mergeAction (hexpr : Settles more expr) : RestsRound more (mergeAction expr) := by
  intro whole n s h
  refine Continues.start (Continues.consume rfl (fun hon => ?_) fun _ =>
    Continues.pure ⟨h, fun h => absurd rfl h⟩)
  have hne : s.current.kind ≠ .eof := by rw [hon]; exact nofun
  refine (Continues.shorter h.ended hne (Q := fun _ => Along whole n true) ?_).mono
    fun _ _ _ h => ⟨h.1, fun _ => h.2⟩
  refine (settles_mergeTrigger (h.pass hon rfl)).bind fun trigger s h => ?_
  refine Continues.expect nofun fun hset => ?_
  refine (settles_setItems hexpr (h.pass hset rfl)).bind fun items s h => ?_
  exact Continues.spanFrom (Continues.pure h)

theorem settles_mergeClause (hexpr : Settles more expr) (begin : Nat) :
    Settles more (mergeClause expr begin) := by
  intro whole n settled s h
  refine (settles_patternList hexpr h).bind fun patterns s h => ?_
  refine ((round_mergeAction hexpr).many h).bind fun actions s h => ?_
  exact Continues.spanFrom (Continues.pure h)

/-! ## `SET`, `DELETE` and `REMOVE` -/

theorem settles_setClause (hexpr : Settles more expr) (begin : Nat) :
    Settles more (setClause expr begin) :=
  fun _ _ _ _ h => (settles_setItems hexpr h).bind fun _ _ h =>
    Continues.spanFrom (Continues.pure h)

theorem settles_deleteClause (hexpr : Settles more expr) (detach : Bool) (begin : Nat) :
    Settles more (deleteClause expr detach begin) :=
  fun _ _ _ _ h => (hexpr.commaSeparated h).bind fun _ _ h =>
    Continues.spanFrom (Continues.pure h)

theorem settles_detachClause (hexpr : Settles more expr) (begin : Nat) :
    Settles more (detachClause expr begin) :=
  fun _ _ _ _ h => Continues.expect nofun fun hdelete =>
    settles_deleteClause hexpr true begin (h.pass hdelete rfl)

theorem rests_removeTail (name : String) (begin : Nat) : Rests more (removeTail name begin) := by
  intro whole n s h
  refine Continues.consume rfl (fun hdot => ?_) fun _ => ?_
  · refine (settles_symbolicName _ (h.pass hdot rfl)).bind fun key s h => ?_
    exact Continues.spanFrom (Continues.pure h)
  · refine (rests_labelList h).bind fun labels s h => ?_
    exact Continues.spanFrom (Continues.pure h)

theorem settles_removeItem : Settles more removeItem := by
  intro whole n settled s h
  refine Continues.start ((settles_variableName _ h).bind fun name s h => ?_)
  exact rests_removeTail _ _ h

theorem settles_removeClause (begin : Nat) : Settles more (removeClause begin) :=
  fun _ _ _ _ h => (settles_removeItem.commaSeparated h).bind fun _ _ h =>
    Continues.spanFrom (Continues.pure h)

/-! ## `WITH`, `RETURN` and `UNWIND` -/

theorem settles_expressionItem (hexpr : Settles more expr) (begin : Nat) :
    Settles more (expressionItem expr begin) := by
  intro whole n settled s h
  refine (hexpr h).bind fun value s h => ?_
  refine (rests_optionalAlias h).bind fun name s h => ?_
  exact Continues.spanFrom (Continues.pure h)

theorem settles_projectionItem (hexpr : Settles more expr) :
    Settles more (projectionItem expr) := by
  intro whole n settled s h
  refine Continues.current (fun hs _ => ?_) ?_
  · rw [if_neg (ne_of_endsClause more.endsClause_first rfl),
      if_neg (ne_of_endsClause hs.endsClause_eof rfl), hs.span]
  · split
    · next hstar =>
      exact Continues.advance (by rw [hstar]; exact nofun) (Continues.pure (h.pass hstar rfl))
    · exact settles_expressionItem hexpr _ h

theorem settles_projection (hexpr : Settles more expr) : Settles more (projection expr) := by
  have hitems {settled : Bool} {whole : List Token} {n : Nat} {s : State}
      (h : Along whole n settled s) (begin : Nat) (distinct : Bool) : Continues more whole (do
        let items ← commaSeparated (projectionItem expr)
        return (⟨distinct, items, ← spanFrom begin⟩ : Projection)) s fun _ => Along whole n true :=
    ((settles_projectionItem hexpr).commaSeparated h).bind fun _ _ h =>
      Continues.spanFrom (Continues.pure h)
  intro whole n settled s h
  exact Continues.start (Continues.consume rfl (fun hdistinct => hitems (h.pass hdistinct rfl) _ _)
    fun _ => hitems h _ _)

theorem settles_withClause (hexpr : Settles more expr) (begin : Nat) :
    Settles more (withClause expr begin) := by
  intro whole n settled s h
  refine (settles_projection hexpr h).bind fun handed s h => ?_
  refine (rests_optionalWhere hexpr h).bind fun filter s h => ?_
  exact Continues.spanFrom (Continues.pure h)

theorem settles_returnClause (hexpr : Settles more expr) (begin : Nat) :
    Settles more (returnClause expr begin) :=
  fun _ _ _ _ h => (settles_projection hexpr h).bind fun _ _ h =>
    Continues.spanFrom (Continues.pure h)

theorem settles_unwindClause (hexpr : Settles more expr) (begin : Nat) :
    Settles more (unwindClause expr begin) := by
  intro whole n settled s h
  refine (hexpr h).bind fun source s h => ?_
  refine Continues.expect nofun fun has => ?_
  refine (settles_variableName _ (h.pass has rfl)).bind fun name s h => ?_
  exact Continues.spanFrom (Continues.pure h)

/-! ## `ORDER BY`, `SKIP` and `LIMIT` -/

theorem rests_sortDirection : Rests more sortDirection := by
  intro whole n s h
  refine Continues.current (fun hs _ => ?_) ?_
  · have hstarts := more.starts
    rw [more.kind, show s.eof.kind = .eof from hs.ended]
    cases hword : more.word <;> first | rfl | (rw [hword] at hstarts; cases hstarts)
  · split
    all_goals first
      | next hdue => exact Continues.advance (by rw [hdue]; exact nofun) (Continues.pure (h.pass hdue rfl))
      | exact Continues.pure h

theorem settles_sortItem (hexpr : Settles more expr) : Settles more (sortItem expr) := by
  intro whole n settled s h
  refine Continues.start ((hexpr h).bind fun key s h => ?_)
  refine (rests_sortDirection h).bind fun direction s h => ?_
  exact Continues.spanFrom (Continues.pure h)

theorem settles_orderClause (hexpr : Settles more expr) (begin : Nat) :
    Settles more (orderClause expr begin) := by
  intro whole n settled s h
  refine Continues.expect nofun fun hby => ?_
  refine ((settles_sortItem hexpr).commaSeparated (h.pass hby rfl)).bind fun items s h => ?_
  exact Continues.spanFrom (Continues.pure h)

theorem settles_skipClause (hexpr : Settles more expr) (begin : Nat) :
    Settles more (skipClause expr begin) :=
  fun _ _ _ _ h => (hexpr h).bind fun _ _ h => Continues.spanFrom (Continues.pure h)

theorem settles_limitClause (hexpr : Settles more expr) (begin : Nat) :
    Settles more (limitClause expr begin) :=
  fun _ _ _ _ h => (hexpr h).bind fun _ _ h => Continues.spanFrom (Continues.pure h)

/-! ## `CALL` -/

theorem settles_procedureName : Settles more procedureName := by
  intro whole n settled s h
  refine (settles_symbolicName _ h).bind fun first s h => ?_
  exact ((settles_symbolicName _).many rfl h).bind fun others s h => Continues.pure h

theorem settles_yieldItem : Settles more yieldItem := by
  intro whole n settled s h
  refine Continues.start ((settles_variableName _ h).bind fun field s h => ?_)
  refine (rests_optionalAlias h).bind fun name s h => ?_
  exact Continues.spanFrom (Continues.pure h)

theorem settles_callClause (hexpr : Settles more expr) (begin : Nat) :
    Settles more (callClause expr begin) := by
  intro whole n settled s h
  have hyield {s : State} (h : Along whole n true s) (procedure : List String)
      (arguments : Option (List Expression)) : Continues more whole (do
        let fields ← behind (.keyword .YIELD) (commaSeparated yieldItem)
        let filter ← optionalWhere expr
        return Clause.call procedure arguments fields filter (← spanFrom begin)) s
        fun _ => Along whole n true := by
    refine (settles_yieldItem.commaSeparated.behind rfl h).bind fun fields s h => ?_
    refine (rests_optionalWhere hexpr h).bind fun filter s h => ?_
    exact Continues.spanFrom (Continues.pure h)
  refine (settles_procedureName h).bind fun procedure s h => ?_
  refine continues_behind rfl (fun hopen => ?_) (hyield h _ _)
  refine Continues.bind (Q := fun _ => Along whole n true) ?_ fun arguments s h => hyield h _ _
  refine (hexpr.commaSeparatedUntil rfl (h.pass hopen rfl)).bind fun arguments s h => ?_
  exact Continues.expect nofun fun hclose => Continues.pure (h.pass hclose rfl)

/-! ## All clauses -/

theorem settles_clauseBehind (hexpr : Settles more expr) {word : Keyword} {begin : Nat}
    {p : Parser Clause} (hp : clauseBehind expr word begin = some p) : Settles more p := by
  unfold clauseBehind at hp
  split at hp
  all_goals cases hp
  · exact settles_matchClause hexpr _ _
  · exact settles_qualifiedMatch hexpr _ _
  · exact settles_qualifiedMatch hexpr _ _
  · exact settles_createClause hexpr _
  · exact settles_mergeClause hexpr _
  · exact settles_setClause hexpr _
  · exact settles_deleteClause hexpr _ _
  · exact settles_detachClause hexpr _
  · exact settles_removeClause _
  · exact settles_withClause hexpr _
  · exact settles_unwindClause hexpr _
  · exact settles_returnClause hexpr _
  · exact settles_orderClause hexpr _
  · exact settles_skipClause hexpr _
  · exact settles_limitClause hexpr _
  · exact settles_callClause hexpr _

end Cypher.Grammar
