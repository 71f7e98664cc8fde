import Cypher.Proofs.Continued.Basic
import Cypher.Proofs.Leaves.Pattern

/-!
# Patterns in a text continued

What is looked for in the tokens ahead stands at a small distance, and there no
token of a sequel will do; or it stands behind a closing parenthesis, which the
complete text holds.
-/

namespace Cypher.Grammar

open Token (Kind)

variable {more : Sequel} {whole : List Token} {expr : Parser Expression}

/-! ## Looking ahead -/

theorem Sequel.kindAt_zero (more : Sequel) :
    kindAt more.tokens 0 = some (.keyword more.word) := congrArg some more.kind

theorem relationshipAhead_followed (more : Sequel) (ahead : List Token) :
    relationshipAhead (ahead ++ more.tokens) = relationshipAhead ahead := by
  have hfirst := more.kind
  unfold relationshipAhead Sequel.tokens
  match ahead with
  | [] => simp [kindAt, hfirst]
  | [t] => simp [kindAt, hfirst, goesOnAsRelationship]
  | [t, u] => simp [kindAt, hfirst, goesOnAsRelationship]
  | _ :: _ :: _ :: _ => rfl

theorem nodeAhead_followed (more : Sequel) (ahead : List Token) :
    nodeAhead (ahead ++ more.tokens) = nodeAhead ahead := by
  have hfirst := more.kind
  unfold nodeAhead Sequel.tokens
  match ahead with
  | [] => simp [kindAt, hfirst]
  | [t] => simp [kindAt, hfirst, goesOnAsNode]
  | [t, u] => simp [kindAt, hfirst, goesOnAsNode]
  | _ :: _ :: _ :: _ => rfl

theorem afterGroup_append {n : Nat} {ts rest : List Token} (h : afterGroup n ts = some rest)
    (us : List Token) : afterGroup n (ts ++ us) = some (rest ++ us) := by
  induction ts generalizing n with
  | nil => cases h
  | cons t ts ih =>
    rw [List.cons_append]
    unfold afterGroup at h ⊢
    split at h
    · exact ih h
    · split at h
      · next hclosed =>
        cases h
        exact if_pos hclosed
      · next hclosed =>
        rw [if_neg hclosed]
        exact ih h
    · exact ih h

/-- What a node is told by is inside the complete text. -/
theorem afterNode_followed (hwhole : Complete whole) {ahead : List Token} (hahead : ahead <:+ whole)
    {test : List Token → Bool} (htest : ∀ rest, test (rest ++ more.tokens) = test rest) :
    (nodeAhead (ahead ++ more.tokens) && match afterGroup 0 (ahead ++ more.tokens) with
      | some rest => test rest
      | none => false)
      = (nodeAhead ahead && match afterGroup 0 ahead with
        | some rest => test rest
        | none => false) := by
  rw [nodeAhead_followed]
  cases hnode : nodeAhead ahead with
  | false => rfl
  | true =>
    have hopen : kindAt ahead 0 = some (.punctuation .lparen) := by
      rw [nodeAhead, Bool.and_eq_true, decide_eq_true_iff] at hnode
      exact hnode.1
    cases hafter : afterGroup 0 ahead with
    | none => exact absurd hafter (hwhole.closed ahead hahead hopen)
    | some rest => simp only [afterGroup_append hafter, htest]

theorem patternPredicateAhead_followed (hwhole : Complete whole) {ahead : List Token}
    (hahead : ahead <:+ whole) :
    patternPredicateAhead (ahead ++ more.tokens) = patternPredicateAhead ahead :=
  afterNode_followed hwhole hahead (relationshipAhead_followed more)

theorem comprehensionAfterNode_followed (hwhole : Complete whole) {ahead : List Token}
    (hahead : ahead <:+ whole) :
    comprehensionAfterNode (ahead ++ more.tokens) = comprehensionAfterNode ahead := by
  apply afterNode_followed hwhole hahead
  intro rest
  rw [relationshipAhead_followed]
  cases rest with
  | nil =>
    have hword : more.word ≠ .WHERE := by
      intro hword
      have hstarts := more.starts
      rw [hword] at hstarts
      cases hstarts
    rw [List.nil_append, more.kindAt_zero]
    simp [kindAt, hword]
  | cons t rest => rfl

/-- The name of a path and its equals sign are inside the text. -/
theorem named_followed (more : Sequel) (ahead : List Token) (name : String) :
    (kindAt (ahead ++ more.tokens) 0 = some (.identifier name)
      ∧ kindAt (ahead ++ more.tokens) 1 = some (.operator .eq))
    ↔ kindAt ahead 0 = some (.identifier name) ∧ kindAt ahead 1 = some (.operator .eq) := by
  have hfirst := more.kind
  unfold Sequel.tokens
  match ahead with
  | [] => simp [kindAt, hfirst]
  | [t] => simp [kindAt, hfirst]
  | _ :: _ :: _ => rfl

theorem patternComprehensionAhead_followed (hwhole : Complete whole) {ahead : List Token}
    (hahead : ahead <:+ whole) :
    patternComprehensionAhead (ahead ++ more.tokens) = patternComprehensionAhead ahead := by
  rw [patternComprehensionAhead_eq, patternComprehensionAhead_eq]
  split
  · next name hname heq =>
    obtain ⟨hname', heq'⟩ := (named_followed more ahead name).1 ⟨hname, heq⟩
    have hlength : 2 ≤ ahead.length := by
      by_contra hshort
      rw [kindAt, List.getElem?_eq_none (by omega)] at heq'
      cases heq'
    rw [hname', heq', List.drop_append_of_le_length hlength]
    exact comprehensionAfterNode_followed hwhole ((List.drop_suffix 2 ahead).trans hahead)
  · next hunnamed =>
    rw [comprehensionAfterNode_followed hwhole hahead]
    split
    · next name hname heq =>
      obtain ⟨hname', heq'⟩ := (named_followed more ahead name).2 ⟨hname, heq⟩
      exact absurd heq' (hunnamed name hname')
    · rfl

/-! ## Property maps -/

theorem settles_mapEntry (hexpr : Settles more expr) :
    Settles more (mapEntry expr) := by
  intro whole n settled s h
  refine Continues.start ((settles_symbolicName _ h).bind fun key s h => ?_)
  refine Continues.expect nofun fun hcolon => ?_
  refine (hexpr (h.pass hcolon rfl)).bind fun value s h => ?_
  exact Continues.spanFrom (Continues.pure h)

theorem settles_mapEntries (hexpr : Settles more expr) :
    Settles more (mapEntries expr) := by
  intro whole n settled s h
  refine Continues.start (Continues.expect nofun fun hopen => ?_)
  refine ((settles_mapEntry hexpr).commaSeparatedUntil rfl (h.pass hopen rfl)).bind
    fun entries s h => ?_
  refine Continues.expect nofun fun hclose => ?_
  exact Continues.spanFrom (Continues.pure (h.pass hclose rfl))

theorem rests_properties (hexpr : Settles more expr) :
    Rests more (properties expr) := by
  intro whole n s h
  refine Continues.current (fun hs _ => ?_) ?_
  · simp only [more.kind, show s.eof.kind = .eof from hs.ended]
  · split
    · exact (settles_mapEntries hexpr h).bind fun found s h => Continues.pure h
    · next hdue =>
      exact Continues.advance (by rw [hdue]; exact nofun) (Continues.pure (h.pass hdue rfl))
    · exact Continues.pure h

/-! ## Nodes and relationships -/

theorem rests_optionalLabels : Rests more optionalLabels := by
  intro whole n s h
  refine Continues.current (fun hs _ => ?_) ?_
  · rw [if_neg (ne_of_endsClause more.endsClause_first rfl),
      if_neg (ne_of_endsClause hs.endsClause_eof rfl)]
  · split
    · exact rests_labelList h
    · exact Continues.pure h

theorem settles_nodePattern (hexpr : Settles more expr) :
    Settles more (nodePattern expr) := by
  intro whole n settled s h
  refine Continues.start (Continues.expect nofun fun hopen => ?_)
  refine (rests_optionalVariable (h.pass hopen rfl)).bind fun name s h => ?_
  refine (rests_optionalLabels h).bind fun labels s h => ?_
  refine (rests_properties hexpr h).bind fun properties s h => ?_
  refine Continues.expect nofun fun hclose => ?_
  exact Continues.spanFrom (Continues.pure (h.pass hclose rfl))

theorem rests_hopBound : Rests more hopBound := by
  intro whole n s h
  refine Continues.current (fun hs _ => ?_) ?_
  · simp only [more.kind, show s.eof.kind = .eof from hs.ended]
  · split
    · next hdue =>
      split
      · exact Continues.advance (by rw [hdue]; exact nofun) (Continues.pure (h.pass hdue rfl))
      · exact Continues.fail
    · exact Continues.pure h

theorem rests_hopRange : Rests more hopRange := by
  intro whole n s h
  refine (rests_hopBound h).bind fun min s h => ?_
  refine Continues.consume rfl (fun hdots => ?_) fun _ => Continues.pure h
  exact (rests_hopBound (h.pass hdots rfl)).bind fun max s h => Continues.pure h

theorem settles_anotherType : Settles more anotherType := by
  intro whole n settled s h
  exact Continues.consume rfl (fun hcolon => settles_symbolicName _ (h.pass hcolon rfl))
    fun _ => settles_symbolicName _ h

theorem rests_relationshipTypes : Rests more relationshipTypes := by
  intro whole n s h
  refine Continues.consume rfl (fun hcolon => ?_) fun _ => Continues.pure h
  refine (settles_symbolicName _ (h.pass hcolon rfl)).bind fun first s h => ?_
  exact (settles_anotherType.many rfl h).bind fun others s h => Continues.pure h

theorem rests_detail (hexpr : Settles more expr) : Rests more (detail expr) := by
  intro whole n s h
  refine (rests_optionalVariable h).bind fun name s h => ?_
  refine (rests_relationshipTypes h).bind fun types s h => ?_
  refine continues_behind rfl (fun hstar => ?_) ?_
  · refine (rests_hopRange (h.pass hstar rfl)).bind fun hops s h => ?_
    exact (rests_properties hexpr h).bind fun properties s h => Continues.pure h
  · exact (rests_properties hexpr h).bind fun properties s h => Continues.pure h

theorem rests_bracketedDetail (hexpr : Settles more expr) :
    Rests more (bracketedDetail expr) := by
  intro whole n s h
  refine Continues.consume rfl (fun hopen => ?_) fun _ => Continues.pure h
  refine (rests_detail hexpr (h.pass hopen rfl)).bind fun found s h => ?_
  exact Continues.expect nofun fun hclose => Continues.pure (h.pass hclose rfl)

theorem settles_farEnd (incoming : Bool) : Settles more (farEnd incoming) := by
  intro whole n settled s h
  refine Continues.current (fun hs _ => ?_) ?_
  · rw [if_neg (ne_of_endsClause more.endsClause_first rfl),
      if_neg (ne_of_endsClause hs.endsClause_eof rfl)]
  · split
    · next hdue =>
      split
      · exact Continues.fail
      · exact Continues.advance (by rw [hdue]; exact nofun) (Continues.pure (h.pass hdue rfl))
    · exact Continues.expect nofun fun hdue => Continues.pure (h.pass hdue rfl)

theorem settles_relationshipPattern (hexpr : Settles more expr) :
    Settles more (relationshipPattern expr) := by
  intro whole n settled s h
  have hbehind {settled : Bool} {s : State} (h : Along whole n settled s) (begin : Nat)
      (incoming : Bool) : Continues more whole (do
        expect (.operator .minus)
        let found ← bracketedDetail expr
        let direction ← farEnd incoming
        return (⟨direction, found.name, found.types, found.hops, found.properties,
          ← spanFrom begin⟩ : RelationshipPattern)) s fun _ => Along whole n true := by
    refine Continues.expect nofun fun hminus => ?_
    refine (rests_bracketedDetail hexpr (h.pass hminus rfl)).bind fun found s h => ?_
    refine (settles_farEnd incoming h).bind fun direction s h => ?_
    exact Continues.spanFrom (Continues.pure h)
  exact Continues.start (Continues.consume rfl (fun hlt => hbehind (h.pass hlt rfl) _ _)
    fun _ => hbehind h _ _)

/-! ## Paths -/

theorem round_link (hexpr : Settles more expr) : RestsRound more (link expr) := by
  have hread : Settles more (do
      let relationship ← relationshipPattern expr
      let node ← nodePattern expr
      return some (⟨relationship, node⟩ : Link)) := by
    intro whole n settled s h
    refine (settles_relationshipPattern hexpr h).bind fun relationship s h => ?_
    exact (settles_nodePattern hexpr h).bind fun node s h => Continues.pure h
  intro whole n s h
  refine Continues.lookAhead (fun _ => ?_) ?_
  · simp only [relationshipAhead_followed]
  · split
    · exact (hread.less h).mono fun _ _ _ h => ⟨h.1, fun _ => h.2⟩
    · exact Continues.pure ⟨h, fun h => absurd rfl h⟩

theorem settles_patternChain (hexpr : Settles more expr) (name : Option String) (begin : Nat) :
    Settles more (patternChain expr name begin) := by
  intro whole n settled s h
  refine (settles_nodePattern hexpr h).bind fun first s h => ?_
  refine ((round_link hexpr).many h).bind fun chain s h => ?_
  exact Continues.spanFrom (Continues.pure h)

theorem continues_pathName {n : Nat} {settled : Bool} {s : State} (h : Along whole n settled s) :
    Continues more whole pathName s fun _ s' => ∃ settled, Along whole n settled s' := by
  refine Continues.lookAhead (fun _ => ?_) ?_
  · split
    · next name hname heq =>
      obtain ⟨hname', heq'⟩ := (named_followed more s.ahead name).1 ⟨hname, heq⟩
      rw [hname', heq']
    · next hunnamed =>
      split
      · next name hname heq =>
        obtain ⟨hname', heq'⟩ := (named_followed more s.ahead name).2 ⟨hname, heq⟩
        exact absurd heq' (hunnamed name hname')
      · rfl
  · split
    · next name hname heq =>
      rw [kindAt_succ] at heq
      have hfirst := kind_of_kindAt hname
      have hsecond := kind_of_kindAt heq
      refine Continues.advance (by rw [hfirst]; exact nofun) ?_
      refine Continues.advance (by rw [hsecond]; exact nofun) ?_
      exact Continues.pure ⟨_, (h.pass hfirst rfl).pass hsecond rfl⟩
    · exact Continues.pure ⟨settled, h⟩

theorem settles_pattern (hexpr : Settles more expr) : Settles more (pattern expr) := by
  intro whole n settled s h
  refine Continues.start ((continues_pathName h).bind fun name s h => ?_)
  exact settles_patternChain hexpr name _ h.choose_spec

theorem settles_patternList (hexpr : Settles more expr) : Settles more (patternList expr) :=
  (settles_pattern hexpr).commaSeparated

end Cypher.Grammar
