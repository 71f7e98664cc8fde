import Cypher.Grammar.Operand
import Cypher.Proofs.Continued.Pattern

/-!
# Operands in a text continued

A name is a call if a parenthesis follows it, or follows the names behind
points that come after it. Only a text that ends in a point would leave that
to the sequel, and only one that ends in a colon would leave it to the sequel
whether a label check follows.
-/

namespace Cypher.Grammar

open Token (Kind)

variable {config : Config} {more : Sequel} {whole : List Token} {expr : Parser Expression}
  {n : Nat} {settled : Bool} {s : State} {kind : Kind}

/-! ## Looking ahead -/

/-- The bracket is inside the text. -/
theorem listComprehensionAhead_followed (more : Sequel) (t : Token) (rest : List Token) :
    listComprehensionAhead (t :: rest ++ more.tokens) = listComprehensionAhead (t :: rest) := by
  rcases rest with _ | ⟨u, _ | ⟨_, _⟩⟩
  · have hfirst : kindAt ([t] ++ more.tokens) 1 = some (.keyword more.word) := more.kindAt_zero
    unfold listComprehensionAhead
    rw [hfirst]
    rfl
  · have hname : kindAt ([t, u] ++ more.tokens) 1 = some u.kind := rfl
    have hfirst : kindAt ([t, u] ++ more.tokens) 2 = some (.keyword more.word) := more.kindAt_zero
    have hin : more.word ≠ .IN := by
      intro hword
      have hstarts := more.starts
      rw [hword] at hstarts
      cases hstarts
    have hname' : kindAt [t, u] 1 = some u.kind := rfl
    have hnone : kindAt [t, u] 2 = none := rfl
    unfold listComprehensionAhead
    rw [hname, hfirst, hname', hnone]
    split <;> simp_all
  · rfl

theorem callAhead_followed (hwhole : Complete whole) {ahead : List Token}
    (hahead : ahead <:+ whole) : callAhead (ahead ++ more.tokens) = callAhead ahead := by
  have hdot : more.first.kind ≠ .punctuation .dot := by rw [more.kind]; exact nofun
  have hopen : more.first.kind ≠ .punctuation .lparen := by rw [more.kind]; exact nofun
  fun_induction callAhead ahead with
  | case1 =>
    unfold Sequel.tokens
    cases more.rest <;> simp [callAhead, hdot, hopen]
  | case2 t =>
    have hlast := hwhole.settled t hahead
    have hpoint : t.kind ≠ .punctuation .dot := by
      intro hkind
      rw [hkind] at hlast
      cases hlast
    simp [Sequel.tokens, callAhead, hpoint]
  | case3 t part rest h ih =>
    simp only [List.cons_append, callAhead, if_pos h]
    exact ih ((List.suffix_append [t, part] rest).trans hahead)
  | case4 t part rest h => simp only [List.cons_append, callAhead, if_neg h]

/-! ## Calls and names -/

/-- An atom of one token, which is no mark. -/
theorem continues_leaf {make : Span → Expression} (h : Along whole n settled s)
    (hdue : s.current.kind = kind) (hkind : kind.isInner = true) (hawaits : kind.awaits = false) :
    Continues more whole (leaf make) s fun _ => Along whole n true := by
  have hne : s.current.kind ≠ .eof := by
    intro heof
    rw [← hdue, heof] at hkind
    cases hkind
  have hpast := h.pass hdue (nest_of_inner hkind n)
  rw [hawaits] at hpast
  exact Continues.currentDue hne (Continues.advance hne (Continues.pure hpast))

theorem settles_callArguments (hexpr : Settles more expr) (name : List String) (begin : Nat) :
    Settles more (callArguments expr name begin) := by
  intro whole n settled s h
  refine Continues.expect nofun fun hopen => ?_
  refine (hexpr.commaSeparatedUntil rfl (h.pass hopen rfl)).bind fun arguments s h => ?_
  refine Continues.expect nofun fun hclose => ?_
  exact Continues.spanFrom (Continues.pure (h.pass hclose rfl))

theorem continues_call (hexpr : Settles more expr) {first : String} {begin : Nat}
    (hname : s.current.kind = .identifier first) (h : Along whole n settled s) :
    Continues more whole (call expr first begin) s fun _ => Along whole n true := by
  refine Continues.advance (by rw [hname]; exact nofun) ?_
  refine ((settles_symbolicName _).many rfl (h.pass hname rfl)).bind fun others s h => ?_
  exact settles_callArguments hexpr _ _ h

theorem settles_dotSelector (begin : Nat) : Settles more (dotSelector begin) := by
  intro whole n settled s h
  refine Continues.consume rfl (fun hstar => ?_) fun _ => ?_
  · exact Continues.spanFrom (Continues.pure (h.pass hstar rfl))
  · refine (settles_symbolicName _ h).bind fun key s h => ?_
    exact Continues.spanFrom (Continues.pure h)

theorem settles_variableSelector : Settles more variableSelector := by
  intro whole n settled s h
  refine Continues.current (fun hs _ => by rw [hs.span]) ?_
  exact (settles_variableName _ h).bind fun name s h => Continues.pure h

/-- Whether an entry stands here is seen from its colon, and at the end stands nothing. -/
theorem settles_mapSelector (hexpr : Settles more expr) : Settles more (mapSelector expr) := by
  intro whole n settled s h
  refine Continues.start (Continues.consume rfl (fun hdot => ?_) fun _ => ?_)
  · exact settles_dotSelector _ (h.pass hdot rfl)
  · cases hahead : s.ahead with
    | nil =>
      intro hs a s' hrun
      have hselector : variableSelector s = .ok a s' := by
        rw [← hrun]
        show _ = (if kindAt s.ahead 1 = some (.punctuation .colon) then _
          else variableSelector : Parser MapSelector) s
        rw [hahead]
        rfl
      obtain ⟨t, s₁, hcurrent, hrest⟩ := bind_eq_ok hselector
      cases hcurrent
      obtain ⟨name, s₂, hname, -⟩ := bind_eq_ok hrest
      have hkind := (variableName_eq_ok hname).1
      rw [State.current_of_nil hahead, show s.eof.kind = .eof from hs.ended] at hkind
      cases hkind
    | cons t rest =>
      refine Continues.lookAhead (fun _ => ?_) ?_
      · have hcolon : kindAt (s.ahead ++ more.tokens) 1 = some (.punctuation .colon)
            ↔ kindAt s.ahead 1 = some (.punctuation .colon) := by
          rw [hahead]
          cases rest with
          | nil => simp [kindAt, Sequel.tokens, more.kind]
          | cons u rest => rfl
        simp only [hcolon]
      · split
        · exact (settles_mapEntry hexpr h).bind fun entry s h => Continues.pure h
        · exact settles_variableSelector h

theorem settles_mapProjection (hexpr : Settles more expr) (name : String) (begin : Nat) :
    Settles more (mapProjection expr name begin) := by
  intro whole n settled s h
  refine Continues.expect nofun fun hopen => ?_
  refine ((settles_mapSelector hexpr).commaSeparatedUntil rfl (h.pass hopen rfl)).bind
    fun selectors s h => ?_
  refine Continues.expect nofun fun hclose => ?_
  exact Continues.spanFrom (Continues.pure (h.pass hclose rfl))

theorem continues_named (hexpr : Settles more expr) {name : String} {span : Span}
    (hname : s.current.kind = .identifier name) (h : Along whole n settled s) :
    Continues more whole (named expr name span) s fun _ => Along whole n true := by
  have hne : s.current.kind ≠ .eof := by rw [hname]; exact nofun
  have hahead := State.ahead_eq h.ended hne
  refine Continues.lookAhead (fun hwhole => ?_) ?_
  · rw [hahead, List.cons_append, List.drop_one, List.tail_cons, List.drop_one, List.tail_cons,
      callAhead_followed hwhole (h.pass hname rfl).suffix]
  · split
    · exact continues_call hexpr hname h
    · refine Continues.advance hne (Continues.current (fun hs _ => ?_) ?_)
      · rw [if_neg (ne_of_endsClause more.endsClause_first rfl),
          if_neg (ne_of_endsClause hs.endsClause_eof rfl)]
      · split
        · exact settles_mapProjection hexpr _ _ (h.pass hname rfl)
        · exact Continues.pure (h.pass hname rfl)

/-! ## Parentheses, lists and case analyses -/

theorem settles_parenthesized (hexpr : Settles more expr) :
    Settles more (parenthesized expr) := by
  intro whole n settled s h
  refine Continues.expect nofun fun hopen => ?_
  refine (hexpr (h.pass hopen rfl)).bind fun inner s h => ?_
  exact Continues.expect nofun fun hclose => Continues.pure (h.pass hclose rfl)

theorem settles_group (hexpr : Settles more expr) (begin : Nat) :
    Settles more (group expr begin) := by
  intro whole n settled s h
  refine Continues.lookAhead (fun hwhole => ?_) ?_
  · rw [patternPredicateAhead_followed hwhole h.suffix]
  · split
    · exact (settles_patternChain hexpr none begin h).bind fun path s h => Continues.pure h
    · exact settles_parenthesized hexpr h

theorem settles_mapLiteral (hexpr : Settles more expr) : Settles more (mapLiteral expr) :=
  fun _ _ _ _ h => (settles_mapEntries hexpr h).bind fun _ _ h => Continues.pure h

theorem rests_optionalWhere (hexpr : Settles more expr) : Rests more (optionalWhere expr) :=
  hexpr.behind rfl

theorem settles_listComprehension (hexpr : Settles more expr) (begin : Nat) :
    Settles more (listComprehension expr begin) := by
  intro whole n settled s h
  refine Continues.expect nofun fun hopen => ?_
  refine (settles_variableName _ (h.pass hopen rfl)).bind fun name s h => ?_
  refine Continues.expect nofun fun hin => ?_
  refine (hexpr (h.pass hin rfl)).bind fun source s h => ?_
  refine (rests_optionalWhere hexpr h).bind fun filter s h => ?_
  refine (hexpr.behind rfl h).bind fun projection s h => ?_
  refine Continues.expect nofun fun hclose => ?_
  exact Continues.spanFrom (Continues.pure (h.pass hclose rfl))

theorem settles_patternComprehension (hexpr : Settles more expr) (begin : Nat) :
    Settles more (patternComprehension expr begin) := by
  intro whole n settled s h
  refine Continues.expect nofun fun hopen => ?_
  refine (settles_pattern hexpr (h.pass hopen rfl)).bind fun path s h => ?_
  refine (rests_optionalWhere hexpr h).bind fun filter s h => ?_
  refine Continues.expect nofun fun hbar => ?_
  refine (hexpr (h.pass hbar rfl)).bind fun projection s h => ?_
  refine Continues.expect nofun fun hclose => ?_
  exact Continues.spanFrom (Continues.pure (h.pass hclose rfl))

theorem settles_listLiteral (hexpr : Settles more expr) (begin : Nat) :
    Settles more (listLiteral expr begin) := by
  intro whole n settled s h
  refine Continues.expect nofun fun hopen => ?_
  refine (hexpr.commaSeparatedUntil rfl (h.pass hopen rfl)).bind fun items s h => ?_
  refine Continues.expect nofun fun hclose => ?_
  exact Continues.spanFrom (Continues.pure (h.pass hclose rfl))

theorem continues_bracket (hexpr : Settles more expr) {begin : Nat}
    (hopen : s.current.kind = .punctuation .lbracket) (h : Along whole n settled s) :
    Continues more whole (bracket expr begin) s fun _ => Along whole n true := by
  have hahead := State.ahead_eq h.ended (by rw [hopen]; exact nofun)
  refine Continues.lookAhead (fun hwhole => ?_) ?_
  · have hcomprehension : patternComprehensionAhead ((s.ahead ++ more.tokens).drop 1)
        = patternComprehensionAhead (s.ahead.drop 1) := by
      rw [hahead]
      exact patternComprehensionAhead_followed hwhole (h.pass hopen rfl).suffix
    have hlist : listComprehensionAhead (s.ahead ++ more.tokens)
        = listComprehensionAhead s.ahead := by
      rw [hahead]
      exact listComprehensionAhead_followed more _ _
    simp only [hlist, hcomprehension]
  · split
    · exact settles_listComprehension hexpr begin h
    · split
      · exact settles_patternComprehension hexpr begin h
      · exact settles_listLiteral hexpr begin h

theorem round_caseBranch (hexpr : Settles more expr) : RestsRound more (caseBranch expr) := by
  intro whole n s h
  refine Continues.start (Continues.consume rfl (fun hwhen => ?_) fun _ =>
    Continues.pure ⟨h, fun h => absurd rfl h⟩)
  have hne : s.current.kind ≠ .eof := by rw [hwhen]; exact nofun
  refine (Continues.shorter h.ended hne (Q := fun _ => Along whole n true) ?_).mono
    fun _ _ _ h => ⟨h.1, fun _ => h.2⟩
  refine (hexpr (h.pass hwhen rfl)).bind fun condition s h => ?_
  refine Continues.expect nofun fun hthen => ?_
  refine (hexpr (h.pass hthen rfl)).bind fun result s h => ?_
  exact Continues.spanFrom (Continues.pure h)

theorem settles_caseExpression (hexpr : Settles more expr) (begin : Nat) :
    Settles more (caseExpression expr begin) := by
  intro whole n settled s h
  refine Continues.expect nofun fun hcase => ?_
  refine (hexpr.unlessDue rfl (h.pass hcase rfl)).bind fun operand s h => ?_
  refine ((round_caseBranch hexpr).many h).bind fun branches s h => ?_
  split
  · exact Continues.fail
  · refine (hexpr.behind rfl h).bind fun otherwise s h => ?_
    refine Continues.expect nofun fun hend => ?_
    exact Continues.spanFrom (Continues.pure (h.pass hend rfl))

theorem continues_existsCall (hexpr : Settles more expr) {begin : Nat}
    (hdue : s.current.kind = .keyword .EXISTS) (h : Along whole n settled s) :
    Continues more whole (existsCall expr begin) s fun _ => Along whole n true :=
  Continues.advance (by rw [hdue]; exact nofun) (settles_callArguments hexpr _ _ (h.pass hdue rfl))

/-! ## Atoms -/

/-- Where the text ends no atom is read, and where its sequel starts neither. -/
theorem settles_atom (hrecover : config.recover = false) (hexpr : Settles more expr) :
    Settles more (atom config expr) := by
  have hstop : recoverExpression config = fail .expectedExpression :=
    if_neg (by rw [hrecover]; exact Bool.false_ne_true)
  intro whole n settled s h
  refine Continues.current (fun hs _ => ?_) ?_
  · have hstarts := more.starts
    rw [more.kind, show s.eof.kind = .eof from hs.ended]
    cases hword : more.word <;> first | rfl | (rw [hword] at hstarts; cases hstarts)
  · split
    · next hdue => exact continues_leaf h hdue rfl rfl
    · next hdue => exact continues_leaf h hdue rfl rfl
    · next hdue => exact continues_leaf h hdue rfl rfl
    · next hdue => exact continues_leaf h hdue rfl rfl
    · next hdue => exact continues_leaf h hdue rfl rfl
    · next hdue => exact continues_leaf h hdue rfl rfl
    · next hdue => exact continues_leaf h hdue rfl rfl
    · next hdue => exact continues_leaf h hdue rfl rfl
    · exact settles_group hexpr _ h
    · next hdue => exact continues_bracket hexpr hdue h
    · exact settles_mapLiteral hexpr h
    · exact settles_caseExpression hexpr _ h
    · next hdue => exact continues_existsCall hexpr hdue h
    · next hdue => exact continues_named hexpr hdue h
    · rw [hstop]
      exact Continues.fail

/-! ## Suffixes -/

section Suffixes

variable {o : Operand}

theorem continues_grown {tree : Expression} {inner : Nat} {Q : State → Prop} (h : Q s) :
    Continues more whole (grown config o tree inner) s fun _ => Q :=
  Continues.checkHeight (Continues.pure h)

theorem continues_propertyAccess (hdue : s.current.kind = .punctuation .dot)
    (h : Along whole n true s) :
    Continues more whole (propertyAccess config o) s fun _ s' =>
      Along whole n true s' ∧ s'.ahead.length < s.ahead.length := by
  have hne : s.current.kind ≠ .eof := by rw [hdue]; exact nofun
  refine Continues.advance hne (Continues.shorter h.ended hne ?_)
  refine (settles_symbolicName _ (h.pass hdue rfl)).bind fun key s h => ?_
  exact Continues.spanFrom (continues_grown h)

theorem rests_indexTail (position : Expression) : Rests more (indexTail config o position) := by
  intro whole n s h
  refine Continues.expect nofun fun hclose => ?_
  exact Continues.spanFrom (continues_grown (h.pass hclose rfl))

theorem rests_sliceTail (hexpr : Settles more expr) (lower : Option Expression) :
    Rests more (sliceTail config expr o lower) := by
  intro whole n s h
  refine Continues.expect nofun fun hdots => ?_
  refine (hexpr.unlessDue rfl (h.pass hdots rfl)).bind fun upper s h => ?_
  refine Continues.expect nofun fun hclose => ?_
  exact Continues.spanFrom (continues_grown (h.pass hclose rfl))

theorem settles_subscript (hexpr : Settles more expr) :
    Settles more (subscript config expr o) := by
  intro whole n settled s h
  refine Continues.expect nofun fun hopen => ?_
  refine (hexpr.unlessDue rfl (h.pass hopen rfl)).bind fun lower s h => ?_
  refine Continues.current (fun hs _ => ?_) ?_
  · have hdots : endsClause (.operator .dotDot) = false := rfl
    simp only [if_neg (ne_of_endsClause more.endsClause_first hdots),
      if_neg (ne_of_endsClause hs.endsClause_eof hdots)]
  · split
    · split
      · exact rests_sliceTail hexpr _ h
      · exact rests_indexTail _ h
    · exact rests_sliceTail hexpr _ h

theorem continues_labelCheck (h : Along whole n true s) :
    Continues more whole (labelCheck config o) s fun _ s' =>
      Along whole n true s' ∧ s'.ahead.length < s.ahead.length :=
  (continues_labelList h).bind fun _ _ h => Continues.spanFrom (continues_grown h)

/-- A colon that a name follows in the continued text has that name behind it in the
complete one. -/
theorem label_followed (hwhole : Complete whole) (hahead : s.ahead <:+ whole)
    (hcolon : s.current.kind = .punctuation .colon) (hs : s.Ended) :
    (s.ahead ++ more.tokens)[1]?.bind Token.symbolicName?
      = s.ahead[1]?.bind Token.symbolicName? := by
  have hcons := State.ahead_eq hs (by rw [hcolon]; exact nofun)
  rw [hcons] at hahead ⊢
  cases hrest : s.advance.ahead with
  | nil =>
    rw [hrest] at hahead
    have hawaits := hwhole.settled _ hahead
    rw [hcolon] at hawaits
    cases hawaits
  | cons t rest => rfl

theorem continues_suffix (hexpr : Settles more expr) (h : Along whole n true s) :
    Continues more whole (suffix config expr o) s fun r s' =>
      Along whole n true s' ∧ ∀ o', r = .yield o' → s'.ahead.length < s.ahead.length := by
  have hdone : Continues more whole (pure (.done o) : Parser (ForInStep Operand)) s fun r s' =>
      Along whole n true s' ∧ ∀ o', r = .yield o' → s'.ahead.length < s.ahead.length :=
    Continues.pure ⟨h, nofun⟩
  refine Continues.current (fun hs _ => ?_) ?_
  · simp only [more.kind, show s.eof.kind = .eof from hs.ended]
  · split
    · next hdot => exact (continues_propertyAccess hdot h).mono fun _ _ _ h => ⟨h.1, fun _ _ => h.2⟩
    · exact ((settles_subscript hexpr).less h).mono fun _ _ _ h => ⟨h.1, fun _ _ => h.2⟩
    · next hcolon =>
      refine Continues.lookAhead (fun hwhole => ?_) ?_
      · simp only [label_followed hwhole h.suffix hcolon h.ended]
      · split
        · exact (continues_labelCheck h).mono fun _ _ _ h => ⟨h.1, fun _ _ => h.2⟩
        · exact hdone
    · exact hdone

end Suffixes

theorem settles_operand (hrecover : config.recover = false) (hexpr : Settles more expr) :
    Settles more (operand config expr) := by
  intro whole n settled s h
  refine (settles_atom hrecover hexpr h).bind fun tree s h => Continues.checkHeight ?_
  exact Continues.iterate (fun _ _ h => continues_suffix hexpr h) (fun _ h => h) h _

end Cypher.Grammar
