import Cypher.Proofs.Disguised.Pattern
import Cypher.Proofs.Leaves.Operand

/-!
# Operands with names in disguise

A key behind a point, a label behind a colon, a part of the name of a function:
these may be in disguise. The first token of an operand may not, and it tells
what the operand is.
-/

namespace Cypher.Grammar

open Token (Kind)

variable {f : Token → Token} {config : Config} {expr : Parser Expression} {o : Outlook}
  {read : List Leaf} {brackets : List Bracket} {modes : List Mode} {s : State}

/-! ## Calls and names -/

theorem alike_leaf (hf : Disguise f o.tokens) {make : Span → Expression} : Alike f (leaf make) s :=
  .current (by rw [hf.span_eq]) (.advance (.pure _))

section Calls

variable (hexpr : Steady f expr)

include hexpr

/-- The arguments of a call, and what is done behind them. -/
theorem alike_arguments {β : Type} {k : List Expression → Parser β} (hf : Disguise f o.tokens)
    (h : At o read brackets [.call] s) (hdue : s.current.kind = .punctuation .lparen)
    (hk : ∀ es s, Alike f (k es) s) :
    Alike f (commaSeparatedUntil (.punctuation .rparen) expr >>= fun es =>
      expect (.punctuation .rparen) >>= fun _ => k es) s.advance := by
  have harguments : Blind f (commaSeparatedUntil (.punctuation .rparen) expr)
      (.arguments :: brackets) [.value] :=
    .commaSeparatedUntil (.comma (by simp)) (hexpr.covers (by simp)) (hexpr.blind (by simp)) rfl
  have hinside := h.enter hdue .arguments (by simp)
  refine (harguments (o := o.inside _) hf hinside).andThen fun es s => ?_
  exact .expectSign hf rfl fun _ => hk es _

theorem blind_callArguments {name : List String} {begin : Nat} :
    Blind f (callArguments expr name begin) brackets [.call] := by
  intro o read s hf h
  refine .expectSign hf rfl fun hdue => ?_
  exact alike_arguments hexpr hf h hdue fun es s => .spanFrom hf fun _ => .pure _

theorem alike_call {first : String} {begin : Nat} (hf : Disguise f o.tokens)
    (hname : s.current.kind = .identifier first) (h : At o read brackets [.value] s) :
    Alike f (call expr first begin) s := by
  refine .advance ?_
  have hbehind := h.advance (.identifier (by simp) hname)
  exact (blind_dottedNames.bind covers_dottedNames fun _ => blind_callArguments hexpr) hf hbehind

omit hexpr in
theorem blind_dotSelector {begin : Nat} : Blind f (dotSelector begin) brackets [.name] := by
  intro o read s hf h
  refine .consume (h.kind_iff hf (.inl rfl)) (fun _ => .spanFrom hf fun _ => .pure _) fun _ => ?_
  exact (Alike.symbolicName hf).andThen fun _ _ => .spanFrom hf fun _ => .pure _

/-- Where no colon follows it, the start of an item is what it looks like. -/
theorem blind_mapSelector : Blind f (mapSelector expr) (.map :: brackets) [.entry] := by
  refine .start fun begin => .consume .dot (.inl rfl) (blind_dotSelector) ?_
  intro o read s hf h
  have hcolon := kindAt_disguise_iff hf s.ahead 1 (.punctuation .colon) rfl
  refine .lookAhead (by simp only [hcolon]) ?_
  split
  · exact (blind_mapEntry hexpr hf h).map
  · next hother =>
    have hplain : f s.current = s.current := by
      refine h.fixed_of_not_names hf fun m hm hnames => hnames.elim (fun hname => ?_) fun hentry => ?_
      · rw [List.mem_singleton.1 hm] at hname
        cases hname
      · exact hother (by rw [kindAt_succ]; exact hentry.2)
    refine .current (by rw [hplain]) ?_
    exact (Alike.variableName hplain).map

theorem blind_mapProjection {name : String} {begin : Nat} :
    Blind f (mapProjection expr name begin) brackets modes := by
  refine .expectSign .lbrace rfl ?_
  refine (Blind.commaSeparatedUntil .entry (covers_mapSelector hexpr.covers)
    (blind_mapSelector hexpr) rfl).bind
    ((covers_mapSelector hexpr.covers).commaSeparatedUntil .entry) fun selectors => ?_
  exact .expectSign .rbrace rfl (.spanFrom fun _ => .pure _)

theorem alike_named {name : String} {span : Span} (hf : Disguise f o.tokens)
    (hname : s.current.kind = .identifier name) (h : At o read brackets [.value] s) :
    Alike f (named expr name span) s := by
  refine .lookAhead (by rw [← List.map_drop, callAhead_disguise hf]) ?_
  split
  · exact alike_call hexpr hf hname h
  · have hbehind := h.advance (.identifier (by simp) hname)
    refine .advance ?_
    refine .currentPlain hf hbehind (by simp [Plain]) ?_
    split
    · exact blind_mapProjection hexpr hf hbehind
    · exact .pure _

/-! ## Parentheses -/

theorem blind_parenthesized : Blind f (parenthesized expr) brackets [.value] := by
  intro o read s hf h
  refine .expectSign hf rfl fun hdue => ?_
  have hbracket : ∀ m ∈ [Mode.value],
      (if m = .call then .arguments else if nodeAhead s.ahead then .node else .group)
        = if nodeAhead s.ahead then Bracket.node else .group := by
    intro m hm
    rw [List.mem_singleton.1 hm, if_neg nofun]
  have hinside := h.enter hdue _ hbracket
  refine (hexpr.blind (by split <;> simp) (o := o.inside _) hf hinside).andThen fun _ s => ?_
  exact .expectSign hf rfl fun _ => .pure _

/-- From afar, a path and an expression are told apart as before. -/
theorem blind_group {begin : Nat} : Blind f (group expr begin) brackets [.value] := by
  intro o read s hf h
  obtain ⟨m, -, -, hmet⟩ := h.scan
  refine .lookAhead (by rw [hmet.patternPredicateAhead_disguise hf]) ?_
  split
  · exact (blind_patternChain hexpr hf h).map
  · exact blind_parenthesized hexpr hf h

/-! ## Lists, maps and case analyses -/

theorem blind_mapLiteral : Blind f (mapLiteral expr) brackets modes := (blind_mapEntries hexpr).map

theorem blind_optionalWhere (hbrackets : brackets.head? ≠ some .detail) :
    Blind f (optionalWhere expr) brackets [.value, .call] :=
  (hexpr.blind hbrackets).behind (.inr (by simp [Plain])) (.plain rfl (by simp))

theorem blind_listComprehension {begin : Nat} :
    Blind f (listComprehension expr begin) brackets [.value] := by
  refine .expectSign (.lbracket (by simp)) rfl ?_
  refine (blind_variableName (by simp [Plain])).bind (covers_variableName (by simp) _) fun name => ?_
  refine .expectWord (.plain rfl (by simp)) ?_
  refine (hexpr.blind (by simp)).bind (hexpr.covers (by simp)) fun source => ?_
  refine (blind_optionalWhere hexpr (by simp)).bind (covers_optionalWhere hexpr.covers (by simp))
    fun filter => ?_
  refine ((hexpr.blind (by simp)).behind (.inl rfl) (.operator (.inr (by simp)) (by simp))).bind
    (.behind (.operator (.inr (by simp)) (by simp)) (hexpr.covers (by simp))) fun projection => ?_
  exact .expectSign .rbracket rfl (.spanFrom fun _ => .pure _)

theorem blind_patternComprehension {begin : Nat} :
    Blind f (patternComprehension expr begin) brackets [.value] := by
  refine .expectSign (.lbracket (by simp)) rfl ?_
  refine (blind_pattern hexpr).bind (covers_pattern hexpr.covers) fun path => ?_
  refine (blind_optionalWhere hexpr (by simp)).mono (by simp) |>.bind
    ((covers_optionalWhere hexpr.covers (by simp)).mono (by simp) (List.Subset.refl _))
    fun filter => ?_
  refine .expectSign (.operator (.inr (by simp)) (by simp)) rfl ?_
  refine (hexpr.blind (by simp)).bind (hexpr.covers (by simp)) fun projection => ?_
  exact .expectSign .rbracket rfl (.spanFrom fun _ => .pure _)

theorem blind_listLiteral {begin : Nat} : Blind f (listLiteral expr begin) brackets [.value] := by
  refine .expectSign (.lbracket (by simp)) rfl ?_
  refine (Blind.commaSeparatedUntil (.comma (by simp)) (hexpr.covers (by simp))
    (hexpr.blind (by simp)) rfl).bind
    ((hexpr.covers (by simp)).commaSeparatedUntil (.comma (by simp))) fun items => ?_
  exact .expectSign .rbracket rfl (.spanFrom fun _ => .pure _)

theorem alike_bracket {begin : Nat} (hf : Disguise f o.tokens)
    (hdue : s.current.kind = .punctuation .lbracket) (h : At o read brackets [.value] s) :
    Alike f (bracket expr begin) s := by
  obtain ⟨m, -, -, hmet⟩ := h.scan
  have hahead := State.ahead_eq h.ended (by rw [hdue]; simp)
  rw [hahead] at hmet
  have hlist := hmet.listComprehensionAhead_disguise hf hdue
  have hpath := hmet.pass.patternComprehensionAhead_disguise hf
    (by simp [Scan.pass, hdue, Scan.passMark, Scan.enter])
  refine .lookAhead ?_ ?_
  · rw [hahead, hlist, ← List.map_drop, List.drop_one, List.tail_cons, hpath]
  · split
    · exact blind_listComprehension hexpr hf h
    · split
      · exact blind_patternComprehension hexpr hf h
      · exact blind_listLiteral hexpr hf h

theorem blind_caseBranch (hbrackets : brackets.head? ≠ some .detail) :
    Blind f (caseBranch expr) brackets [.value, .call] := by
  refine .start fun begin =>
    .consume (.plain rfl (by simp)) (.inr (by simp [Plain])) ?_ (.pure _)
  refine (hexpr.blind hbrackets).bind (hexpr.covers hbrackets) fun condition => ?_
  refine .expectWord (.plain rfl (by simp)) ?_
  exact (hexpr.blind hbrackets).bind (hexpr.covers hbrackets) fun _ => .spanFrom fun _ => .pure _

theorem blind_caseExpression (hbrackets : brackets.head? ≠ some .detail) {begin : Nat} :
    Blind f (caseExpression expr begin) brackets [.value] := by
  have hbranch := covers_caseBranch hexpr.covers hbrackets
  refine .expectWord (.plain rfl (by simp)) ?_
  refine ((hexpr.blind hbrackets).unlessDue (.inr (by simp [Plain]))).bind
    (hexpr.covers hbrackets).unlessDue fun operand => ?_
  refine ((Blind.many hbranch (blind_caseBranch hexpr hbrackets)).mono (by simp)).bind
    (hbranch.many.mono (by simp) (List.Subset.refl _)) fun branches => ?_
  split
  · exact .fail
  · refine ((hexpr.blind hbrackets).behind (.inr (by simp [Plain])) (.plain rfl (by simp))).bind
      (.behind (.plain rfl (by simp)) (hexpr.covers hbrackets)) fun otherwise => ?_
    exact .expectWord (.plain rfl (by simp)) (.spanFrom fun _ => .pure _)

theorem alike_existsCall {begin : Nat} (hf : Disguise f o.tokens)
    (hdue : s.current.kind = .keyword .EXISTS) (h : At o read brackets [.value] s) :
    Alike f (existsCall expr begin) s := by
  have hpasses : Passes s.current brackets [.value] [.name "exists"] brackets .call :=
    .keyword (by simp) hdue fun m hname hentry => by
      simp [Scan.passKeyword, Scan.toMode, hname, hentry]
  exact .advance (blind_callArguments hexpr hf (h.advance hpasses))

/-! ## Atoms -/

theorem blind_atom (hrecover : config.recover = false) (hbrackets : brackets.head? ≠ some .detail) :
    Blind f (atom config expr) brackets [.value] := by
  refine .current (by simp [Plain]) fun o read s hf h => ?_
  split
  · exact alike_leaf hf
  · exact alike_leaf hf
  · exact alike_leaf hf
  · exact alike_leaf hf
  · exact alike_leaf hf
  · exact alike_leaf hf
  · exact alike_leaf hf
  · exact alike_leaf hf
  · exact blind_group hexpr hf h
  · next hdue => exact alike_bracket hexpr hf hdue h
  · exact blind_mapLiteral hexpr hf h
  · exact blind_caseExpression hexpr hbrackets hf h
  · next hdue => exact alike_existsCall hexpr hf hdue h
  · next hdue => exact alike_named hexpr hf hdue h
  · have hstop : recoverExpression config = fail .expectedExpression :=
      if_neg (by rw [hrecover]; exact Bool.false_ne_true)
    rw [hstop]
    exact .fail

end Calls

/-! ## Suffixes -/

section Suffixes

variable {x : Operand}

theorem blind_grown {tree : Expression} {inner : Nat} :
    Blind f (grown config x tree inner) brackets modes := .checkHeight (.pure _)

theorem alike_propertyAccess (hf : Disguise f o.tokens) : Alike f (propertyAccess config x) s :=
  .advance ((Alike.symbolicName hf).andThen fun _ _ =>
    .spanFrom hf fun _ => .checkHeight (.pure _))

theorem blind_labelCheck : Blind f (labelCheck config x) brackets [.value, .call] :=
  blind_labelList.bind covers_labelList fun _ => .spanFrom fun _ => blind_grown

section Values

variable (hexpr : Steady f expr)

include hexpr

theorem blind_sliceTail {lower : Option Expression} :
    Blind f (sliceTail config expr x lower) (.list :: brackets) [.value, .call] := by
  refine .expectSign (.operator (.inl (by simp)) (by simp)) rfl ?_
  refine ((hexpr.blind (by simp)).unlessDue (.inl rfl)).bind
    (hexpr.covers (by simp)).unlessDue fun upper => ?_
  exact .expectSign .rbracket rfl (.spanFrom fun _ => blind_grown)

omit hexpr in
theorem blind_indexTail {position : Expression} :
    Blind f (indexTail config x position) (.list :: brackets) modes :=
  .expectSign .rbracket rfl (.spanFrom fun _ => blind_grown)

theorem blind_subscript : Blind f (subscript config expr x) brackets [.value, .call] := by
  refine .expectSign (.lbracket (by simp)) rfl ?_
  refine ((hexpr.blind (by simp)).unlessDue (.inl rfl)).bind
    (hexpr.covers (by simp)).unlessDue fun lower => ?_
  refine .current (by simp [Plain]) fun o read s hf h => ?_
  have h : At o read (.list :: brackets) [.value, .call] s := h.mono (by simp)
  split
  · split
    · exact blind_sliceTail hexpr hf h
    · exact blind_indexTail hf h
  · exact blind_sliceTail hexpr hf h

theorem blind_suffix : Blind f (suffix config expr x) brackets [.value, .call] := by
  refine .current (by simp [Plain]) fun o read s hf h => ?_
  split
  · exact alike_propertyAccess hf
  · exact blind_subscript hexpr hf h
  · refine .lookAhead ?_ ?_
    · have hname : (s.ahead.map f)[1]?.bind Token.symbolicName?
          = s.ahead[1]?.bind Token.symbolicName? := by
        rw [List.getElem?_map]
        cases s.ahead[1]? with
        | none => rfl
        | some t => exact hf.symbolicName?_eq t
      rw [hname]
    · split
      · exact blind_labelCheck hf h
      · exact .pure _
  · exact .pure _

/-- An atom and its suffixes are read as before. -/
theorem blind_operand (hrecover : config.recover = false)
    (hbrackets : brackets.head? ≠ some .detail) :
    Blind f (operand config expr) brackets [.value] := by
  intro o read s hf h
  refine (blind_atom hexpr hrecover hbrackets hf h).bind
    (covers_atom hrecover hexpr.covers hbrackets h) fun tree s h => .checkHeight ?_
  refine .iterate h (fun x s h => (leads_suffix hexpr.covers h).mono fun r s h y hr => ?_)
    fun x s h => blind_suffix hexpr hf h
  rw [hr] at h
  exact h

end Values

end Suffixes

end Cypher.Grammar
