import Cypher.Grammar.Operand
import Cypher.Proofs.Leaves.Pattern

/-!
# The leaves of operands

What starts with a parenthesis is a path or an expression, and the question is
settled where the parenthesis stands. An expression in the shape of a node is
therefore known not to be followed by a relationship, and the scan finds none
when it comes to the closing parenthesis.
-/

namespace Cypher.Grammar

open Token (Kind)

variable {config : Config} {expr : Parser Expression} {o : Outlook} {read : List Leaf}
  {brackets : List Bracket} {modes : List Mode} {mode : Mode} {s : State}

/-! ## Calls and names -/

theorem leads_leaf {make : Span → Expression} {leaves : List Leaf}
    (h : At o read brackets modes s) (hpasses : Passes s.current brackets modes leaves brackets mode)
    (hmake : ∀ span, (make span).leaves = leaves) :
    Leads (leaf make) s fun e => At o (read ++ e.leaves) brackets [mode] := by
  refine Leads.current (Leads.advance (Leads.pure ?_))
  exact (h.advance hpasses).of_eq (by rw [hmake])

/-- What is done behind the arguments of a call, once they are in parentheses. -/
theorem leads_arguments {β : Type} {f : List Expression → Parser β} {R : β → State → Prop}
    (hexpr : CoversValues expr) (hdue : s.current.kind = .punctuation .lparen)
    (h : At o read brackets [.call] s)
    (hf : ∀ es s', At o (read ++ leavesOfList es) brackets [.value] s' → Leads (f es) s' R) :
    Leads (commaSeparatedUntil (.punctuation .rparen) expr >>= fun es =>
      expect (.punctuation .rparen) >>= fun _ => f es) s.advance R := by
  have harguments : Covers (commaSeparatedUntil (.punctuation .rparen) expr)
      (·.flatMap Expression.leaves) (.arguments :: brackets) [.value] [.value, .value, .call] :=
    (hexpr (by simp)).commaSeparatedUntil (.comma (by simp))
  have hinside := h.enter hdue .arguments (by simp)
  refine (harguments hinside).bind fun es s h => ?_
  refine Leads.expect fun hclosed => hf es _ ?_
  have hbehind := (h.leave hclosed).2
  rw [Bracket.behind_of_ne (by simp)] at hbehind
  exact hbehind.of_eq (by rw [leavesOfList_eq])

/-- A call behind its name. -/
theorem leads_callArguments (hexpr : CoversValues expr) {name : List String} {begin : Nat}
    (h : At o (read ++ leavesOfNames name) brackets [.call] s) :
    Leads (callArguments expr name begin) s fun e => At o (read ++ e.leaves) brackets [.value] := by
  refine Leads.expect fun hdue => leads_arguments hexpr hdue h fun es s h => ?_
  refine Leads.spanFrom fun span => Leads.pure ?_
  exact h.of_eq (by simp [Expression.leaves])

theorem leads_call (hexpr : CoversValues expr) {first : String} {begin : Nat}
    (hname : s.current.kind = .identifier first) (h : At o read brackets [.value] s) :
    Leads (call expr first begin) s fun e => At o (read ++ e.leaves) brackets [.value] := by
  refine Leads.advance ?_
  refine (covers_dottedNames (h.advance (.identifier (by simp) hname))).bind fun others s h => ?_
  exact leads_callArguments hexpr
    (h.of_eq (by simp [leavesOfNames]))

theorem covers_dotSelector {begin : Nat} :
    Covers (dotSelector begin) MapSelector.leaves brackets [.name] [.value, .call] := by
  intro o read s h
  refine Leads.consume (fun hdue => ?_) fun _ => ?_
  · refine Leads.spanFrom fun span => Leads.pure ?_
    exact (h.advance (.operator (.inl (by simp)) (by simp) hdue)).mono (by simp)
  · refine (covers_symbolicName _ h).bind fun key s h => ?_
    exact Leads.spanFrom fun span => Leads.pure (h.mono (by simp))

theorem covers_mapSelector (hexpr : CoversValues expr) :
    Covers (mapSelector expr) MapSelector.leaves (.map :: brackets) [.entry]
      [.value, .call, .key] := by
  intro o read s h
  refine Leads.start fun begin => Leads.consume (fun hdue => ?_) fun _ => Leads.lookAhead ?_
  · refine (covers_dotSelector (h.advance_nil (.dot hdue))).mono fun _ _ h => ?_
    exact h.mono (by simp)
  · split
    · refine (covers_mapEntry hexpr h).bind fun entry s h => Leads.pure ?_
      exact h.mono (by simp)
    · refine Leads.current ((Leads.variableName fun name hname => ?_).bind fun name s h =>
        Leads.pure h)
      have hkey : s.current.symbolicName? = some name := by
        rw [Token.symbolicName?, hname]
      exact (h.advance (.key hkey)).mono (by simp)

/-- A map projection behind its variable. -/
theorem leads_mapProjection (hexpr : CoversValues expr) {name : String} {begin : Nat}
    (h : At o (read ++ [.name name]) brackets modes s) :
    Leads (mapProjection expr name begin) s fun e =>
      At o (read ++ e.leaves) brackets [.value] := by
  refine (h.expect .lbrace).bind fun _ s h => ?_
  refine ((covers_mapSelector hexpr).commaSeparatedUntil .entry h).bind fun selectors s h => ?_
  refine (h.expect .rbrace).bind fun _ s h => ?_
  refine Leads.spanFrom fun span => Leads.pure ?_
  exact h.of_eq (by simp [Expression.leaves, leavesOfSelectors_eq])

theorem leads_named (hexpr : CoversValues expr) {name : String} {span : Span}
    (hname : s.current.kind = .identifier name) (h : At o read brackets [.value] s) :
    Leads (named expr name span) s fun e =>
      At o (read ++ e.leaves) brackets [.value, .call] := by
  refine Leads.lookAhead ?_
  split
  · exact (leads_call hexpr hname h).mono fun _ _ h => h.mono (by simp)
  · have hbehind := h.advance (.identifier (by simp) hname)
    refine Leads.advance (Leads.current ?_)
    split
    · exact (leads_mapProjection hexpr hbehind).mono fun _ _ h => h.mono (by simp)
    · exact Leads.pure (hbehind.mono (by simp))

/-! ## Parentheses -/

/-- Where no path starts, none is found to go on behind the parenthesis. -/
theorem leads_parenthesized (hexpr : CoversValues expr)
    (hpath : patternPredicateAhead s.ahead = false) (h : At o read brackets [.value] s) :
    Leads (parenthesized expr) s fun e => At o (read ++ e.leaves) brackets [.value] := by
  refine Leads.expect fun hdue => ?_
  have hbracket : ∀ m ∈ [Mode.value],
      (if m = .call then .arguments else if nodeAhead s.ahead then .node else .group)
        = if nodeAhead s.ahead then Bracket.node else .group := by
    intro m hm
    rw [List.mem_singleton.1 hm, if_neg nofun]
  refine (hexpr (by split <;> simp) (h.enter hdue _ hbracket)).bind fun inner s' h' => ?_
  refine Leads.expect fun hclosed => Leads.pure ?_
  obtain ⟨hafter, hbehind⟩ := h'.leave hclosed
  have hvalue : (if nodeAhead s.ahead then Bracket.node else .group).behind s'.advance.ahead
      = .value := by
    cases hnode : nodeAhead s.ahead with
    | false => exact Bracket.behind_of_ne (by simp) _
    | true =>
      have hrelationship : relationshipAhead s'.advance.ahead = false := by
        rwa [patternPredicateAhead, hnode, hafter] at hpath
      exact if_neg fun h => by simp [hrelationship] at h
  exact hvalue ▸ hbehind

theorem leads_group (hexpr : CoversValues expr) {begin : Nat}
    (h : At o read brackets [.value] s) :
    Leads (group expr begin) s fun e => At o (read ++ e.leaves) brackets [.value] := by
  refine Leads.lookAhead ?_
  split
  · have hname : At o (read ++ leavesOfName none) brackets [.value] s :=
      h.of_eq (List.append_nil read).symm
    exact (leads_patternChain hexpr hname).bind fun path s h => Leads.pure h
  · next hpath => exact leads_parenthesized hexpr (Bool.not_eq_true _ ▸ hpath) h

/-! ## Lists, maps and case analyses -/

theorem covers_mapLiteral (hexpr : CoversValues expr) :
    Covers (mapLiteral expr) Expression.leaves brackets modes [.value] := by
  intro o read s h
  exact (covers_mapEntries hexpr h).bind fun found s h => Leads.pure h

/-- A condition behind an expression. -/
theorem covers_optionalWhere (hexpr : CoversValues expr)
    (hbrackets : brackets.head? ≠ some .detail) :
    Covers (optionalWhere expr) leavesOfOption brackets [.value, .call] [.value, .call] := by
  intro o read s h
  refine (Covers.behind (.plain rfl (by simp)) (hexpr hbrackets) h).mono fun filter s h => ?_
  exact (h.mono (by simp)).of_eq (by rw [leavesOfOption_eq])

theorem covers_listComprehension (hexpr : CoversValues expr) {begin : Nat} :
    Covers (listComprehension expr begin) Expression.leaves brackets [.value] [.value] := by
  intro o read s h
  have hprojection : Covers (behind (.operator .pipe) expr) _ (.list :: brackets)
      [.value, .call] [.value, .call, .value, .call] :=
    .behind (.operator (.inr (by simp)) (by simp)) (hexpr (by simp))
  refine (h.expect (.lbracket (by simp))).bind fun _ s h => ?_
  refine (covers_variableName (by simp) _ h).bind fun name s h => ?_
  refine (h.expect (.plain rfl (by simp))).bind fun _ s h => ?_
  refine (hexpr (by simp) h).bind fun source s h => ?_
  refine (covers_optionalWhere hexpr (by simp) h).bind fun filter s h => ?_
  refine (hprojection h).bind fun projection s h => ?_
  refine (h.expect .rbracket).bind fun _ s h => ?_
  refine Leads.spanFrom fun span => Leads.pure ?_
  exact h.of_eq (by simp [Expression.leaves, leavesOfOption_eq])

theorem covers_patternComprehension (hexpr : CoversValues expr) {begin : Nat} :
    Covers (patternComprehension expr begin) Expression.leaves brackets [.value] [.value] := by
  intro o read s h
  refine (h.expect (.lbracket (by simp))).bind fun _ s h => ?_
  refine (covers_pattern hexpr h).bind fun path s h => ?_
  refine (covers_optionalWhere hexpr (by simp) (h.mono (by simp))).bind fun filter s h => ?_
  refine (h.expect (.operator (.inr (by simp)) (by simp))).bind fun _ s h => ?_
  refine (hexpr (by simp) h).bind fun projection s h => ?_
  refine (h.expect .rbracket).bind fun _ s h => ?_
  refine Leads.spanFrom fun span => Leads.pure ?_
  exact h.of_eq (by simp [Expression.leaves])

theorem covers_listLiteral (hexpr : CoversValues expr) {begin : Nat} :
    Covers (listLiteral expr begin) Expression.leaves brackets [.value] [.value] := by
  intro o read s h
  have hitems : Covers (commaSeparatedUntil (.punctuation .rbracket) expr)
      (·.flatMap Expression.leaves) (.list :: brackets) [.value] [.value, .value, .call] :=
    (hexpr (by simp)).commaSeparatedUntil (.comma (by simp))
  refine (h.expect (.lbracket (by simp))).bind fun _ s h => ?_
  refine (hitems h).bind fun items s h => ?_
  refine (h.expect .rbracket).bind fun _ s h => ?_
  refine Leads.spanFrom fun span => Leads.pure ?_
  exact h.of_eq (by simp [Expression.leaves, leavesOfList_eq])

theorem covers_bracket (hexpr : CoversValues expr) {begin : Nat} :
    Covers (bracket expr begin) Expression.leaves brackets [.value] [.value] := by
  intro o read s h
  refine Leads.lookAhead ?_
  split
  · exact covers_listComprehension hexpr h
  · split
    · exact covers_patternComprehension hexpr h
    · exact covers_listLiteral hexpr h

theorem covers_caseBranch (hexpr : CoversValues expr)
    (hbrackets : brackets.head? ≠ some .detail) :
    Covers (caseBranch expr) (·.toList.flatMap CaseBranch.leaves) brackets [.value, .call]
      [.value, .call] := by
  intro o read s h
  refine Leads.start fun begin => Leads.consume (fun hdue => ?_) fun _ => ?_
  · refine (hexpr hbrackets (h.advance_nil (.plain rfl (by simp) hdue))).bind
      fun condition s h => ?_
    refine (h.expect (.plain rfl (by simp))).bind fun _ s h => ?_
    refine (hexpr hbrackets h).bind fun result s h => ?_
    refine Leads.spanFrom fun span => Leads.pure ?_
    exact h.of_eq (by simp [CaseBranch.leaves])
  · exact Leads.pure (h.of_eq (List.append_nil read).symm)

theorem covers_caseExpression (hexpr : CoversValues expr)
    (hbrackets : brackets.head? ≠ some .detail) {begin : Nat} :
    Covers (caseExpression expr begin) Expression.leaves brackets [.value] [.value] := by
  intro o read s h
  have hotherwise : Covers (behind (.keyword .ELSE) expr) _ brackets
      [.value, .call] [.value, .call, .value, .call] :=
    .behind (.plain rfl (by simp)) (hexpr hbrackets)
  refine (h.expect (.plain rfl (by simp))).bind fun _ s h => ?_
  refine ((hexpr hbrackets).unlessDue h).bind fun operand s h => ?_
  refine ((covers_caseBranch hexpr hbrackets).many (h.mono (by simp))).bind
    fun branches s h => ?_
  split
  · exact Leads.fail
  · refine (hotherwise h).bind fun otherwise s h => ?_
    refine (h.expect (.plain rfl (by simp))).bind fun _ s h => ?_
    refine Leads.spanFrom fun span => Leads.pure ?_
    exact h.of_eq (by simp [Expression.leaves, leavesOfOption_eq, leavesOfBranches_eq])

theorem leads_existsCall (hexpr : CoversValues expr) {begin : Nat}
    (hdue : s.current.kind = .keyword .EXISTS) (h : At o read brackets [.value] s) :
    Leads (existsCall expr begin) s fun e => At o (read ++ e.leaves) brackets [.value] := by
  have hpasses : Passes s.current brackets [.value] [.name "exists"] brackets .call :=
    .keyword (by simp) hdue fun m hname hentry => by
      simp [Scan.passKeyword, Scan.toMode, hname, hentry]
  exact Leads.advance (leads_callArguments hexpr (h.advance hpasses))

/-! ## Atoms -/

/-- Without recovery an atom is what its first token makes of it. -/
theorem covers_atom (hrecover : config.recover = false) (hexpr : CoversValues expr)
    (hbrackets : brackets.head? ≠ some .detail) :
    Covers (atom config expr) Expression.leaves brackets [.value] [.value, .call] := by
  intro o read s h
  have hconstant {word : Keyword} {v : Literal} (hdue : s.current.kind = .keyword word)
      (hpass : ∀ m text, m ≠ .name → m ≠ .entry →
        (⟨brackets, m⟩ : Scan).passKeyword word text = ([v.leaf], ⟨brackets, .value⟩)) :
      Passes s.current brackets [.value] [v.leaf] brackets .value :=
    .keyword (by simp) hdue fun m => hpass m _
  have hopen {p : Parser Expression}
      (hp : Leads p s fun e => At o (read ++ e.leaves) brackets [.value]) :
      Leads p s fun e => At o (read ++ e.leaves) brackets [.value, .call] :=
    hp.mono fun _ _ h => h.mono (by simp)
  refine Leads.current ?_
  split
  · next hdue => exact hopen (leads_leaf h (.integer hbrackets hdue) fun _ => rfl)
  · next hdue => exact hopen (leads_leaf h (.float hdue) fun _ => rfl)
  · next hdue => exact hopen (leads_leaf h (.string hdue) fun _ => rfl)
  · next hdue =>
    refine hopen (leads_leaf h (hconstant hdue fun m text hname hentry => ?_) fun _ => rfl)
    simp [Scan.passKeyword, Scan.toMode, hname, hentry, Literal.leaf]
  · next hdue =>
    refine hopen (leads_leaf h (hconstant hdue fun m text hname hentry => ?_) fun _ => rfl)
    simp [Scan.passKeyword, Scan.toMode, hname, hentry, Literal.leaf]
  · next hdue =>
    refine hopen (leads_leaf h (hconstant hdue fun m text hname hentry => ?_) fun _ => rfl)
    simp [Scan.passKeyword, Scan.toMode, hname, hentry, Literal.leaf]
  · next hdue => exact hopen (leads_leaf h (.parameter hdue) fun _ => rfl)
  · next hdue =>
    exact hopen (leads_leaf h (.operator (.inl (by simp)) (by simp) hdue) fun _ => rfl)
  · exact hopen (leads_group hexpr h)
  · exact hopen (covers_bracket hexpr h)
  · exact hopen (covers_mapLiteral hexpr h)
  · exact hopen (covers_caseExpression hexpr hbrackets h)
  · next hdue => exact hopen (leads_existsCall hexpr hdue h)
  · next hdue => exact leads_named hexpr hdue h
  · have hstop : recoverExpression config = fail .expectedExpression :=
      if_neg (by rw [hrecover]; exact Bool.false_ne_true)
    rw [hstop]
    exact Leads.fail

/-! ## Suffixes -/

section Suffixes

variable {x : Operand}

theorem leads_grown {tree : Expression} {inner : Nat}
    (h : At o (read ++ tree.leaves) brackets modes s) :
    Leads (grown config x tree inner) s fun r =>
      At o (read ++ r.value.tree.leaves) brackets modes :=
  Leads.checkHeight (Leads.pure h)

theorem leads_propertyAccess (hdue : s.current.kind = .punctuation .dot)
    (h : At o (read ++ x.tree.leaves) brackets modes s) :
    Leads (propertyAccess config x) s fun r =>
      At o (read ++ r.value.tree.leaves) brackets [.call] := by
  refine Leads.advance ?_
  refine (covers_symbolicName _ (h.advance_nil (.dot hdue))).bind fun key s h => ?_
  refine Leads.spanFrom fun span => leads_grown ?_
  exact h.of_eq (by simp [Expression.leaves])

theorem leads_sliceTail (hexpr : CoversValues expr) {lower : Option Expression}
    (h : At o (read ++ (x.tree.leaves ++ leavesOfOption lower)) (.list :: brackets)
      [.value, .call] s) :
    Leads (sliceTail config expr x lower) s fun r =>
      At o (read ++ r.value.tree.leaves) brackets [.value] := by
  have hupper : Covers (unlessDue (.punctuation .rbracket) expr) _ (.list :: brackets)
      [.value] [.value, .value, .call] := (hexpr (by simp)).unlessDue
  refine (h.expect (.operator (.inl (by simp)) (by simp))).bind fun _ s h => ?_
  refine (hupper h).bind fun upper s h => ?_
  refine (h.expect .rbracket).bind fun _ s h => ?_
  refine Leads.spanFrom fun span => leads_grown ?_
  exact h.of_eq (by simp [Expression.leaves, leavesOfOption_eq])

theorem leads_indexTail {position : Expression} {bracket : Bracket}
    (h : At o (read ++ (x.tree.leaves ++ position.leaves)) (bracket :: brackets) modes s) :
    Leads (indexTail config x position) s fun r =>
      At o (read ++ r.value.tree.leaves) brackets [.value] := by
  refine (h.expect .rbracket).bind fun _ s h => ?_
  exact Leads.spanFrom fun span => leads_grown h

theorem leads_subscript (hexpr : CoversValues expr)
    (h : At o (read ++ x.tree.leaves) brackets [.value, .call] s) :
    Leads (subscript config expr x) s fun r =>
      At o (read ++ r.value.tree.leaves) brackets [.value] := by
  have hlower : Covers (unlessDue (.operator .dotDot) expr) _ (.list :: brackets)
      [.value] [.value, .value, .call] := (hexpr (by simp)).unlessDue
  refine (h.expect (.lbracket (by simp))).bind fun _ s h => ?_
  refine (hlower h).bind fun lower s h => Leads.current ?_
  have hbehind : At o (read ++ (x.tree.leaves ++ leavesOfOption lower)) (.list :: brackets)
      [.value, .call] s := (h.mono (by simp)).of_eq (by simp [leavesOfOption_eq])
  split
  · split
    · exact leads_sliceTail hexpr hbehind
    · exact leads_indexTail hbehind
  · exact leads_sliceTail hexpr hbehind

theorem leads_labelCheck (h : At o (read ++ x.tree.leaves) brackets [.value, .call] s) :
    Leads (labelCheck config x) s fun r =>
      At o (read ++ r.value.tree.leaves) brackets [.value, .call] := by
  refine (covers_labelList h).bind fun labels s h => ?_
  refine Leads.spanFrom fun span => leads_grown ?_
  exact h.of_eq (by simp [Expression.leaves])

theorem leads_suffix (hexpr : CoversValues expr)
    (h : At o (read ++ x.tree.leaves) brackets [.value, .call] s) :
    Leads (suffix config expr x) s fun r =>
      At o (read ++ r.value.tree.leaves) brackets [.value, .call] := by
  refine Leads.current ?_
  split
  · next hdue => exact (leads_propertyAccess hdue h).mono fun _ _ h => h.mono (by simp)
  · exact (leads_subscript hexpr h).mono fun _ _ h => h.mono (by simp)
  · refine Leads.lookAhead ?_
    split
    · exact leads_labelCheck h
    · exact Leads.pure h
  · exact Leads.pure h

end Suffixes

/-- An atom is read to its end, and each suffix behind it adds its leaves. -/
theorem covers_operand (hrecover : config.recover = false) (hexpr : CoversValues expr)
    (hbrackets : brackets.head? ≠ some .detail) :
    Covers (operand config expr) (·.tree.leaves) brackets [.value] [.value, .call] := by
  intro o read s h
  refine (covers_atom hrecover hexpr hbrackets h).bind fun tree s h => Leads.checkHeight ?_
  exact Leads.iterate h fun x s h => leads_suffix hexpr h

end Cypher.Grammar
