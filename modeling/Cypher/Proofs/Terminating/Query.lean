import Cypher.Proofs.Continued.Query

/-!
# Progress and termination

The grammar is read by parsers that call one another and by loops, and reading
comes to an end for two reasons. A parser of expressions calls itself only one
level deeper, and there are levels up to the limit only; a loop goes on only
behind a token that it has taken.

No parser goes back or beyond the end of the text, and each is as deep nested
behind its run as it was in front of it, even if it stops with a fault.
-/

namespace Cypher.Grammar

open Token (Kind)

/-! ## Expressions that take no token -/

section Unconsumed

variable {α : Type} {step : α → Parser (ForInStep α)} {a b : α} {s s' : State} {config : Config}
  {expr : Parser Expression} {e : Expression}

/-- A loop that takes no token is over with its first round. -/
theorem round_of_unconsumed (hproceeds : ∀ a, Proceeds (step a)) (hstep : Consumes step)
    (hs : s.Ended) (hrun : iterate step a s = .ok b s')
    (hnone : s.ahead.length ≤ s'.ahead.length) : step a s = .ok (.done b) s' := by
  have hloop := iterate_bind hproceeds hstep hs a pure
  rw [bind_pure, hrun] at hloop
  obtain ⟨r, s₁, hround, hrest⟩ := bind_eq_ok hloop.symm
  cases r with
  | done c =>
    cases hrest
    exact hround
  | yield c =>
    have hlt := hstep _ _ _ _ hs hround
    have hreaches : s₁.Reaches s' := by
      change (iterate step c >>= pure) s₁ = _ at hrest
      rw [bind_pure] at hrest
      exact Proceeds.iterate hproceeds c _ _ _ hrest
    have hle := hreaches.length
    omega

/-- No operator is waiting where no token has been taken. -/
theorem shiftPrefix_of_unconsumed {st shifted : Stacks} (hs : s.Ended)
    (hrun : iterate shiftPrefix st s = .ok shifted s')
    (hnone : s.ahead.length ≤ s'.ahead.length) : shifted = st ∧ s' = s := by
  have hround := round_of_unconsumed proceeds_shiftPrefix consumes_shiftPrefix hs hrun hnone
  cases hlevel : Level.lookup s.current.kind .before with
  | none =>
    rw [shiftPrefix_none hlevel] at hround
    cases hround
    exact ⟨rfl, rfl⟩
  | some level =>
    obtain ⟨op, hop⟩ := exists_prefixOperator hlevel
    rw [shiftPrefix_some hlevel hop] at hround
    cases hround

/-- An operand that takes no token is missing. -/
theorem startsAtom_of_unconsumed {o : Operand} (hexpr : Coincides (fun _ => False) expr expr)
    (hs : s.Ended) (hrun : operand config expr s = .ok o s')
    (hnone : s.ahead.length ≤ s'.ahead.length) : startsAtom s.current.kind = false := by
  have closed := closed_moves config
  rw [← Bool.not_eq_true]
  intro hstarts
  obtain ⟨tree, s₁, hatom, hrest⟩ := bind_eq_ok hrun
  have hlt := taken_of_startsAtom hexpr hs hstarts _ _ hatom
  have hbehind : Moves (checkHeight config tree.height >>= fun _ =>
      iterate (suffix config expr) ⟨tree, tree.height⟩) :=
    .of (closed.next .checkHeight fun _ => closed.iterate (fun _ => closed.suffix hexpr) _)
  have hle := (hbehind.proceeds _ _ _ hrest).length
  omega

/-- A missing operand is got over, or it is not answered. -/
theorem recovers_of_startsAtom {o : Operand} (hlimit : 0 < config.maxDepth) (hs : s.Ended)
    (hatom : startsAtom s.current.kind = false) (hrun : operand config expr s = .ok o s') :
    config.recover = true
      ∧ ∃ passed, o = ⟨.hole (holeSpan s passed), 1⟩ ∧ Recovers s passed s' := by
  cases hrecover : config.recover with
  | false =>
    have hfail : operand config expr s = .error ⟨.expectedExpression, s.current.site⟩ s := by
      unfold operand
      refine bind_error ((atom_eq_recoverExpression hatom).trans ?_)
      unfold recoverExpression
      rw [hrecover]
      rfl
    rw [hfail] at hrun
    cases hrun
  | true =>
    obtain ⟨passed, s₁, hskip, hrecovers⟩ := recovers_skipOperand hs
    have hrecovered : recoverExpression config s = .ok (.hole (holeSpan s passed)) s₁ := by
      unfold recoverExpression
      rw [if_pos hrecover, hskip]
    rw [operand_of_recoverExpression hlimit hatom hrecovered
      (endsExpression_of_halts hrecovers.stopped)] at hrun
    cases hrun
    exact ⟨rfl, passed, rfl, hrecovers⟩

/-- Operands and operators that take no token are one missing operand, which is
got over. -/
theorem operators_of_unconsumed (hexpr : Coincides (fun _ => False) expr expr)
    (hlimit : 0 < config.maxDepth) (hs : s.Ended)
    (hrun : operators config (operand config expr) s = .ok e s')
    (hnone : s.ahead.length ≤ s'.ahead.length) :
    config.recover = true ∧ ∃ passed, Recovers s passed s' := by
  have closed := closed_moves config
  have hoperand : Moves (operand config expr) := .of (closed.operand hexpr)
  have hrounds : ∀ st, Proceeds (round config (operand config expr) st) :=
    proceeds_round hoperand.proceeds
  have hfinish (reached : Stacks) : Moves (finish config reached) := by
    refine .of (closed.bind (closed.checkStacks _) fun _ => ?_)
    split
    · exact closed.step (.pure _)
    · exact closed.recover
  obtain ⟨reached, s₁, hloop, hend⟩ := bind_eq_ok hrun
  have hback := ((hfinish reached).proceeds _ _ _ hend).length
  have hround := round_of_unconsumed hrounds (consumes_round hoperand.proceeds) hs hloop
    (Nat.le_trans hnone hback)
  obtain ⟨shifted, s₂, hshifted, hrest⟩ := bind_eq_ok hround
  obtain ⟨found, s₃, hfound, hrest'⟩ := bind_eq_ok hrest
  have hchecks : Moves (iterate (applyNullCheck config) (shifted.pushOperand found) >>= fun st =>
      shiftInfix config st) :=
    .of (closed.bind (closed.iterate closed.applyNullCheck _) fun _ =>
      closed.shiftInfix Coincides.checkChain _)
  have hback₁ := (hchecks.proceeds _ _ _ hrest').length
  have hback₂ := (hoperand.proceeds _ _ _ hfound).length
  obtain ⟨rfl, rfl⟩ := shiftPrefix_of_unconsumed hs hshifted (by omega)
  have hatom := startsAtom_of_unconsumed hexpr hs hfound (by omega)
  obtain ⟨hrecover, passed, rfl, hrecovers⟩ := recovers_of_startsAtom hlimit hs hatom hfound
  rw [round_of_endsExpression hshifted hfound (endsExpression_of_halts hrecovers.stopped)] at hround
  cases hround
  cases hend
  exact ⟨hrecover, passed, hrecovers⟩

/-- An expression that takes no token is one missing operand, which is got over. -/
theorem expression_of_unconsumed (hs : s.Ended) (hrun : expression config s = .ok e s')
    (hnone : s'.ahead = s.ahead) : config.recover = true ∧ ∃ passed, Recovers s passed s' := by
  have hexpr : Coincides (fun _ => False) (expression config) (expression config) :=
    .of_moves (moves_expression config)
  rw [expression_eq] at hrun
  unfold nested at hrun
  split at hrun
  · next hroom =>
    split at hrun
    · next e' s₁ hinner =>
      cases hrun
      obtain ⟨hrecover, passed, h⟩ := operators_of_unconsumed
        (s := { s with depth := s.depth + 1 }) hexpr (Nat.zero_lt_of_lt hroom) hs hinner
        (Nat.le_of_eq (congrArg List.length hnone.symm))
      have hdepth : s₁.depth - 1 = s.depth := congrArg Nat.pred h.kept.2
      exact ⟨hrecover, passed, h.reported, h.ahead, ⟨h.kept.1, hdepth⟩, h.stopped, h.first,
        h.balanced⟩
    · cases hrun
  · cases hrun

end Unconsumed

/-! ## The productions -/

/-- The productions of the grammar, each with the parser of expressions that it
is given. Those that contain no expression are given one all the same. -/
inductive Production (config : Config) : {α : Type} → (Parser Expression → Parser α) → Prop
  -- names and patterns
  | variableName (role : VariableRole) : Production config fun _ => variableName role
  | symbolicName (role : NameRole) : Production config fun _ => symbolicName role
  | labelList : Production config fun _ => labelList
  | mapEntry : Production config mapEntry
  | mapEntries : Production config mapEntries
  | properties : Production config properties
  | optionalLabels : Production config fun _ => optionalLabels
  | nodePattern : Production config nodePattern
  | hopBound : Production config fun _ => hopBound
  | hopRange : Production config fun _ => hopRange
  | relationshipTypes : Production config fun _ => relationshipTypes
  | detail : Production config detail
  | bracketedDetail : Production config bracketedDetail
  | farEnd (incoming : Bool) : Production config fun _ => farEnd incoming
  | relationshipPattern : Production config relationshipPattern
  | link : Production config link
  | patternChain (name : Option String) (begin : Nat) :
    Production config fun expr => patternChain expr name begin
  | pathName : Production config fun _ => pathName
  | pattern : Production config pattern
  | patternList : Production config patternList
  -- operands
  | callArguments (name : List String) (begin : Nat) :
    Production config fun expr => callArguments expr name begin
  | call (first : String) (begin : Nat) : Production config fun expr => call expr first begin
  | dotSelector (begin : Nat) : Production config fun _ => dotSelector begin
  | variableSelector : Production config fun _ => variableSelector
  | mapSelector : Production config mapSelector
  | mapProjection (name : String) (begin : Nat) :
    Production config fun expr => mapProjection expr name begin
  | named (name : String) (span : Span) : Production config fun expr => named expr name span
  | mapLiteral : Production config mapLiteral
  | parenthesized : Production config parenthesized
  | group (begin : Nat) : Production config fun expr => group expr begin
  | optionalWhere : Production config optionalWhere
  | listComprehension (begin : Nat) : Production config fun expr => listComprehension expr begin
  | patternComprehension (begin : Nat) :
    Production config fun expr => patternComprehension expr begin
  | listLiteral (begin : Nat) : Production config fun expr => listLiteral expr begin
  | bracket (begin : Nat) : Production config fun expr => bracket expr begin
  | caseBranch : Production config caseBranch
  | caseExpression (begin : Nat) : Production config fun expr => caseExpression expr begin
  | existsCall (begin : Nat) : Production config fun expr => existsCall expr begin
  | recoverExpression : Production config fun _ => recoverExpression config
  | atom : Production config (atom config)
  | propertyAccess (o : Operand) : Production config fun _ => propertyAccess config o
  | subscript (o : Operand) : Production config fun expr => subscript config expr o
  | labelCheck (o : Operand) : Production config fun _ => labelCheck config o
  | suffix (o : Operand) : Production config fun expr => suffix config expr o
  | operand : Production config (operand config)
  -- expressions
  | shiftPrefix (st : Stacks) : Production config fun _ => shiftPrefix st
  | applyNullCheck (st : Stacks) : Production config fun _ => applyNullCheck config st
  | shiftInfix (st : Stacks) : Production config fun _ => shiftInfix config st
  | round (st : Stacks) : Production config fun expr => round config (Grammar.operand config expr) st
  | operators : Production config fun expr => operators config (Grammar.operand config expr)
  | nested : Production config fun expr =>
    nested config (Grammar.operators config (Grammar.operand config expr))
  | expression : Production config fun expr => expr
  -- clauses
  | optionalAlias : Production config fun _ => optionalAlias
  | matchClause (kind : MatchKind) (begin : Nat) :
    Production config fun expr => matchClause expr kind begin
  | qualifiedMatch (kind : MatchKind) (begin : Nat) :
    Production config fun expr => qualifiedMatch expr kind begin
  | createClause (begin : Nat) : Production config fun expr => createClause expr begin
  | assignment : Production config fun _ => assignment
  | setItem : Production config setItem
  | setItems : Production config setItems
  | mergeTrigger : Production config fun _ => mergeTrigger
  | mergeAction : Production config mergeAction
  | mergeClause (begin : Nat) : Production config fun expr => mergeClause expr begin
  | setClause (begin : Nat) : Production config fun expr => setClause expr begin
  | deleteClause (detach : Bool) (begin : Nat) :
    Production config fun expr => deleteClause expr detach begin
  | detachClause (begin : Nat) : Production config fun expr => detachClause expr begin
  | removeItem : Production config fun _ => removeItem
  | removeClause (begin : Nat) : Production config fun _ => removeClause begin
  | projectionItem : Production config projectionItem
  | projection : Production config projection
  | withClause (begin : Nat) : Production config fun expr => withClause expr begin
  | returnClause (begin : Nat) : Production config fun expr => returnClause expr begin
  | unwindClause (begin : Nat) : Production config fun expr => unwindClause expr begin
  | sortDirection : Production config fun _ => sortDirection
  | sortItem : Production config sortItem
  | orderClause (begin : Nat) : Production config fun expr => orderClause expr begin
  | skipClause (begin : Nat) : Production config fun expr => skipClause expr begin
  | limitClause (begin : Nat) : Production config fun expr => limitClause expr begin
  | procedureName : Production config fun _ => procedureName
  | procedureArguments : Production config procedureArguments
  | yieldItem : Production config fun _ => yieldItem
  | callClause (begin : Nat) : Production config fun expr => callClause expr begin
  | clause : Production config clause
  -- queries
  | singleQuery : Production config fun _ => singleQuery config
  | version : Production config fun _ => version
  | joinPart (left : Joined) : Production config fun _ => joinPart config left
  | queryBody : Production config fun _ => queryBody config
  | endOfQuery : Production config fun _ => endOfQuery
  | query : Production config fun _ => query config

/-- Every production passes on what is known of its parser of expressions. -/
theorem Production.coincides {config : Config} {α : Type} {P : Parser Expression → Parser α}
    (h : Production config P) {D : Nat → Prop} (hD : ∀ d < config.maxDepth, D d → D (d + 1))
    {expr expr' : Parser Expression} (hexpr : Coincides D expr expr') :
    Coincides D (P expr) (P expr') := by
  have closed : Closed config fun _ p p' => Coincides D p p' := Coincides.closed hD
  have hoperators {operand operand' : Parser Operand} (h : Coincides D operand operand') :=
    closed.operators Coincides.checkChain h
  cases h with
  | variableName => exact closed.step .variableName
  | symbolicName => exact closed.step .symbolicName
  | labelList => exact closed.labelList
  | mapEntry => exact closed.mapEntry hexpr
  | mapEntries => exact closed.mapEntries hexpr
  | properties => exact closed.properties hexpr
  | optionalLabels => exact closed.optionalLabels
  | nodePattern => exact closed.nodePattern hexpr
  | hopBound => exact closed.hopBound
  | hopRange => exact closed.hopRange
  | relationshipTypes => exact closed.relationshipTypes
  | detail => exact closed.detail hexpr
  | bracketedDetail => exact closed.bracketedDetail hexpr
  | farEnd => exact closed.farEnd
  | relationshipPattern => exact closed.relationshipPattern hexpr
  | link => exact closed.link hexpr
  | patternChain => exact closed.patternChain hexpr
  | pathName => exact closed.pathName
  | pattern => exact closed.pattern hexpr
  | patternList => exact closed.patternList hexpr
  | callArguments => exact closed.callArguments hexpr
  | call => exact closed.call hexpr
  | dotSelector => exact closed.dotSelector
  | variableSelector => exact closed.variableSelector
  | mapSelector => exact closed.mapSelector hexpr
  | mapProjection => exact closed.mapProjection hexpr
  | named => exact closed.named hexpr
  | mapLiteral => exact closed.mapLiteral hexpr
  | parenthesized => exact closed.parenthesized hexpr
  | group => exact closed.group hexpr
  | optionalWhere => exact closed.optionalWhere hexpr
  | listComprehension => exact closed.listComprehension hexpr
  | patternComprehension => exact closed.patternComprehension hexpr
  | listLiteral => exact closed.listLiteral hexpr
  | bracket => exact closed.bracket hexpr
  | caseBranch => exact closed.caseBranch hexpr
  | caseExpression => exact closed.caseExpression hexpr
  | existsCall => exact closed.existsCall hexpr
  | recoverExpression => exact closed.recover
  | atom => exact closed.atom hexpr
  | propertyAccess => exact closed.propertyAccess
  | subscript => exact closed.subscript hexpr
  | labelCheck => exact closed.labelCheck
  | suffix => exact closed.suffix hexpr
  | operand => exact closed.operand hexpr
  | shiftPrefix st => exact closed.shiftPrefix st
  | applyNullCheck st => exact closed.applyNullCheck st
  | shiftInfix st => exact closed.shiftInfix Coincides.checkChain st
  | round st => exact closed.round Coincides.checkChain (closed.operand hexpr) st
  | operators => exact hoperators (closed.operand hexpr)
  | nested => exact closed.nested (hoperators (closed.operand hexpr))
  | expression => exact hexpr
  | optionalAlias => exact closed.optionalAlias
  | matchClause => exact closed.matchClause hexpr
  | qualifiedMatch => exact closed.qualifiedMatch hexpr
  | createClause => exact closed.createClause hexpr
  | assignment => exact closed.assignment
  | setItem => exact closed.setItem hexpr
  | setItems => exact closed.setItems hexpr
  | mergeTrigger => exact closed.mergeTrigger
  | mergeAction => exact closed.mergeAction hexpr
  | mergeClause => exact closed.mergeClause hexpr
  | setClause => exact closed.setClause hexpr
  | deleteClause => exact closed.deleteClause hexpr
  | detachClause => exact closed.detachClause hexpr
  | removeItem => exact closed.removeItem
  | removeClause => exact closed.removeClause
  | projectionItem => exact closed.projectionItem hexpr
  | projection => exact closed.projection hexpr
  | withClause => exact closed.withClause hexpr
  | returnClause => exact closed.returnClause hexpr
  | unwindClause => exact closed.unwindClause hexpr
  | sortDirection => exact closed.sortDirection
  | sortItem => exact closed.sortItem hexpr
  | orderClause => exact closed.orderClause hexpr
  | skipClause => exact closed.skipClause hexpr
  | limitClause => exact closed.limitClause hexpr
  | procedureName => exact closed.procedureName
  | procedureArguments => exact closed.procedureArguments hexpr
  | yieldItem => exact closed.yieldItem
  | callClause => exact closed.callClause hexpr
  | clause => exact closed.clause hexpr
  | singleQuery => exact closed.singleQuery hoperators
  | version => exact closed.version
  | joinPart => exact closed.joinPart hoperators
  | queryBody => exact closed.queryBody hoperators
  | endOfQuery => exact closed.endOfQuery
  | query => exact closed.query hoperators

/-! ## The loops -/

/-- The loops that collect answers: clauses, items behind commas, labels, types
and parts of names behind their marks, relationships, actions and branches. -/
inductive Collecting (config : Config) : {α : Type} → Parser (Option α) → Prop
  | clauses : Collecting config (clause (expression config))
  | items {α : Type} {P : Parser Expression → Parser α} (item : Production config P) :
    Collecting config (behind (.punctuation .comma) (P (expression config)))
  | labels : Collecting config (behind (.punctuation .colon) (symbolicName .label))
  | types : Collecting config (behind (.operator .pipe) anotherType)
  | nameParts (role : NameRole) :
    Collecting config (behind (.punctuation .dot) (symbolicName role))
  | links : Collecting config (link (expression config))
  | mergeActions : Collecting config (mergeAction (expression config))
  | caseBranches : Collecting config (caseBranch (expression config))

/-- The loops that carry an answer along: unions, the operators in front of an
operand, the null checks behind it, the rounds up to the next operator between
operands, and the suffixes. -/
inductive Folding (config : Config) : {α : Type} → (α → Parser (ForInStep α)) → Prop
  | unions : Folding config (joinPart config)
  | prefixes : Folding config shiftPrefix
  | nullChecks : Folding config (applyNullCheck config)
  | rounds : Folding config (round config (operand config (expression config)))
  | suffixes : Folding config (suffix config (expression config))

section Loops

variable {config : Config} {α : Type}

theorem Production.moves {P : Parser Expression → Parser α} (h : Production config P) :
    Moves (P (Grammar.expression config)) :=
  .of (h.coincides (fun _ _ h => h) (.of_moves (moves_expression config)))

theorem Collecting.shortens {step : Parser (Option α)} (h : Collecting config step) :
    Shortens step := by
  have closed := closed_moves config
  have hexpr : Coincides (fun _ => False) (expression config) (expression config) :=
    .of_moves (moves_expression config)
  cases h with
  | clauses => exact shortens_clause hexpr
  | items item => exact shortens_behind (by simp) item.moves
  | labels => exact shortens_behind (by simp) (.of (closed.step .symbolicName))
  | types => exact shortens_behind (by simp) (.of closed.anotherType)
  | nameParts role => exact shortens_behind (by simp) (.of (closed.step .symbolicName))
  | links => exact shortens_link hexpr
  | mergeActions => exact shortens_mergeAction hexpr
  | caseBranches => exact shortens_caseBranch hexpr

theorem Folding.proceeds {step : α → Parser (ForInStep α)} (h : Folding config step) (a : α) :
    Proceeds (step a) := by
  have hmoves {P : Parser Expression → Parser (ForInStep α)} (h : Production config P) :
      Proceeds (P (expression config)) := h.moves.proceeds
  cases h with
  | unions => exact hmoves (.joinPart a)
  | prefixes => exact hmoves (.shiftPrefix a)
  | nullChecks => exact hmoves (.applyNullCheck a)
  | rounds => exact hmoves (.round a)
  | suffixes => exact hmoves (.suffix a)

theorem Folding.consumes {step : α → Parser (ForInStep α)} (h : Folding config step) :
    Consumes step := by
  cases h with
  | unions => exact consumes_joinPart config
  | prefixes => exact consumes_shiftPrefix
  | nullChecks => exact consumes_applyNullCheck
  | rounds =>
    have hoperand : Production config (operand config) := .operand
    exact consumes_round hoperand.moves.proceeds
  | suffixes => exact consumes_suffix (.of_moves (moves_expression config))

end Loops

/-! ## Progress -/

/-- Reading makes progress, and so comes to an end.

Nothing is counted down: an expression is read by a parser that calls itself, one
level deeper, and loops come to the end that they would come to without a bound
on their rounds. -/
structure Progressive (config : Config) : Prop where
  /-- An expression is read one level deeper, with expressions inside it. -/
  recursion : ∀ s, expression config s
    = nested config (operators config (operand config (expression config))) s
  /-- Whether it answers or stops, a production leaves an end of what was ahead,
  and the state as deep nested as it was. -/
  moves : ∀ {α : Type} {P : Parser Expression → Parser α}, Production config P → ∀ s,
    (stateOf (P (expression config) s)).ahead <:+ s.ahead
      ∧ (stateOf (P (expression config) s)).eof = s.eof
      ∧ (stateOf (P (expression config) s)).depth = s.depth
  /-- No level is entered that is deeper than the limit: how it would be read there
  makes no difference. -/
  levels : ∀ {α : Type} (p p' : Parser α),
    (∀ s : State, 0 < s.depth → s.depth ≤ config.maxDepth → p s = p' s) →
    nested config p = nested config p'
  /-- So from a state no deeper than the limit, expressions are read in none that is
  deeper. -/
  limit : ∀ {α : Type} {P : Parser Expression → Parser α}, Production config P → ∀ expr,
    (∀ s : State, s.depth ≤ config.maxDepth → expr s = expression config s) →
    ∀ s : State, s.depth ≤ config.maxDepth → P expr s = P (expression config) s
  /-- A round that collects an answer takes a token, and the loop comes to an end. -/
  collects : ∀ {α : Type} {step : Parser (Option α)}, Collecting config step → ∀ s : State,
    s.Ended → (∀ a s', step s = .ok (some a) s' → s'.ahead.length < s.ahead.length)
      ∧ Collects step s (many step s)
  /-- A round that goes on takes a token, and the loop comes to an end. -/
  folds : ∀ {α : Type} {step : α → Parser (ForInStep α)}, Folding config step → ∀ (s : State) a,
    s.Ended → (∀ b s', step a s = .ok (.yield b) s' → s'.ahead.length < s.ahead.length)
      ∧ Folds step a s (iterate step a s)
  /-- An expression that takes no token is one missing operand: it is got over,
  and one fault is put on record, at the token due. -/
  unconsumed : ∀ {s : State} {e s'}, s.Ended → expression config s = .ok e s' →
    s'.ahead = s.ahead → config.recover = true
      ∧ ∃ f, s'.faults = s.faults ++ [f] ∧ f.cause.code = "P001" ∧ f.site = s.current.site

/-- Whatever the limit is, and whether operands are got over or not. -/
theorem progressive (config : Config) : Progressive config where
  recursion := expression_eq config
  moves h s :=
    have hadvances := h.moves s
    ⟨hadvances.ahead, hadvances.eof, hadvances.depth⟩
  levels p p' h := by
    funext s
    unfold nested
    split
    · next hroom => rw [h { s with depth := s.depth + 1 } (Nat.succ_pos _) hroom]
    · rfl
  limit {_ P} h expr hexpr s hs := by
    have hsame : Coincides (fun d => d ≤ config.maxDepth) (expression config) expr :=
      ⟨moves_expression config, fun s hs => (hexpr s hs).symm⟩
    have hwhole : Coincides (fun d => d ≤ config.maxDepth) (P (expression config)) (P expr) :=
      h.coincides (fun _ hd _ => hd) hsame
    exact (hwhole.same s hs).symm
  collects h s hs :=
    ⟨fun a s' hrun => (h.shortens s a s' hs hrun).2, collects_many h.shortens hs⟩
  folds h s a hs :=
    ⟨fun b s' hrun => h.consumes s a b s' hs hrun, folds_iterate h.proceeds h.consumes hs a⟩
  unconsumed hs hrun hnone := by
    obtain ⟨hrecover, _, h⟩ := expression_of_unconsumed hs hrun hnone
    exact ⟨hrecover, h.reported⟩

end Cypher.Grammar
