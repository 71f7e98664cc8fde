import Cypher.Proofs.Recovery
import Cypher.Proofs.Terminating.Depth

/-!
# Loops without a bound

Every loop of the grammar is given a bound on its rounds, one more than there
are tokens ahead. A round that goes on takes a token, so the bound is never met:
the loop comes to the end that it would come to without one, and it comes to
one.

An expression may be read without a token being taken, where an operand is
missing. So it is never the expression in a round that the loop relies on, but
the token in front of it.
-/

namespace Cypher.Grammar

open Token (Kind)

/-! ## Loops that come to an end -/

/-- A loop that collects answers comes to this end, whatever the number of its
rounds. -/
inductive Collects (step : Parser (Option α)) :
    State → EStateM.Result Fault State (List α) → Prop
  | done {s s' : State} (last : step s = .ok none s') : Collects step s (.ok [] s')
  | stopped {s s' : State} {fault : Fault} (stops : step s = .error fault s') :
    Collects step s (.error fault s')
  | more {s s' s'' : State} {a : α} {as : List α} (round : step s = .ok (some a) s')
    (rest : Collects step s' (.ok as s'')) : Collects step s (.ok (a :: as) s'')
  | stoppedLater {s s' s'' : State} {a : α} {fault : Fault} (round : step s = .ok (some a) s')
    (rest : Collects step s' (.error fault s'')) : Collects step s (.error fault s'')

/-- A loop that carries an answer along comes to this end, whatever the number of
its rounds. -/
inductive Folds (step : α → Parser (ForInStep α)) :
    α → State → EStateM.Result Fault State α → Prop
  | done {a b : α} {s s' : State} (last : step a s = .ok (.done b) s') : Folds step a s (.ok b s')
  | stopped {a : α} {s s' : State} {fault : Fault} (stops : step a s = .error fault s') :
    Folds step a s (.error fault s')
  | more {a b : α} {s s' : State} {r : EStateM.Result Fault State α}
    (round : step a s = .ok (.yield b) s') (rest : Folds step b s' r) : Folds step a s r

/-- A round that reads something takes a token. -/
def Shortens (step : Parser (Option α)) : Prop :=
  ∀ s a s', s.Ended → step s = .ok (some a) s' → s'.Ended ∧ s'.ahead.length < s.ahead.length

section Bounds

variable {α : Type} {s s' : State}

/-- The bound on the rounds does not matter. -/
theorem manyUpTo_congr {step : Parser (Option α)} (hstep : Shortens step) {m m' : Nat}
    (hs : s.Ended) (hm : s.ahead.length < m) (hm' : s.ahead.length < m') :
    manyUpTo step m s = manyUpTo step m' s := by
  induction m generalizing s m' with
  | zero => omega
  | succ m ih =>
    obtain ⟨m', rfl⟩ : ∃ k, m' = k + 1 := ⟨m' - 1, by omega⟩
    unfold manyUpTo
    cases hround : step s with
    | error fault s₁ => rw [bind_error hround, bind_error hround]
    | ok r s₁ =>
      rw [bind_ok hround, bind_ok hround]
      cases r with
      | none => rfl
      | some a =>
        obtain ⟨hs₁, hlt⟩ := hstep s a s₁ hs hround
        exact bind_congr_left (ih hs₁ (by omega) (by omega))

/-- A loop is a round, and the loop again if the round reads something. -/
theorem many_eq {step : Parser (Option α)} (hstep : Shortens step) (hs : s.Ended) {r : Option α}
    (hround : step s = .ok r s') :
    many step s = (match r with
      | none => pure []
      | some a => many step >>= fun as => pure (a :: as) : Parser (List α)) s' := by
  have hunfold : many step s = manyUpTo step (s.ahead.length + 1) s := rfl
  rw [hunfold, manyUpTo, bind_ok hround]
  cases r with
  | none => rfl
  | some a =>
    obtain ⟨hs', hlt⟩ := hstep s a s' hs hround
    exact bind_congr_left (manyUpTo_congr hstep hs' hlt (Nat.lt_succ_self _))

theorem collects_many {step : Parser (Option α)} (hstep : Shortens step) (hs : s.Ended) :
    Collects step s (many step s) := by
  induction hlength : s.ahead.length using Nat.strong_induction_on generalizing s with
  | _ n ih =>
    cases hround : step s with
    | error fault s₁ =>
      have hunfold : many step s = manyUpTo step (s.ahead.length + 1) s := rfl
      rw [hunfold, manyUpTo, bind_error hround]
      exact .stopped hround
    | ok r s₁ =>
      rw [many_eq hstep hs hround]
      cases r with
      | none => exact .done hround
      | some a =>
        obtain ⟨hs₁, hlt⟩ := hstep s a s₁ hs hround
        have hrest := ih _ (hlength ▸ hlt) hs₁ rfl
        cases hrun : many step s₁ with
        | error fault s₂ =>
          rw [hrun] at hrest
          dsimp only
          rw [bind_error hrun]
          exact .stoppedLater hround hrest
        | ok as s₂ =>
          rw [hrun] at hrest
          dsimp only
          rw [bind_ok hrun]
          exact .more hround hrest

theorem folds_iterate {step : α → Parser (ForInStep α)} (hproceeds : ∀ a, Proceeds (step a))
    (hstep : Consumes step) (hs : s.Ended) (a : α) : Folds step a s (iterate step a s) := by
  induction hlength : s.ahead.length using Nat.strong_induction_on generalizing s a with
  | _ n ih =>
    have hloop := iterate_bind hproceeds hstep hs a pure
    rw [bind_pure] at hloop
    rw [hloop]
    cases hround : step a s with
    | error fault s₁ =>
      rw [bind_error hround]
      exact .stopped hround
    | ok r s₁ =>
      rw [bind_ok hround]
      cases r with
      | done b => exact .done hround
      | yield b =>
        have hlt := hstep _ _ _ _ hs hround
        have hs₁ := (hproceeds a _ _ _ hround).ended hs
        show Folds step a s ((iterate step b >>= pure) s₁)
        rw [bind_pure]
        exact .more hround (ih _ (hlength ▸ hlt) hs₁ b rfl)

end Bounds

/-! ## Parsers that take a token -/

/-- Whatever the parser answers, it has taken a token. -/
def Takes (p : Parser α) : Prop :=
  ∀ s : State, s.Ended → Leads p s fun _ s' => s'.ahead.length < s.ahead.length

section Takes

variable {α β : Type} {p : Parser α} {f : α → Parser β} {s : State} {kind : Kind}

/-- What is read behind a token that is due leaves fewer ahead. -/
theorem Moves.taken (h : Moves p) (hs : s.Ended) (hkind : s.current.kind ≠ .eof) :
    Leads p s.advance fun _ s' => s'.ahead.length < s.ahead.length :=
  (h.leads s.advance).mono fun _ _ hadvances =>
    Nat.lt_of_le_of_lt hadvances.ahead.length_le (s.length_advance hs hkind)

theorem Takes.bind (hp : Takes p) (hf : ∀ a, Moves (f a)) : Takes (p >>= f) := fun s hs =>
  (hp s hs).bind fun a s' hlt => ((hf a).leads s').mono fun _ _ hadvances =>
    Nat.lt_of_le_of_lt hadvances.ahead.length_le hlt

theorem takes_expect {f : Unit → Parser β} (hkind : kind ≠ .eof) (hf : Moves (f ())) :
    Takes (expect kind >>= f) :=
  fun _ hs => Leads.expect fun hdue => hf.taken hs (hdue ▸ hkind)

/-- A round takes a token if it reads something only behind one. -/
theorem shortens_of_moves {step : Parser (Option α)} (h : Moves step)
    (hstep : ∀ s : State, s.Ended →
      Leads step s fun o s' => o ≠ none → s'.ahead.length < s.ahead.length) : Shortens step :=
  fun s _ s' hs hrun => ⟨(h.proceeds s _ s' hrun).ended hs, hstep s hs _ s' hrun nofun⟩

theorem shortens_behind (hkind : kind ≠ .eof) (hp : Moves p) : Shortens (behind kind p) := by
  have hclosed : Closed {} fun _ p p' => Coincides (fun _ => False) p p' :=
    Coincides.closed fun _ _ h => h
  refine shortens_of_moves (hclosed.behind (.of_moves hp)).moves fun s hs => ?_
  refine Leads.consume (fun hdue => ?_) fun _ => Leads.pure fun h => absurd rfl h
  have hsome : Moves (p >>= fun a => pure (some a)) := (hclosed.map (.of_moves hp) _).moves
  exact (hsome.taken hs (hdue ▸ hkind)).mono fun _ _ h _ => h

/-- What a loop has collected takes as many tokens at least. -/
theorem taken_of_many {step : Parser (Option α)} (hmoves : Moves (many step))
    (hstep : Shortens step) (hs : s.Ended) :
    Leads (many step) s fun as s' => as ≠ [] → s'.ahead.length < s.ahead.length := by
  intro as s' hrun hne
  cases hround : step s with
  | error fault s₁ =>
    have hunfold : many step s = manyUpTo step (s.ahead.length + 1) s := rfl
    rw [hunfold, manyUpTo, bind_error hround] at hrun
    cases hrun
  | ok r s₁ =>
    rw [many_eq hstep hs hround] at hrun
    cases r with
    | none =>
      cases hrun
      exact absurd rfl hne
    | some a =>
      obtain ⟨as', s₂, hrest, hlast⟩ := bind_eq_ok hrun
      cases hlast
      exact Nat.lt_of_le_of_lt (hmoves.proceeds _ _ _ hrest).length (hstep _ _ _ hs hround).2

end Takes

/-! ## The loops of the grammar -/

section Grammar

variable {config : Config} {expr : Parser Expression} {s : State}

/-- What every production keeps: it only moves on. -/
theorem closed_moves (config : Config) :
    Closed config fun _ p p' => Coincides (fun _ => False) p p' :=
  Coincides.closed fun _ _ h => h

theorem Moves.of {α : Type} {p : Parser α} (h : Coincides (fun _ => False) p p) : Moves p := h.moves

/-- Labels are never none, and each has a colon of its own. -/
theorem takes_labelList : Takes labelList := by
  intro s hs
  have closed := closed_moves {}
  have hname : Moves (symbolicName .label) := .of (closed.step .symbolicName)
  have hshortens : Shortens (behind (.punctuation .colon) (symbolicName .label)) :=
    shortens_behind (by simp) hname
  have hmoves : Moves (many (behind (.punctuation .colon) (symbolicName .label))) :=
    .of (closed.many (closed.behind (.of_moves hname)))
  refine (taken_of_many hmoves hshortens hs).bind fun labels s' h => ?_
  split
  · exact Leads.fail
  · next hne => exact Leads.pure (h fun hnil => hne (by rw [hnil]; rfl))

section Expressions

variable (hexpr : Coincides (fun _ => False) expr expr)

include hexpr

theorem takes_mapEntries : Takes (mapEntries expr) := by
  intro s hs
  have closed := closed_moves {}
  refine Leads.start fun begin => takes_expect (by simp) (.of ?_) s hs
  exact closed.bind (closed.commaSeparatedUntil (closed.mapEntry hexpr)) fun _ =>
    closed.next .expect fun _ => closed.spanned begin _

theorem takes_nodePattern : Takes (nodePattern expr) := by
  intro s hs
  have closed := closed_moves {}
  refine Leads.start fun begin => takes_expect (by simp) (.of ?_) s hs
  exact closed.next .optionalVariable fun _ =>
    closed.bind closed.optionalLabels fun _ =>
    closed.bind (closed.properties hexpr) fun _ =>
    closed.next .expect fun _ => closed.spanned begin _

theorem takes_patternChain (name : Option String) (begin : Nat) :
    Takes (patternChain expr name begin) := by
  have closed := closed_moves {}
  refine (takes_nodePattern hexpr).bind fun first => .of ?_
  exact closed.bind (closed.many (closed.link hexpr)) fun _ => closed.spanned begin _

theorem takes_relationshipPattern : Takes (relationshipPattern expr) := by
  intro s hs
  have closed := closed_moves {}
  refine Leads.start fun begin => ?_
  have hbehind (incoming : Bool) : Takes (expect (.operator .minus) >>= fun _ =>
      bracketedDetail expr >>= fun found => farEnd incoming >>= fun direction =>
      spanFrom begin >>= fun span => pure (⟨direction, found.name, found.types, found.hops,
        found.properties, span⟩ : RelationshipPattern)) :=
    takes_expect (by simp) (.of (closed.bind (closed.bracketedDetail hexpr) fun _ =>
      closed.bind closed.farEnd fun _ => closed.spanned begin _))
  refine Leads.consume (fun hdue => ?_) fun _ => hbehind false s hs
  have hreaches := State.Reaches.advance s
  exact (hbehind true s.advance (hreaches.ended hs)).mono fun _ _ h =>
    Nat.lt_of_lt_of_le h hreaches.length

theorem takes_parenthesized : Takes (parenthesized expr) := by
  have closed := closed_moves {}
  refine takes_expect (by simp) (.of ?_)
  exact closed.bind hexpr fun _ => closed.next .expect fun _ => closed.step (.pure _)

theorem takes_group (begin : Nat) : Takes (group expr begin) := by
  intro s hs
  refine Leads.lookAhead ?_
  split
  · exact (takes_patternChain hexpr none begin).bind (fun _ => .of ((closed_moves {}).step (.pure _)))
      s hs
  · exact takes_parenthesized hexpr s hs

theorem takes_listComprehension (begin : Nat) : Takes (listComprehension expr begin) := by
  have closed := closed_moves {}
  refine takes_expect (by simp) (.of ?_)
  exact closed.next .variableName fun _ =>
    closed.next .expect fun _ =>
    closed.bind hexpr fun _ =>
    closed.bind (closed.optionalWhere hexpr) fun _ =>
    closed.bind (closed.behind hexpr) fun _ =>
    closed.next .expect fun _ => closed.spanned begin _

theorem takes_patternComprehension (begin : Nat) : Takes (patternComprehension expr begin) := by
  have closed := closed_moves {}
  refine takes_expect (by simp) (.of ?_)
  exact closed.bind (closed.pattern hexpr) fun _ =>
    closed.bind (closed.optionalWhere hexpr) fun _ =>
    closed.next .expect fun _ =>
    closed.bind hexpr fun _ =>
    closed.next .expect fun _ => closed.spanned begin _

theorem takes_listLiteral (begin : Nat) : Takes (listLiteral expr begin) := by
  have closed := closed_moves {}
  refine takes_expect (by simp) (.of ?_)
  exact closed.bind (closed.commaSeparatedUntil hexpr) fun _ =>
    closed.next .expect fun _ => closed.spanned begin _

theorem takes_bracket (begin : Nat) : Takes (bracket expr begin) := by
  intro s hs
  refine Leads.lookAhead ?_
  split
  · exact takes_listComprehension hexpr begin s hs
  · split
    · exact takes_patternComprehension hexpr begin s hs
    · exact takes_listLiteral hexpr begin s hs

theorem takes_caseExpression (begin : Nat) : Takes (caseExpression expr begin) := by
  have closed := closed_moves {}
  refine takes_expect (by simp) (.of ?_)
  apply closed.bind (closed.unlessDue hexpr)
  intro operand
  apply closed.bind (closed.many (closed.caseBranch hexpr))
  intro branches
  split
  · exact closed.step (.fail trivial)
  · exact closed.bind (closed.behind hexpr) fun _ =>
      closed.next .expect fun _ => closed.spanned begin _

/-- An atom takes the token that it starts with. -/
theorem taken_of_startsAtom (hs : s.Ended) (h : startsAtom s.current.kind = true) :
    Leads (atom config expr) s fun _ s' => s'.ahead.length < s.ahead.length := by
  have closed := closed_moves {}
  have hkind : s.current.kind ≠ .eof := fun heof => by rw [heof] at h; cases h
  have hleaf (make : Span → Expression) :
      Leads (leaf make) s fun _ s' => s'.ahead.length < s.ahead.length :=
    Leads.current (Leads.advance (Leads.pure (s.length_advance hs hkind)))
  refine Leads.current ?_
  split
  case h_9 => exact takes_group hexpr _ s hs
  case h_10 => exact takes_bracket hexpr _ s hs
  case h_11 =>
    exact (takes_mapEntries hexpr).bind (fun _ => .of (closed.step (.pure _))) s hs
  case h_12 => exact takes_caseExpression hexpr _ s hs
  case h_13 => exact Leads.advance ((Moves.of (closed.callArguments hexpr)).taken hs hkind)
  case h_14 =>
    refine Leads.lookAhead ?_
    split
    · refine Leads.advance (Moves.taken (.of ?_) hs hkind)
      exact closed.bind (closed.many (closed.behind (closed.step .symbolicName))) fun _ =>
        closed.callArguments hexpr
    · refine Leads.advance (Moves.taken (.of (closed.next .current fun t => ?_)) hs hkind)
      split
      · exact closed.mapProjection hexpr
      · exact closed.step (.pure _)
  case h_15 hother =>
    refine absurd h ?_
    unfold startsAtom
    split <;> simp_all
  all_goals exact hleaf _

end Expressions

/-! ### Rounds that go on -/

section Rounds

variable (hexpr : Coincides (fun _ => False) expr expr)

include hexpr

theorem shortens_link : Shortens (link expr) := by
  have closed := closed_moves {}
  refine shortens_of_moves (.of (closed.link hexpr)) fun s hs => Leads.lookAhead ?_
  split
  · refine ((takes_relationshipPattern hexpr).bind (fun _ => .of ?_) s hs).mono fun _ _ h _ => h
    exact closed.bind (closed.nodePattern hexpr) fun _ => closed.step (.pure _)
  · exact Leads.pure fun h => absurd rfl h

theorem shortens_mergeAction : Shortens (mergeAction expr) := by
  have closed := closed_moves {}
  refine shortens_of_moves (.of (closed.mergeAction hexpr)) fun s hs => Leads.start fun begin => ?_
  refine Leads.consume (fun hdue => ?_) fun _ => Leads.pure fun h => absurd rfl h
  have hbehind : Moves (mergeTrigger >>= fun trigger => expect (.keyword .SET) >>= fun _ =>
      setItems expr >>= fun items => spanFrom begin >>= fun span =>
      pure (some (⟨trigger, items, span⟩ : MergeAction))) :=
    .of (closed.bind closed.mergeTrigger fun _ => closed.next .expect fun _ =>
      closed.bind (closed.setItems hexpr) fun _ => closed.spanned begin _)
  exact (hbehind.taken hs (hdue ▸ by simp)).mono fun _ _ h _ => h

theorem shortens_caseBranch : Shortens (caseBranch expr) := by
  have closed := closed_moves {}
  refine shortens_of_moves (.of (closed.caseBranch hexpr)) fun s hs => Leads.start fun begin => ?_
  refine Leads.consume (fun hdue => ?_) fun _ => Leads.pure fun h => absurd rfl h
  have hbehind : Moves (expr >>= fun condition => expect (.keyword .THEN) >>= fun _ =>
      expr >>= fun result => spanFrom begin >>= fun span =>
      pure (some (⟨condition, result, span⟩ : CaseBranch))) :=
    .of (closed.bind hexpr fun _ => closed.next .expect fun _ =>
      closed.bind hexpr fun _ => closed.spanned begin _)
  exact (hbehind.taken hs (hdue ▸ by simp)).mono fun _ _ h _ => h

theorem shortens_clause : Shortens (clause expr) := by
  have closed := closed_moves {}
  refine shortens_of_moves (.of (closed.clause hexpr)) fun s hs => Leads.current ?_
  split
  · next word hword =>
    rcases closed.clauseBehind hexpr word s.current.span.start with
      ⟨hnone, -⟩ | ⟨rest, rest', hrest, hrest', hmoves⟩
    · rw [hnone]
      exact Leads.pure fun h => absurd rfl h
    · rw [hrest]
      refine Leads.advance ?_
      have hbehind : Moves (rest >>= fun c => pure (some c)) :=
        (closed.map hmoves some).moves
      exact (hbehind.taken hs (hword ▸ by simp)).mono fun _ _ h _ => h
  · exact Leads.pure fun h => absurd rfl h

theorem consumes_suffix : Consumes (suffix config expr) := by
  have closed := closed_moves config
  have hdone {s : State} {o : Operand} : Leads (pure (.done o) : Parser (ForInStep Operand)) s
      fun r s' => ∀ b, r = .yield b → s'.ahead.length < s.ahead.length :=
    Leads.pure fun _ h => by cases h
  have hsuffix (o : Operand) (s : State) (hs : s.Ended) : Leads (suffix config expr o) s
      fun r s' => ∀ b, r = .yield b → s'.ahead.length < s.ahead.length := by
    refine Leads.current ?_
    split
    · next hkind =>
      refine Leads.advance ((Moves.taken (.of ?_) hs (hkind ▸ by simp)).mono fun _ _ h _ _ => h)
      exact closed.next .symbolicName fun _ => closed.next (.spanFrom _) fun _ => closed.grown
    · have hsubscript : Takes (subscript config expr o) := by
        refine takes_expect (by simp) (.of (closed.bind (closed.unlessDue hexpr) fun lower =>
          closed.next .current fun t => ?_))
        cases lower with
        | none => exact closed.sliceTail hexpr
        | some position =>
          dsimp only
          split
          · exact closed.sliceTail hexpr
          · exact closed.indexTail
      exact (hsubscript s hs).mono fun _ _ h _ _ => h
    · refine Leads.lookAhead ?_
      split
      · have hlabels : Takes (labelCheck config o) := takes_labelList.bind fun _ =>
          .of (closed.next (.spanFrom _) fun _ => closed.grown)
        exact (hlabels s hs).mono fun _ _ h _ _ => h
      · exact hdone
    · exact hdone
  intro s o o' s' hs hrun
  exact hsuffix o s hs _ _ hrun o' rfl

end Rounds

end Grammar

end Cypher.Grammar
