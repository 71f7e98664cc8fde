import Cypher.Proofs.Climbing.Operators
import Cypher.Proofs.Reading.Head

/-!
# Where a missing operand is got over

Where no operand can be read, tokens are passed over up to one at which the
expression ends: the end of the text anywhere, or a token that ends every
expression, once as many brackets have been closed as were opened on the way.
It is the first such token, and no bracket is closed on the way that was not
opened there.

The tokens that end an expression are none that a loop around an operand goes
on with. So nothing is read behind a hole, and it is the last operand of the
expression it stands in.
-/

namespace Cypher.Grammar

open Token (Kind)

/-! ## Brackets on the way -/

/-- Whether a token opens a bracket, of any shape. -/
def opens : Kind → Bool
  | .punctuation .lparen | .punctuation .lbracket | .punctuation .lbrace => true
  | _ => false

/-- Whether a token closes a bracket, of any shape. -/
def closes : Kind → Bool
  | .punctuation .rparen | .punctuation .rbracket | .punctuation .rbrace => true
  | _ => false

/-- The number of brackets that the tokens open. -/
def openings (tokens : List Token) : Nat := tokens.countP fun t => opens t.kind

/-- The number of brackets that the tokens close. -/
def closings (tokens : List Token) : Nat := tokens.countP fun t => closes t.kind

/-- The expression ends at a token, behind `passed` and inside `nesting` brackets
that were open before. -/
def Halts (nesting : Nat) (passed : List Token) (t : Token) : Prop :=
  t.kind = .eof ∨ endsExpression t.kind = true ∧ openings passed + nesting = closings passed

/-- The tokens are passed over, and the expression ends at the head of what is
left, if there is any. -/
structure Skips (nesting : Nat) (passed rest : List Token) : Prop where
  first : ∀ front t back, passed = front ++ t :: back → ¬ Halts nesting front t
  balanced : ∀ front, front <+: passed → closings front ≤ openings front + nesting
  stopped : ∀ t, rest.head? = some t → Halts nesting passed t

section Skipping

variable {nesting : Nat} {t : Token} {passed rest : List Token}

theorem endsExpression_of_closes {kind : Kind} (h : closes kind = true) :
    endsExpression kind = true := by
  unfold closes at h
  split at h <;> first | rfl | cases h

theorem endsExpression_of_halts (h : Halts nesting passed t) : endsExpression t.kind = true := by
  rcases h with h | h
  · rw [h]
    rfl
  · exact h.1

theorem nestingAfter_eq (nesting : Nat) (kind : Kind) :
    nestingAfter nesting kind
      = nesting + (if opens kind = true then 1 else 0) - (if closes kind = true then 1 else 0) := by
  cases kind with
  | punctuation mark => cases mark <;> rfl
  | _ => rfl

/-- A token that does not end the expression closes no bracket that is not open. -/
theorem openings_add_nestingAfter (h : ¬ Halts nesting [] t) (tokens : List Token) :
    openings (t :: tokens) + nesting + closings tokens
      = openings tokens + nestingAfter nesting t.kind + closings (t :: tokens) := by
  have hopen (hcloses : closes t.kind = true) : 0 < nesting := by
    refine Nat.pos_of_ne_zero fun hzero => h (.inr ⟨endsExpression_of_closes hcloses, ?_⟩)
    rw [hzero]
    rfl
  rw [nestingAfter_eq]
  unfold openings closings
  rw [List.countP_cons, List.countP_cons]
  by_cases hcloses : closes t.kind = true
  · have hpos := hopen hcloses
    rw [if_pos hcloses]
    omega
  · rw [if_neg hcloses]
    omega

/-- The halts behind a token that was passed are those behind the tokens after it,
with the brackets counted that are open by then. -/
theorem halts_cons (h : ¬ Halts nesting [] t) (u : Token) :
    Halts nesting (t :: passed) u ↔ Halts (nestingAfter nesting t.kind) passed u := by
  have hcount := openings_add_nestingAfter h passed
  unfold Halts
  constructor
  all_goals
    rintro (heof | ⟨hends, heq⟩)
    · exact .inl heof
    · exact .inr ⟨hends, by omega⟩

/-- As many tokens are passed over as are counted. -/
theorem skips_skipLength (nesting : Nat) (tokens : List Token) :
    skipLength nesting tokens ≤ tokens.length
      ∧ Skips nesting (tokens.take (skipLength nesting tokens))
          (tokens.drop (skipLength nesting tokens)) := by
  induction tokens generalizing nesting with
  | nil => exact ⟨Nat.le_refl _, by simp, by simp [closings], by simp⟩
  | cons t rest ih =>
    unfold skipLength
    split
    · next hhalts =>
      refine ⟨Nat.zero_le _, by simp, by simp [closings], fun u hu => ?_⟩
      obtain rfl : t = u := Option.some.inj hu
      refine hhalts.imp_right fun h => ⟨h.2, ?_⟩
      rw [h.1]
      rfl
    · next hpasses =>
      have hgoes : ¬ Halts nesting [] t := by
        refine fun h => hpasses (h.imp_right fun h => ⟨?_, h.1⟩)
        exact (Nat.zero_add nesting).symm.trans h.2
      obtain ⟨hlength, hskips⟩ := ih (nestingAfter nesting t.kind)
      refine ⟨Nat.succ_le_succ hlength, fun front u back hpassed => ?_, fun front hfront => ?_,
        fun u hu => (halts_cons hgoes u).2 (hskips.stopped u hu)⟩
      · cases front with
        | nil =>
          rw [List.take_succ_cons] at hpassed
          obtain rfl : t = u := (List.cons.inj hpassed).1
          exact hgoes
        | cons v front =>
          rw [List.take_succ_cons, List.cons_append] at hpassed
          obtain ⟨rfl, htail⟩ := List.cons.inj hpassed
          exact fun h => hskips.first front u back htail ((halts_cons hgoes u).1 h)
      · cases front with
        | nil => exact Nat.zero_le _
        | cons v front =>
          rw [List.take_succ_cons] at hfront
          obtain ⟨rfl, htail⟩ := List.cons_prefix_cons.1 hfront
          have hcount := openings_add_nestingAfter hgoes front
          have hbalanced := hskips.balanced front htail
          omega

end Skipping

/-! ## The hole and the state behind it -/

/-- Behind as many tokens as there are, those are passed and nothing else has changed. -/
theorem State.advanceBy_eq (s : State) {n : Nat} (h : n ≤ s.ahead.length) :
    s.advanceBy n = { s with
      previous := (s.ahead.take n).getLast?.or s.previous, ahead := s.ahead.drop n } := by
  induction n generalizing s with
  | zero => rfl
  | succ n ih =>
    obtain ⟨previous, ahead, eof, depth, faults⟩ := s
    cases ahead with
    | nil => cases h
    | cons t rest =>
      rw [State.advanceBy]
      refine (ih ⟨some t, rest, eof, depth, faults⟩ (Nat.le_of_succ_le_succ h)).trans ?_
      simp only [List.take_succ_cons, List.drop_succ_cons, State.mk.injEq, and_true]
      cases hlast : (rest.take n).getLast? with
      | none =>
        rw [List.getLast?_eq_none_iff.1 hlast]
        rfl
      | some u =>
        rw [List.getLast?_cons, hlast]
        rfl

/-- The place of a hole: from where the token due at `s` starts to where the
last one passed stops. -/
def holeSpan (s : State) (passed : List Token) : Span :=
  ⟨s.current.span.start, (passed.getLast?.map fun t => t.span.stop).getD s.current.span.start⟩

/-- What getting over an operand does: one fault is put on record for the token
due at `s`, and the tokens are passed up to the first at which the expression
ends. -/
structure Recovers (s : State) (passed : List Token) (s' : State) : Prop where
  reported : ∃ f, s'.faults = s.faults ++ [f] ∧ f.cause.code = "P001" ∧ f.site = s.current.site
  ahead : s.ahead = passed ++ s'.ahead
  kept : s'.eof = s.eof ∧ s'.depth = s.depth
  stopped : Halts 0 passed s'.current
  first : ∀ front t back, passed = front ++ t :: back → ¬ Halts 0 front t
  balanced : ∀ front, front <+: passed → closings front ≤ openings front

theorem recovers_skipOperand {s : State} (hs : s.Ended) :
    ∃ passed s', skipOperand s = .ok (.hole (holeSpan s passed)) s' ∧ Recovers s passed s' := by
  obtain ⟨hlength, hskips⟩ := skips_skipLength 0 s.ahead
  let recorded : State := { s with faults := s.faults ++ [⟨.expectedExpression, s.current.site⟩] }
  have hstate := recorded.advanceBy_eq hlength
  generalize hpassed : s.ahead.take (skipLength 0 s.ahead) = passed at hskips
  have hspan : (⟨s.current.span.start, if skipLength 0 s.ahead = 0 then s.current.span.start
      else (recorded.advanceBy (skipLength 0 s.ahead)).stop⟩ : Span) = holeSpan s passed := by
    unfold holeSpan
    congr 1
    split
    · next hnone =>
      rw [← hpassed, hnone]
      rfl
    · next hsome =>
      have hne : passed ≠ [] := by
        rintro rfl
        have hzero := congrArg List.length hpassed
        rw [List.length_take, Nat.min_eq_left hlength] at hzero
        exact hsome hzero
      rw [hstate]
      show (((s.ahead.take (skipLength 0 s.ahead)).getLast?.or s.previous).getD _).span.stop = _
      rw [hpassed, List.getLast?_eq_some_getLast hne]
      rfl
  refine ⟨passed, recorded.advanceBy (skipLength 0 s.ahead), ?_, ?_, ?_, ?_, ?_, hskips.first,
    hskips.balanced⟩
  · rw [← hspan]
    rfl
  · exact ⟨_, State.faults_advanceBy _ _, rfl, rfl⟩
  · rw [hstate, ← hpassed]
    exact (List.take_append_drop _ _).symm
  · rw [hstate]
    exact ⟨rfl, rfl⟩
  · rw [hstate]
    show Halts 0 passed ((s.ahead.drop (skipLength 0 s.ahead)).headD s.eof)
    cases hrest : s.ahead.drop (skipLength 0 s.ahead) with
    | nil => exact .inl hs
    | cons t rest => exact hskips.stopped t (by rw [hrest]; rfl)

/-! ## Nothing goes on behind a hole -/

/-- No loop behind an operand goes on here. -/
structure Exhausts (config : Config) (s : State) : Prop where
  suffixes : ∀ expr o, iterate (suffix config expr) o s = .ok o s
  nullChecks : ∀ st, iterate (applyNullCheck config) st s = .ok st s
  infixes : ∀ st, shiftInfix config st s = .ok (.done st) s

/-- No token that ends every expression has a row behind or between operands. -/
theorem lookup_of_endsExpression {kind : Kind} (h : endsExpression kind = true) :
    Level.lookup kind .after = none ∧ Level.lookup kind .between = none := by
  cases kind with
  | keyword w => cases w <;> first | exact ⟨rfl, rfl⟩ | cases h
  | operator op => cases op <;> first | exact ⟨rfl, rfl⟩ | cases h
  | punctuation mark => cases mark <;> exact ⟨rfl, rfl⟩
  | eof => exact ⟨rfl, rfl⟩
  | _ => cases h

/-- Nor does one begin a suffix. -/
theorem suffix_of_endsExpression {config : Config} {expr : Parser Expression} {o : Operand}
    {s : State} (h : endsExpression s.current.kind = true) :
    suffix config expr o s = .ok (.done o) s := by
  have hcurrent : current s = .ok s.current s := rfl
  unfold suffix
  rw [bind_ok hcurrent]
  generalize s.current.kind = kind at h ⊢
  cases kind with
  | punctuation mark => cases mark <;> first | rfl | cases h
  | _ => rfl

/-- A loop whose first round is its last. -/
theorem iterate_of_done {α : Type} {step : α → Parser (ForInStep α)} {a b : α} {s s' : State}
    (h : step a s = .ok (.done b) s') : iterate step a s = .ok b s' := by
  show iterateUpTo step (s.ahead.length + 1) a s = _
  unfold iterateUpTo
  rw [bind_ok h]
  rfl

theorem exhausts_of_endsExpression (config : Config) {s : State}
    (h : endsExpression s.current.kind = true) : Exhausts config s where
  suffixes _ _ := iterate_of_done (suffix_of_endsExpression h)
  nullChecks _ := iterate_of_done (applyNullCheck_none (lookup_of_endsExpression h).1)
  infixes _ := shiftInfix_none (lookup_of_endsExpression h).2

/-- A token that starts no atom is got over where an atom is due. -/
theorem atom_eq_recoverExpression {config : Config} {expr : Parser Expression} {s : State}
    (h : startsAtom s.current.kind = false) :
    atom config expr s = recoverExpression config s := by
  have hcurrent : current s = .ok s.current s := rfl
  unfold atom
  rw [bind_ok hcurrent]
  generalize s.current.kind = kind at h ⊢
  cases kind with
  | keyword w => cases w <;> first | rfl | cases h
  | operator op => cases op <;> first | rfl | cases h
  | punctuation mark => cases mark <;> first | rfl | cases h
  | eof => rfl
  | _ => cases h

section Operand

variable {config : Config} {expr : Parser Expression} {s s' : State} {span : Span}

/-- Where an operand is missing, a hole is the whole operand. -/
theorem operand_of_recoverExpression (hlimit : 0 < config.maxDepth)
    (hatom : startsAtom s.current.kind = false) (hrun : recoverExpression config s = .ok (.hole span) s')
    (hends : endsExpression s'.current.kind = true) :
    operand config expr s = .ok ⟨.hole span, 1⟩ s' := by
  have hheight : checkHeight config (Expression.hole span).height s' = .ok () s' :=
    congrFun (if_pos hlimit : checkHeight config 1 = pure ()) s'
  unfold operand
  rw [bind_ok ((atom_eq_recoverExpression hatom).trans hrun), bind_ok hheight]
  exact (exhausts_of_endsExpression config hends).suffixes _ _

/-- A round is the last one if the expression ends behind its operand. -/
theorem round_of_endsExpression {operand : Parser Operand} {st shifted : Stacks} {o : Operand}
    {s₁ : State} (hshifted : iterate shiftPrefix st s = .ok shifted s₁)
    (hoperand : operand s₁ = .ok o s') (hends : endsExpression s'.current.kind = true) :
    round config operand st s = .ok (.done (shifted.pushOperand o)) s' := by
  have hexhausts := exhausts_of_endsExpression config hends
  unfold round
  rw [bind_ok hshifted, bind_ok hoperand, bind_ok (hexhausts.nullChecks _)]
  exact hexhausts.infixes _

end Operand

/-! ## The last operand -/

/-- The rounds of an expression that starts at `s₀` have come to these stacks and
this state, and go on. -/
inductive InRounds (config : Config) (operand : Parser Operand) (s₀ : State) :
    Stacks → State → Prop
  | start : InRounds config operand s₀ {} s₀
  | next {st st' : Stacks} {s s' : State} (before : InRounds config operand s₀ st s)
    (goesOn : round config operand st s = .ok (.yield st') s') : InRounds config operand s₀ st' s'

section Rounds

variable {config : Config} {operand : Parser Operand} {s₀ s : State} {st : Stacks}

theorem InRounds.reaches (hoperand : Proceeds operand) (h : InRounds config operand s₀ st s) :
    s₀.Reaches s := by
  induction h with
  | start => exact .refl _
  | next _ goesOn ih => exact ih.trans (proceeds_round hoperand _ _ _ _ goesOn)

/-- The loop from the start is the loop from any of its rounds on. -/
theorem InRounds.iterate_eq (hoperand : Proceeds operand) (hs : s₀.Ended)
    (h : InRounds config operand s₀ st s) :
    iterate (round config operand) {} s₀ = iterate (round config operand) st s := by
  have hproceeds : ∀ st, Proceeds (round config operand st) := proceeds_round hoperand
  induction h with
  | start => rfl
  | @next st st' s s' before goesOn ih =>
    have hround := iterate_bind hproceeds (consumes_round hoperand)
      ((before.reaches hoperand).ended hs) st pure
    rw [bind_pure] at hround
    rw [ih, hround, bind_ok goesOn]
    show (iterate (round config operand) st' >>= pure) s' = _
    rw [bind_pure]

end Rounds

/-- Getting over an operand stops at the right place and ends the expression.
With one fault on record for the token due, the tokens up to the first at which
the expression ends are passed, and a hole takes their place. No loop behind an
operand goes on there; where the hole is an operand of an expression, the rounds
of the expression end with it on top. -/
theorem recovery_ends_expression {config : Config} (hrecover : config.recover = true) {s : State}
    (hs : s.Ended) :
    ∃ passed s', recoverExpression config s = .ok (.hole (holeSpan s passed)) s'
      ∧ Recovers s passed s' ∧ Exhausts config s'
      ∧ ∀ room s₀ st₁ s₁ st, 0 < config.maxDepth → startsAtom s.current.kind = false →
        InRounds config (operand config (expressionWithin config room)) s₀ st₁ s₁ →
        iterate shiftPrefix st₁ s₁ = .ok st s →
        iterate (round config (operand config (expressionWithin config room))) {} s₀
          = .ok (st.pushOperand ⟨.hole (holeSpan s passed), 1⟩) s' := by
  obtain ⟨passed, s', hskip, hrecovers⟩ := recovers_skipOperand hs
  have hrun : recoverExpression config s = .ok (.hole (holeSpan s passed)) s' := by
    unfold recoverExpression
    rw [if_pos hrecover, hskip]
  have hends := endsExpression_of_halts hrecovers.stopped
  refine ⟨passed, s', hrun, hrecovers, exhausts_of_endsExpression config hends,
    fun room s₀ st₁ s₁ st hlimit hatom hrounds hshifted => ?_⟩
  have hproceeds := proceeds_operand config room
  have hended : s₀.Ended := by
    have hreaches := (hrounds.reaches hproceeds).trans
      (Proceeds.iterate proceeds_shiftPrefix _ _ _ _ hshifted)
    unfold State.Ended at hs ⊢
    rw [← hreaches.eof, hs]
  rw [hrounds.iterate_eq hproceeds hended]
  exact iterate_of_done (round_of_endsExpression hshifted
    (operand_of_recoverExpression hlimit hatom hrun hends) hends)

/-- `NOT = f ( 1 ) , x`, where an operand is missing behind the first word. -/
private def missingBehindNot : State where
  ahead := [⟨.keyword .NOT, ⟨0, 3⟩, 1, "NOT"⟩, ⟨.operator .eq, ⟨4, 5⟩, 1, "="⟩,
    ⟨.identifier "f", ⟨6, 7⟩, 1, "f"⟩, ⟨.punctuation .lparen, ⟨7, 8⟩, 1, "("⟩,
    ⟨.integer "1", ⟨8, 9⟩, 1, "1"⟩, ⟨.punctuation .rparen, ⟨9, 10⟩, 1, ")"⟩,
    ⟨.punctuation .comma, ⟨10, 11⟩, 1, ","⟩, ⟨.identifier "x", ⟨12, 13⟩, 1, "x"⟩]
  eof := ⟨.eof, ⟨13, 13⟩, 1, ""⟩

/-- The operator that waits for the missing operand. -/
private def waitingNot : Stacks := { pending := [⟨.prefixed .not, 2, "NOT", ⟨0, 3⟩⟩] }

theorem recovery_ends_expression_missingBehindNot :
    ∃ passed s', Recovers missingBehindNot.advance passed s'
      ∧ iterate (round {} (operand {} (expressionWithin {} 8))) {} missingBehindNot
          = .ok (waitingNot.pushOperand ⟨.hole (holeSpan missingBehindNot.advance passed), 1⟩) s' := by
  have hended : missingBehindNot.advance.Ended := rfl
  obtain ⟨passed, s', -, hrecovers, -, hlast⟩ :=
    recovery_ends_expression (rfl : ({} : Config).recover = true) hended
  have hatom : startsAtom missingBehindNot.advance.current.kind = false := by decide
  have hshifted : iterate shiftPrefix {} missingBehindNot
      = .ok waitingNot missingBehindNot.advance := rfl
  exact ⟨passed, s', hrecovers, hlast 8 _ _ _ _ (by decide) hatom .start hshifted⟩

end Cypher.Grammar
