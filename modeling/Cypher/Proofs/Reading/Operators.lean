import Cypher.Grammar.Operators
import Cypher.Proofs.Reading.Operand

/-!
# Reading operators

In a canonical text the stacks never hold much. A run between parentheses
is signs and a core, or two such runs with one operator between them; so
what waits is a row of signs, at most one operator below it, and nothing
else. An operator behind a core reduces the signs in front of it, if all
of them bind tighter: `DISTINCT` does not.
-/

namespace Cypher

/-- The row of an operator written before its operand. -/
def PrefixOperator.binding : PrefixOperator → Nat
  | .distinct => 1
  | .not => 2
  | .negate => 10

theorem PrefixOperator.lookup_token (op : PrefixOperator) :
    ∃ level, Level.lookup op.token.kind .before = some level
      ∧ level.binding = op.binding ∧ PrefixOperator.ofKind? op.token.kind = some op := by
  cases op <;> exact ⟨_, rfl, rfl, rfl⟩

theorem InfixOperator.lookup_token (op : InfixOperator) :
    ∃ level, Level.lookup op.token.kind .between = some level
      ∧ level.binding < 10 ∧ InfixOperator.ofKind? op.token.kind = some op := by
  cases op <;> exact ⟨_, rfl, by decide, rfl⟩

/-- An operator between two operands stands neither behind one nor goes on
with it. -/
theorem InfixOperator.kind_token (op : InfixOperator) :
    Level.lookup op.token.kind .after = none
      ∧ Grammar.continuesOperand op.token.kind = false := by
  cases op <;> exact ⟨rfl, rfl⟩

namespace Grammar

open Token (Kind)

variable {config : Config} {d : Nat} {rest : List Token}

/-! ## Signs on the stack -/

/-- The waiting operators are these signs, the last one on top. -/
def Signed (ops : List PrefixOperator) (pending : List Pending) : Prop :=
  pending.map (fun p => (p.role, p.binding))
    = ops.reverse.map fun op => (Pending.Role.prefixed op, op.binding)

theorem Signed.nil {pending : List Pending} (h : Signed [] pending) : pending = [] :=
  List.map_eq_nil_iff.1 h

theorem Signed.cons {op : PrefixOperator} {ops : List PrefixOperator} {above : List Pending}
    {p : Pending} (h : Signed ops above) (hrole : p.role = .prefixed op)
    (hbinding : p.binding = op.binding) : Signed (op :: ops) (above ++ [p]) := by
  unfold Signed at h ⊢
  rw [List.map_append, h, List.reverse_cons, List.map_append, List.map_singleton, hrole,
    hbinding]
  rfl

/-- The first sign lies below the others. -/
theorem Signed.uncons {op : PrefixOperator} {ops : List PrefixOperator}
    {pending : List Pending} (h : Signed (op :: ops) pending) :
    ∃ above p, pending = above ++ [p] ∧ Signed ops above ∧ p.role = .prefixed op
      ∧ p.binding = op.binding := by
  unfold Signed at h
  rw [List.reverse_cons, List.map_append] at h
  obtain ⟨above, below, rfl, habove, hbelow⟩ := List.map_eq_append_iff.1 h
  obtain ⟨p, rfl, hp⟩ := List.map_eq_singleton_iff.1 hbelow
  rw [Prod.mk.injEq] at hp
  exact ⟨above, p, rfl, habove, hp.1, hp.2⟩

theorem Signed.binding_eq {ops : List PrefixOperator} {pending : List Pending}
    (h : Signed ops pending) {p : Pending} (hp : p ∈ pending) :
    ∃ op ∈ ops, p.binding = op.binding := by
  have hmem : (p.role, p.binding) ∈ pending.map fun p => (p.role, p.binding) :=
    List.mem_map_of_mem hp
  rw [h] at hmem
  obtain ⟨op, hop, heq⟩ := List.mem_map.1 hmem
  exact ⟨op, List.mem_reverse.1 hop, (Prod.mk.inj heq).2.symm⟩

/-- Reducing an operator before its operand. -/
theorem settle_prefixed (limit : Nat) (due : Pending → Bool) {op : PrefixOperator}
    {e : Expression} {s : Span} {o : Operand} (os : List Operand) {p : Pending}
    (pending : List Pending) (ho : Holds o e) (hrole : p.role = .prefixed op)
    (hdue : due p = true) (hlimit : (Expression.prefixed op e s).height ≤ limit) :
    ∃ o', Holds o' (.prefixed op e s)
      ∧ Stacks.settle limit due (o :: os) (p :: pending)
        = Stacks.settle limit due (o' :: os) pending := by
  refine ⟨⟨.prefixed op o.tree ⟨p.span.start, o.tree.span.stop⟩, o.height + 1⟩, ?_, ?_⟩
  · refine ⟨?_, ?_⟩
    · rw [Expression.erase_prefixed, Expression.erase_prefixed, ho.1]
    · rw [ho.2, Expression.height]
  · have happly : p.apply (o :: os)
        = some (⟨.prefixed op o.tree ⟨p.span.start, o.tree.span.stop⟩, o.height + 1⟩,
          os) := by
      rw [Pending.apply, hrole]
    rw [Expression.height, ← ho.2] at hlimit
    rw [Stacks.settle, if_pos hdue, happly]
    exact if_pos hlimit

/-- Reducing the signs in front of a core gives the expression. -/
theorem settle_signs (limit : Nat) (due : Pending → Bool) (e : Expression) {o : Operand}
    (os : List Operand) {above : List Pending} (pending : List Pending) (ho : Holds o e.core)
    (habove : Signed e.signs above) (hdue : ∀ p ∈ above, due p = true)
    (hlimit : e.height ≤ limit) :
    ∃ o', Holds o' e
      ∧ Stacks.settle limit due (o :: os) (above ++ pending)
        = Stacks.settle limit due (o' :: os) pending := by
  fun_induction Expression.core e generalizing above pending with
  | case1 e s ih | case2 e s ih =>
    obtain ⟨above, p, rfl, habove, hrole, -⟩ := habove.uncons
    have hheight : e.height ≤ limit := Nat.le_of_succ_le hlimit
    obtain ⟨o₁, ho₁, hfirst⟩ := ih (p :: pending) ho habove
      (fun q hq => hdue q (List.mem_append_left _ hq)) hheight
    obtain ⟨o₂, ho₂, hsecond⟩ := settle_prefixed limit due (s := s) os pending
      ho₁ hrole (hdue p (by simp)) hlimit
    exact ⟨o₂, ho₂, by rw [List.append_assoc, List.singleton_append, hfirst, hsecond]⟩
  | case3 e hneg hdist =>
    have hnone : e.signs = [] := by
      rw [Expression.signs] <;> assumption
    rw [hnone] at habove
    rw [habove.nil]
    exact ⟨o, ho, rfl⟩

/-! ## Rounds -/

/-- No operator is written before an atom, or is one. -/
theorem lookup_startsAtom {kind : Kind} (h : startsAtom kind = true) :
    Level.lookup kind .before = none := by
  unfold startsAtom at h
  split at h
  all_goals first | rfl | cases h

theorem reads_shift {role : Pending.Role} {level : Level} {s : Stacks} {t : Token} :
    Reads d (shift role level s) (t :: rest) rest fun s' =>
      ∃ p : Pending, p.role = role ∧ p.binding = level.binding ∧ s' = s.pushPending p := by
  unfold shift
  refine Reads.current.bind fun u _ => ?_
  exact Reads.advance.bind fun _ _ => .pure ⟨_, rfl, rfl, rfl⟩

theorem iterates_shiftPrefix (ops : List PrefixOperator) (s : Stacks)
    (hrest : Level.lookup (headKind rest) .before = none) :
    Iterates d shiftPrefix s (ops.map PrefixOperator.token ++ rest) rest fun s' =>
      ∃ above, Signed ops above ∧ s' = { s with pending := above ++ s.pending } := by
  induction ops generalizing s with
  | nil =>
    refine Iterates.last ?_
    unfold shiftPrefix
    refine Reads.current.bind fun t ht => ?_
    have hnone : Level.lookup t.kind .before = none := ht ▸ hrest
    simp only [hnone]
    exact .pure ⟨s, rfl, [], rfl, rfl⟩
  | cons op ops ih =>
    obtain ⟨level, hlevel, hbinding, hop⟩ := op.lookup_token
    refine Iterates.next (S := fun s₁ => ∃ p : Pending, p.role = .prefixed op
      ∧ p.binding = op.binding ∧ s₁ = s.pushPending p) ?_ (Nat.lt_succ_self _) ?_
    · unfold shiftPrefix
      refine Reads.current.bind fun t ht => ?_
      have hkind : t.kind = op.token.kind := ht
      simp only [hkind, hlevel, hop]
      refine reads_shift.bind ?_
      rintro _ ⟨p, hrole, hp, rfl⟩
      exact .pure ⟨_, rfl, p, hrole, hp.trans hbinding, rfl⟩
    · rintro _ ⟨p, hrole, hpbinding, rfl⟩
      refine (ih (s.pushPending p)).mono ?_
      rintro _ ⟨above, habove, rfl⟩
      refine ⟨above ++ [p], habove.cons hrole hpbinding, ?_⟩
      simp [Stacks.pushPending]

/-- The parser reads the operand wherever it may end. -/
def ReadsOperand (d : Nat) (p : Parser Operand) (c : Expression) : Prop :=
  ∀ rest, Ends c rest → Reads d p (c.tokens ++ rest) rest (Holds · c)

variable {p : Parser Operand}

/-- What a round does behind its operand. -/
def endRound (config : Config) (s : Stacks) : Parser (ForInStep Stacks) := do
  let checked ← iterate (applyNullCheck config) s
  shiftInfix config checked

/-- The stacks hold one more operand, and signs in front of it. -/
def Pushed (ops : List PrefixOperator) (c : Expression) (s s' : Stacks) : Prop :=
  ∃ above o, Signed ops above ∧ Holds o c
    ∧ s' = { s with operands := o :: s.operands, pending := above ++ s.pending }

/-- The first half of a round reads signs and a core. -/
theorem reads_round {after : List Token} {R : ForInStep Stacks → Prop}
    {ops : List PrefixOperator} {c : Expression} {s : Stacks} (hc : c.Plain)
    (hsigns : c.signs = []) (hp : ReadsOperand d p c) (hrest : Ends c rest)
    (hend : ∀ s', Pushed ops c s s' → Reads d (endRound config s') rest after R) :
    Reads d (round config p s) (ops.map PrefixOperator.token ++ (c.tokens ++ rest)) after
      R := by
  have hstart := lookup_startsAtom (startsAtom_tokens hc hsigns rest)
  unfold round
  refine (iterates_shiftPrefix ops s hstart).reads.bind ?_
  rintro _ ⟨above, habove, rfl⟩
  refine (hp rest hrest).bind fun o ho => hend _ ⟨above, o, habove, ho, ?_⟩
  rfl

/-- There is no null check where no token of one is due. -/
theorem reads_nullCheck_absent {s : Stacks}
    (h : Level.lookup (headKind rest) .after = none) :
    Reads d (iterate (applyNullCheck config) s) rest rest (· = s) := by
  refine (Iterates.last ?_).reads
  unfold applyNullCheck
  refine Reads.current.bind fun t ht => ?_
  have hnone : Level.lookup t.kind .after = none := ht ▸ h
  simp only [hnone]
  exact .pure ⟨s, rfl, rfl⟩

theorem reads_shiftInfix_absent {s : Stacks}
    (h : Level.lookup (headKind rest) .between = none) :
    Reads d (shiftInfix config s) rest rest (· = .done s) := by
  unfold shiftInfix
  refine Reads.current.bind fun t ht => ?_
  have hnone : Level.lookup t.kind .between = none := ht ▸ h
  simp only [hnone]
  exact .pure rfl

/-- Nothing that may stop an expression goes on with it. -/
theorem stopsExpression_iff {kind : Kind} :
    stopsExpression kind = true ↔ continuesOperand kind = false
      ∧ Level.lookup kind .after = none ∧ Level.lookup kind .between = none := by
  unfold stopsExpression
  rw [Bool.and_eq_true, Bool.and_eq_true, Bool.not_eq_true', Option.isNone_iff_eq_none,
    Option.isNone_iff_eq_none, and_assoc]

theorem Ends.of_stops {c : Expression} (h : stopsExpression (headKind rest) = true) :
    Ends c rest :=
  ⟨(stopsExpression_iff.1 h).1, fun _ => relationshipAhead_of_stops h⟩

/-- The last round reads signs and a core. -/
theorem reads_round_last (ops : List PrefixOperator) {c : Expression} {s : Stacks}
    (hc : c.Plain) (hsigns : c.signs = []) (hp : ReadsOperand d p c)
    (hrest : stopsExpression (headKind rest) = true) :
    Reads d (round config p s) (ops.map PrefixOperator.token ++ (c.tokens ++ rest)) rest
      fun r => ∃ s', r = .done s' ∧ Pushed ops c s s' := by
  obtain ⟨-, hafter, hbetween⟩ := stopsExpression_iff.1 hrest
  refine reads_round hc hsigns hp (.of_stops hrest) fun s' hs' => ?_
  unfold endRound
  refine (reads_nullCheck_absent hafter).bindEq ?_
  exact (reads_shiftInfix_absent hbetween).mono fun r hr => ⟨s', hr, hs'⟩

/-- Reducing all that waits where it is signs gives the expression. -/
theorem Pushed.reduced (limit : Nat) (due : Pending → Bool) {e : Expression} {s s' : Stacks}
    (h : Pushed e.signs e.core s s') (hpending : s.pending = [])
    (hdue : ∀ op ∈ e.signs, ∀ p : Pending, p.binding = op.binding → due p = true)
    (hlimit : e.height ≤ limit) :
    ∃ o, Holds o e
      ∧ Stacks.settle limit due s'.operands s'.pending = { operands := o :: s.operands } := by
  obtain ⟨above, o, habove, ho, rfl⟩ := h
  have hall : ∀ p ∈ above, due p = true := fun q hq => by
    obtain ⟨op, hop, hbinding⟩ := habove.binding_eq hq
    exact hdue op hop q hbinding
  obtain ⟨o', ho', hsettle⟩ := settle_signs limit due e s.operands [] ho habove hall hlimit
  refine ⟨o', ho', ?_⟩
  simp only [hpending]
  rw [hsettle, Stacks.settle]

/-- Signs other than `DISTINCT` give way to every operator behind them. -/
theorem signs_due {e : Expression} (h : .distinct ∉ e.signs) {binding : Nat}
    (hbinding : binding < 10) (assoc : Assoc) :
    ∀ op ∈ e.signs, ∀ p : Pending, p.binding = op.binding →
      (binding < p.binding || (p.binding = binding && assoc = .left)) = true := by
  intro op hop p hp
  have hop' : op = .negate := by
    fun_induction Expression.signs e with
    | case1 e s ih =>
      rcases List.mem_cons.1 hop with rfl | hop
      · rfl
      · exact ih (fun hmem => h (List.mem_cons_of_mem _ hmem)) hop
    | case2 e s ih => exact absurd List.mem_cons_self h
    | case3 => cases hop
  subst hop'
  rw [hp]
  simp [PrefixOperator.binding, hbinding]

/-- A round before an operator reads an expression and the operator. -/
theorem reads_round_infixed {e : Expression} {op : InfixOperator} (he : e.Plain)
    (hdistinct : .distinct ∉ e.signs) (hlimit : e.height ≤ config.maxDepth)
    (hp : ReadsOperand d p e.core) (hends : Ends e.core (op.token :: rest)) :
    Reads d (round config p {}) (e.tokens ++ op.token :: rest) rest fun r =>
      ∃ s', r = .yield s' ∧ ∃ o q, Holds o e ∧ q.role = .infixed op
        ∧ s' = { operands := [o], pending := [q] } := by
  obtain ⟨level, hlevel, hbinding, hop⟩ := op.lookup_token
  rw [Expression.tokens_signs, List.append_assoc]
  refine reads_round he.core e.signs_core hp hends fun s' hs' => ?_
  unfold endRound
  have hafter : Level.lookup (headKind (op.token :: rest)) .after = none := op.kind_token.1
  refine (reads_nullCheck_absent hafter).bindEq ?_
  unfold shiftInfix
  refine Reads.current.bind fun t ht => ?_
  have hkind : t.kind = op.token.kind := ht
  simp only [hkind, hlevel, hop]
  obtain ⟨o, ho, hreduced⟩ := hs'.reduced config.maxDepth
    (fun top => level.binding < top.binding
      || (top.binding = level.binding && level.assoc = .left))
    rfl (signs_due hdistinct hbinding level.assoc) hlimit
  have habove : s'.reduceAbove config.maxDepth level.binding level.assoc
      = { operands := [o] } := hreduced
  rw [habove]
  refine Reads.bind (Q := fun _ => True) (.pure trivial) fun _ _ => ?_
  refine Reads.bind (Q := fun _ => True) (.pure trivial) fun _ _ => ?_
  refine reads_shift.bind ?_
  rintro _ ⟨q, hrole, -, rfl⟩
  exact .pure ⟨_, rfl, o, q, ho, hrole, rfl⟩

/-- A round before a null check reads an expression and the check. -/
theorem reads_round_nullCheck {e : Expression} {negated : Bool} {s : Span} (he : e.Plain)
    (hdistinct : .distinct ∉ e.signs)
    (hlimit : (Expression.nullCheck negated e s).height ≤ config.maxDepth)
    (hp : ReadsOperand d p e.core)
    (hrest : stopsExpression (headKind rest) = true) :
    Reads d (round config p {}) (e.tokens ++ nullCheckToken negated :: rest) rest fun r =>
      ∃ s', r = .done s' ∧ ∃ o, Holds o (.nullCheck negated e s)
        ∧ s' = { operands := [o] } := by
  obtain ⟨-, hafter, hbetween⟩ := stopsExpression_iff.1 hrest
  have hends : Ends e.core (nullCheckToken negated :: rest) := by
    cases negated <;> exact ⟨rfl, fun _ => rfl⟩
  rw [Expression.tokens_signs, List.append_assoc]
  refine reads_round he.core e.signs_core hp hends fun s' hs' => ?_
  unfold endRound
  have hchecked : Reads d (iterate (applyNullCheck config) s')
      (nullCheckToken negated :: rest) rest fun s'' =>
        ∃ o, Holds o (.nullCheck negated e s) ∧ s'' = { operands := [o] } := by
    refine (Iterates.next (S := fun s'' => ∃ o, Holds o (.nullCheck negated e s)
      ∧ s'' = { operands := [o] }) ?_ (Nat.lt_succ_self _) fun s'' hs'' => ?_).reads
    · unfold applyNullCheck
      refine Reads.current.bind fun t ht => ?_
      have hkind : t.kind = (nullCheckToken negated).kind := ht
      have hlevel : Level.lookup (nullCheckToken negated).kind .after
          = some ⟨6, .after, .left, [.operator .isNull, .operator .isNotNull]⟩ := by
        cases negated <;> rfl
      have hnegated : decide ((nullCheckToken negated).kind = .operator .isNotNull)
          = negated := by
        cases negated <;> rfl
      simp only [hkind, hlevel, hnegated]
      have hinner : e.height ≤ config.maxDepth := Nat.le_of_succ_le hlimit
      obtain ⟨o, ho, hreduced⟩ := hs'.reduced config.maxDepth
        (fun top => 6 < top.binding
          || (top.binding = 6 && Assoc.left = .left))
        rfl (signs_due hdistinct (by decide) .left) hinner
      have habove : s'.reduceAbove config.maxDepth 6 .left = { operands := [o] } := hreduced
      have hroom : ¬ config.maxDepth ≤ o.height := by
        rw [ho.2]
        exact Nat.not_le.2 hlimit
      have hcheck (stop : Nat) :
          Stacks.nullCheck config.maxDepth negated stop { operands := [o] }
            = { operands := [⟨.nullCheck negated o.tree ⟨o.tree.span.start, stop⟩,
                  o.height + 1⟩] } :=
        if_neg hroom
      rw [habove, hcheck]
      refine Reads.bind (Q := fun _ => True) (.pure trivial) fun _ _ => ?_
      refine Reads.advance.bind fun _ _ => .pure ⟨_, rfl, _, ⟨?_, ?_⟩, rfl⟩
      · rw [Expression.erase_nullCheck, Expression.erase_nullCheck, ho.1]
      · rw [ho.2, Expression.height]
    · refine Iterates.last ?_
      unfold applyNullCheck
      refine Reads.current.bind fun t ht => ?_
      have hnone : Level.lookup t.kind .after = none := ht ▸ hafter
      simp only [hnone]
      exact .pure ⟨s'', rfl, hs''⟩
  refine hchecked.bind fun s'' hs'' => ?_
  exact (reads_shiftInfix_absent hbetween).mono fun r hr => ⟨s'', hr, hs''⟩

/-! ## Expressions of operators -/

/-- The rounds end with stacks that reduce to the expression. -/
theorem reads_operators {e : Expression} {before : List Token}
    (h : Iterates d (round config p) {} before rest fun s =>
      ∃ o, Holds o e ∧ s.reduceAll config.maxDepth = { operands := [o] }) :
    Reads d (operators config p) before rest fun a => a.erase = e.erase := by
  unfold operators
  refine h.reads.bind ?_
  rintro s ⟨o, ho, hreduced⟩
  rw [hreduced]
  refine Reads.bind (Q := fun _ => True) (.pure trivial) fun _ _ => ?_
  exact .pure ho.1

/-- Signs and a core are read where expressions stop. -/
theorem reads_operators_signed {e : Expression} (he : e.Plain)
    (hlimit : e.height ≤ config.maxDepth) (hp : ReadsOperand d p e.core)
    (hrest : stopsExpression (headKind rest) = true) :
    Reads d (operators config p) (e.tokens ++ rest) rest fun a => a.erase = e.erase := by
  rw [Expression.tokens_signs, List.append_assoc]
  refine reads_operators (Iterates.last ?_)
  refine (reads_round_last e.signs he.core e.signs_core hp hrest).mono ?_
  rintro _ ⟨s', rfl, hs'⟩
  obtain ⟨o, ho, hreduced⟩ := hs'.reduced config.maxDepth (fun _ => true) rfl
    (fun _ _ _ _ => rfl) hlimit
  exact ⟨s', rfl, o, ho, hreduced⟩

/-- `NOT` and what it negates are read between parentheses. -/
theorem reads_operators_not {e : Expression} {s : Span} (he : e.Plain)
    (hlimit : (Expression.prefixed .not e s).height ≤ config.maxDepth)
    (hp : ReadsOperand d p e.core) (hrest : stopsExpression (headKind rest) = true) :
    Reads d (operators config p) (Keyword.NOT.token :: (e.tokens ++ rest)) rest
      fun a => a.erase = (Expression.prefixed .not e s).erase := by
  rw [Expression.tokens_signs, List.append_assoc]
  refine reads_operators (Iterates.last ?_)
  refine (reads_round_last (.not :: e.signs) he.core e.signs_core hp hrest).mono ?_
  rintro _ ⟨s', rfl, above, o, habove, ho, rfl⟩
  obtain ⟨above, q, rfl, habove, hrole, -⟩ := habove.uncons
  obtain ⟨o₁, ho₁, hfirst⟩ := settle_signs config.maxDepth (fun _ => true) e [] [q] ho habove
    (fun _ _ => rfl) (Nat.le_of_succ_le hlimit)
  obtain ⟨o₂, ho₂, hsecond⟩ := settle_prefixed config.maxDepth (fun _ => true) (s := s) []
    [] ho₁ hrole rfl hlimit
  refine ⟨_, rfl, o₂, ho₂, ?_⟩
  unfold Stacks.reduceAll
  rw [List.append_nil, hfirst, hsecond, Stacks.settle]

/-- Two expressions and an operator are read between parentheses. -/
theorem reads_operators_infixed {op : InfixOperator} {l r : Expression} {s : Span}
    (he : (Expression.infixed op l r s).Plain)
    (hlimit : (Expression.infixed op l r s).height ≤ config.maxDepth)
    (hl : ReadsOperand d p l.core) (hr : ReadsOperand d p r.core)
    (hrest : headKind rest = .punctuation .rparen) :
    Reads d (operators config p) (l.tokens ++ op.token :: (r.tokens ++ rest)) rest
      fun a => a.erase = (Expression.infixed op l r s).erase := by
  have hplain : l.Plain ∧ r.Plain :=
    ⟨he.inside l (by simp [Expression.children]), he.inside r (by simp [Expression.children])⟩
  obtain ⟨hdistinct, hpath⟩ := he.here.2
  rw [Expression.height] at hlimit
  have hheight : l.height ≤ config.maxDepth ∧ r.height ≤ config.maxDepth := by omega
  have hends : Ends l.core (op.token :: (r.tokens ++ rest)) := by
    refine ⟨op.kind_token.2, fun hleads => ?_⟩
    obtain ⟨t, ts, rfl⟩ : ∃ t ts, rest = t :: ts := by
      cases rest with
      | nil => cases hrest
      | cons t ts => exact ⟨t, ts, rfl⟩
    rw [headKind_cons] at hrest
    have hlength : 3 ≤ (op.token :: (r.tokens ++ [t])).length := by
      have hpos := List.length_pos_iff.2 (tokens_ne_nil hplain.2)
      simp only [List.length_cons, List.length_append, List.length_nil]
      omega
    have hsplit : op.token :: (r.tokens ++ t :: ts)
        = (op.token :: (r.tokens ++ [t])) ++ ts := by simp
    rw [hsplit, relationshipAhead_append hlength, ← hpath hleads]
    exact relationshipAhead_congr (by simp [hrest])
  refine reads_operators (Iterates.next (reads_round_infixed hplain.1 hdistinct hheight.1 hl
    hends) ?_ ?_)
  · simp only [List.length_append, List.length_cons]
    omega
  · rintro _ ⟨o, q, ho, hrole, rfl⟩
    rw [Expression.tokens_signs r, List.append_assoc]
    refine Iterates.last ?_
    have hstop : stopsExpression (headKind rest) = true := by rw [hrest]; rfl
    refine (reads_round_last r.signs hplain.2.core r.signs_core hr hstop).mono ?_
    rintro _ ⟨s', rfl, above, o', habove, ho', rfl⟩
    obtain ⟨o₁, ho₁, hfirst⟩ := settle_signs config.maxDepth (fun _ => true) r [o] [q] ho'
      habove (fun _ _ => rfl) hheight.2
    refine ⟨_, rfl, ⟨.infixed op o.tree o₁.tree (o.tree.span.join o₁.tree.span),
      max o.height o₁.height + 1⟩, ⟨?_, ?_⟩, ?_⟩
    · rw [Expression.erase_infixed, Expression.erase_infixed, ho.1, ho₁.1]
    · rw [ho.2, ho₁.2, Expression.height]
    · unfold Stacks.reduceAll
      have happly : q.apply [o₁, o]
          = some (⟨.infixed op o.tree o₁.tree (o.tree.span.join o₁.tree.span),
              max o.height o₁.height + 1⟩, []) := by
        rw [Pending.apply, hrole]
      rw [hfirst, Stacks.settle, if_pos rfl, happly]
      rw [← ho.2, ← ho₁.2] at hlimit
      simp only [if_pos hlimit, Stacks.settle]

/-- An expression and a null check are read between parentheses. -/
theorem reads_operators_nullCheck {negated : Bool} {e : Expression} {s : Span}
    (he : e.Plain) (hdistinct : .distinct ∉ e.signs)
    (hlimit : (Expression.nullCheck negated e s).height ≤ config.maxDepth)
    (hp : ReadsOperand d p e.core) (hrest : stopsExpression (headKind rest) = true) :
    Reads d (operators config p) (e.tokens ++ nullCheckToken negated :: rest) rest
      fun a => a.erase = (Expression.nullCheck negated e s).erase := by
  refine reads_operators (Iterates.last ?_)
  refine (reads_round_nullCheck he hdistinct hlimit hp hrest).mono ?_
  rintro _ ⟨s', rfl, o, ho, rfl⟩
  exact ⟨_, rfl, o, ho, rfl⟩

/-- What stands between the parentheses of a group is read there. -/
theorem reads_operators_inside {e : Expression} (he : e.Plain)
    (hlimit : e.height ≤ config.maxDepth) (hgroup : e.isGrouped = true)
    (hp : ∀ c ∈ e.children, ReadsOperand d p c.core)
    (hrest : headKind rest = .punctuation .rparen) :
    Reads d (operators config p) (e.inside ++ rest) rest fun a => a.erase = e.erase := by
  have hstop : stopsExpression (headKind rest) = true := by rw [hrest]; rfl
  cases e with
  | prefixed op e s =>
    cases op with
    | not =>
      have hmem : e ∈ (Expression.prefixed .not e s).children := by simp [Expression.children]
      exact reads_operators_not (he.inside e hmem) hlimit (hp e hmem) hstop
    | negate | distinct => cases hgroup
  | infixed op l r s =>
    rw [Expression.inside, List.append_assoc, List.cons_append]
    exact reads_operators_infixed he hlimit (hp l (by simp [Expression.children]))
      (hp r (by simp [Expression.children])) hrest
  | nullCheck negated e s =>
    have hmem : e ∈ (Expression.nullCheck negated e s).children := by
      simp [Expression.children]
    rw [Expression.inside, List.append_assoc]
    exact reads_operators_nullCheck (he.inside e hmem) he.here.2 hlimit (hp e hmem) hstop
  | _ => cases hgroup

end Grammar

end Cypher
