import Cypher.Parse
import Cypher.Proofs.Climbing.Basic
import Cypher.Proofs.Closed.Query

/-!
# Where faults are reported

The faults of a reading lie at its tokens, or at the end of the text. A
comparison that follows another one is reported with the span of the other:
the operators that wait on the stack have all been read as tokens, in front
of the one that is due.

The tokens that lie behind a state are those that its list no longer holds, so
"has been read" is a statement about the end of the list.
-/

namespace Cypher

open Grammar

/-- The token is one of the operators that do not group. -/
def Token.Compares (t : Token) : Prop :=
  ∃ level ∈ Level.table, level.assoc = .nonAssoc ∧ t.kind ∈ level.kinds

/-- A cause that the grammar reports. -/
def Cause.Grammatical : Cause → Prop
  | .illegalCharacter _ | .unclosed _ => False
  | _ => True

/-- The fault lies at a token. If it is a comparison after another one, that other one is
a token further in front. -/
structure Fault.Sited (stream : TokenStream) (f : Fault) : Prop where
  cause : f.cause.Grammatical
  site : ∃ u ∈ stream.toList, f.site = u.site
  previous : ∀ text span, f.cause = .chainedComparison text span →
    ∃ t rest u, (t :: rest) <:+ stream.tokens ∧ u ∈ rest ++ [stream.eof] ∧ f.site = u.site
      ∧ t.Compares ∧ text = t.text ∧ span = t.span

/-- Where a fault is not about another token, its site is all that counts. -/
theorem Fault.Sited.of_site {stream : TokenStream} {cause : Cause} {u : Token}
    (hcause : cause.Grammatical) (hu : u ∈ stream.toList)
    (h : ∀ text span, cause ≠ .chainedComparison text span) :
    Fault.Sited stream ⟨cause, u.site⟩ :=
  ⟨hcause, ⟨u, hu, rfl⟩, fun text span hcause => absurd hcause (h text span)⟩

namespace Grammar

/-- The reading has come to a place in the tokens, and its faults lie at them. -/
structure State.Within (stream : TokenStream) (s : State) : Prop where
  ahead : s.ahead <:+ stream.tokens
  eof : s.eof = stream.eof
  faults : ∀ f ∈ s.faults, f.Sited stream

/-- The token has been read. -/
def State.Behind (stream : TokenStream) (s : State) (t : Token) : Prop :=
  ∃ rest, (t :: rest) <:+ stream.tokens ∧ s.ahead <:+ rest

namespace State

variable {stream : TokenStream} {s s' : State} {t : Token}

theorem current_mem (s : State) : s.current ∈ s.ahead ++ [s.eof] := by
  unfold current
  cases s.ahead with
  | nil => exact List.mem_singleton_self _
  | cons t rest => exact List.mem_cons_self

theorem ahead_advance (s : State) : s.advance.ahead <:+ s.ahead := by
  unfold advance
  cases hahead : s.ahead with
  | nil => simp only [hahead]; exact List.suffix_refl _
  | cons t rest => exact List.suffix_cons t rest

theorem Within.current (h : s.Within stream) : s.current ∈ stream.toList := by
  rcases List.mem_append.1 s.current_mem with hmem | hmem
  · exact List.mem_append_left _ (h.ahead.mem hmem)
  · rw [List.mem_singleton.1 hmem, h.eof]
    exact List.mem_append_right _ (List.mem_singleton_self _)

theorem Within.advance (h : s.Within stream) : s.advance.Within stream := by
  refine ⟨s.ahead_advance.trans h.ahead, ?_, ?_⟩
  · rw [← h.eof]
    unfold State.advance
    split <;> rfl
  · rw [faults_advance]
    exact h.faults

theorem Within.advanceBy (n : Nat) (h : s.Within stream) :
    (s.advanceBy n).Within stream ∧ (s.advanceBy n).ahead <:+ s.ahead := by
  induction n generalizing s with
  | zero => exact ⟨h, List.suffix_refl _⟩
  | succ n ih =>
    obtain ⟨hwithin, hahead⟩ := ih h.advance
    exact ⟨hwithin, hahead.trans s.ahead_advance⟩

/-- The token that is due has been read as soon as the reading goes on. -/
theorem Within.behind_advance (h : s.Within stream) (hne : s.current.kind ≠ .eof)
    (heof : stream.eof.kind = .eof) : s.advance.Behind stream s.current := by
  have hahead := h.ahead
  unfold State.current at hne ⊢
  unfold State.advance Behind
  cases hs : s.ahead with
  | nil =>
    rw [hs, List.headD_nil, h.eof] at hne
    exact absurd heof hne
  | cons t rest =>
    rw [hs] at hahead
    exact ⟨rest, hahead, List.suffix_refl _⟩

theorem Behind.mono (h : s.Behind stream t) (hle : s'.ahead <:+ s.ahead) :
    s'.Behind stream t := by
  obtain ⟨rest, htokens, hrest⟩ := h
  exact ⟨rest, htokens, hle.trans hrest⟩

end State

/-! ## Runs that stay within the tokens -/

/-- The run only moves on, and reports faults at tokens; if it answers, `Q` holds of the
answer and of the state behind it. -/
structure Stays (stream : TokenStream) (p : Parser α) (s : State) (Q : α → State → Prop) :
    Prop where
  ok : ∀ {a s'}, p s = .ok a s' → s'.Within stream ∧ s'.ahead <:+ s.ahead ∧ Q a s'
  error : ∀ {fault s'}, p s = .error fault s' → s'.Within stream ∧ fault.Sited stream

/-- All runs of the parser stay within the tokens. -/
def Keeps (stream : TokenStream) (α : Type) (p : Parser α) : Prop :=
  ∀ {s}, s.Within stream → Stays stream p s fun _ _ => True

namespace Stays

variable {stream : TokenStream} {α β γ : Type} {p : Parser α} {f : α → Parser β} {s : State}
  {Q Q' : α → State → Prop} {R : β → State → Prop}

theorem mono (hp : Stays stream p s Q) (h : ∀ a s', s'.ahead <:+ s.ahead → Q a s' → Q' a s') :
    Stays stream p s Q' where
  ok hrun := by
    obtain ⟨hwithin, hahead, hQ⟩ := hp.ok hrun
    exact ⟨hwithin, hahead, h _ _ hahead hQ⟩
  error hrun := hp.error hrun

theorem bind (hp : Stays stream p s Q)
    (hf : ∀ a s', s'.Within stream → s'.ahead <:+ s.ahead → Q a s' → Stays stream (f a) s' R) :
    Stays stream (p >>= f) s R where
  ok {b s''} hrun := by
    obtain ⟨a, s', hfirst, hsecond⟩ := bind_eq_ok hrun
    obtain ⟨hwithin, hahead, hQ⟩ := hp.ok hfirst
    obtain ⟨hwithin', hahead', hR⟩ := (hf a s' hwithin hahead hQ).ok hsecond
    exact ⟨hwithin', hahead'.trans hahead, hR⟩
  error {fault s''} hrun := by
    cases hfirst : p s with
    | ok a s' =>
      rw [bind_ok hfirst] at hrun
      obtain ⟨hwithin, hahead, hQ⟩ := hp.ok hfirst
      exact (hf a s' hwithin hahead hQ).error hrun
    | error fault' s' =>
      rw [bind_error hfirst] at hrun
      cases hrun
      exact hp.error hfirst

theorem pure {a : α} (hs : s.Within stream) (h : Q a s) : Stays stream (pure a) s Q where
  ok hrun := by
    cases hrun
    exact ⟨hs, List.suffix_refl _, h⟩
  error hrun := by cases hrun

theorem fail {cause : Cause} (hs : s.Within stream)
    (h : Fault.Sited stream ⟨cause, s.current.site⟩) : Stays stream (fail cause) s Q where
  ok hrun := by cases hrun
  error hrun := by
    cases hrun
    exact ⟨hs, h⟩

theorem current {f : Token → Parser β} (h : Stays stream (f s.current) s R) :
    Stays stream (current >>= f) s R :=
  ⟨fun hrun => h.ok hrun, fun hrun => h.error hrun⟩

theorem lookAhead {f : List Token → Parser β} (h : Stays stream (f s.ahead) s R) :
    Stays stream (lookAhead >>= f) s R :=
  ⟨fun hrun => h.ok hrun, fun hrun => h.error hrun⟩

/-- What holds at the start, and is kept by every round, holds at the end. -/
theorem iterate {step : γ → Parser (ForInStep γ)} {I : γ → State → Prop}
    (h : ∀ c s, s.Within stream → I c s → Stays stream (step c) s fun r s' => I r.value s')
    {c : γ} (hs : s.Within stream) (hc : I c s) : Stays stream (iterate step c) s I := by
  have hrounds (n : Nat) {c : γ} {s : State} (hs : s.Within stream) (hc : I c s) :
      Stays stream (iterateUpTo step n c) s I := by
    induction n generalizing c s with
    | zero => exact pure hs hc
    | succ n ih =>
      unfold iterateUpTo
      apply (h c s hs hc).bind
      intro r s' hs' _ hr
      cases r with
      | done b => exact pure hs' hr
      | yield b => exact ih hs' hr
  unfold Grammar.iterate
  exact lookAhead (hrounds _ hs hc)

end Stays

/-! ## The grammar stays within the tokens -/

section Parts

variable {stream : TokenStream} {config : Config}

theorem Steps.keeps {p : Parser α} (h : Steps p) : Keeps stream α p := by
  intro s hs
  rcases h s with ⟨a, hrun | hrun⟩ | ⟨cause, hcause, hrun⟩
  · refine ⟨fun hrun' => ?_, fun hrun' => ?_⟩
    · rw [hrun] at hrun'
      cases hrun'
      exact ⟨hs, List.suffix_refl _, trivial⟩
    · rw [hrun] at hrun'
      cases hrun'
  · refine ⟨fun hrun' => ?_, fun hrun' => ?_⟩
    · rw [hrun] at hrun'
      cases hrun'
      exact ⟨hs.advance, s.ahead_advance, trivial⟩
    · rw [hrun] at hrun'
      cases hrun'
  · refine ⟨fun hrun' => ?_, fun hrun' => ?_⟩
    · rw [hrun] at hrun'
      cases hrun'
    · rw [hrun] at hrun'
      cases hrun'
      have hgrammatical : cause.Grammatical := by
        cases cause <;> first | exact trivial | exact hcause
      refine ⟨hs, .of_site hgrammatical hs.current ?_⟩
      rintro text span rfl
      exact hcause

theorem keeps_skipOperand : Keeps stream Expression skipOperand := by
  intro s hs
  refine ⟨fun hrun => ?_, fun hrun => by cases hrun⟩
  have hfault : Fault.Sited stream ⟨.expectedExpression, s.current.site⟩ :=
    .of_site trivial hs.current nofun
  have hrecorded : State.Within stream
      { s with faults := s.faults ++ [⟨.expectedExpression, s.current.site⟩] } := by
    refine ⟨hs.ahead, hs.eof, fun f hf => ?_⟩
    rcases List.mem_append.1 hf with hf | hf
    · exact hs.faults f hf
    · rw [List.mem_singleton.1 hf]
      exact hfault
  obtain ⟨hwithin, hahead⟩ := hrecorded.advanceBy (skipLength 0 s.ahead)
  cases hrun
  exact ⟨hwithin, hahead, trivial⟩

theorem keeps_recoverExpression : Keeps stream Expression (recoverExpression config) := by
  intro s hs
  unfold recoverExpression
  split
  · exact keeps_skipOperand hs
  · exact .fail hs (.of_site trivial hs.current nofun)

theorem keeps_nested {p : Parser α} (h : Keeps stream α p) :
    Keeps stream α (nested config p) := by
  intro s hs
  have hdeeper : State.Within stream { s with depth := s.depth + 1 } :=
    ⟨hs.ahead, hs.eof, hs.faults⟩
  refine ⟨fun hrun => ?_, fun hrun => ?_⟩
  · unfold nested at hrun
    split at hrun
    · split at hrun
      · next hinner =>
        obtain ⟨hwithin, hahead, -⟩ := (h hdeeper).ok hinner
        cases hrun
        exact ⟨⟨hwithin.ahead, hwithin.eof, hwithin.faults⟩, hahead, trivial⟩
      · cases hrun
    · cases hrun
  · unfold nested at hrun
    split at hrun
    · split at hrun
      · cases hrun
      · next hinner =>
        obtain ⟨hwithin, hsited⟩ := (h hdeeper).error hinner
        cases hrun
        exact ⟨⟨hwithin.ahead, hwithin.eof, hwithin.faults⟩, hsited⟩
    · exact ((Steps.keeps .tooDeep) hs).error hrun

theorem closed_keeps : Closed config fun α p _ => Keeps stream α p where
  step := Steps.keeps
  bind hp hf _ hs := (hp hs).bind fun a _ hs' _ _ => hf a hs'
  nested := keeps_nested
  recover := keeps_recoverExpression

end Parts

end Grammar

/-! ## Operators that wait -/

/-- The operator has been read as a token. -/
def Pending.Read (stream : TokenStream) (s : State) (p : Pending) : Prop :=
  ∃ t, s.Behind stream t ∧ p.text = t.text ∧ p.span = t.span
    ∧ ∃ level ∈ Level.table, p.binding = level.binding ∧ t.kind ∈ level.kinds

/-- All operators that wait have been read. -/
def Stacks.Read (stream : TokenStream) (c : Stacks) (s : State) : Prop :=
  ∀ p ∈ c.pending, p.Read stream s

namespace Stacks

variable {stream : TokenStream} {c : Stacks} {s s' : State}

theorem Read.mono (h : c.Read stream s) (hle : s'.ahead <:+ s.ahead) : c.Read stream s' := by
  intro p hp
  obtain ⟨t, ht, hrest⟩ := h p hp
  exact ⟨t, ht.mono hle, hrest⟩

/-- Reducing adds no operator. -/
theorem pending_settle {limit : Nat} {due : Pending → Bool} {operands : List Operand}
    {pending : List Pending} {p : Pending}
    (h : p ∈ (settle limit due operands pending).pending) : p ∈ pending := by
  fun_induction settle limit due operands pending with
  | case1 => exact h
  | case2 operands top pending hdue node rest happly hlow ih => exact List.mem_cons_of_mem _ (ih h)
  | case3 => exact List.mem_cons_of_mem _ h
  | case4 => exact List.mem_cons_of_mem _ h
  | case5 => exact h

theorem Read.reduceAbove (h : c.Read stream s) (limit binding : Nat) (assoc : Assoc) :
    (c.reduceAbove limit binding assoc).Read stream s :=
  fun p hp => h p (pending_settle hp)

theorem pending_nullCheck (limit : Nat) (negated : Bool) (stop : Nat) (c : Stacks) :
    (c.nullCheck limit negated stop).pending = c.pending := by
  unfold nullCheck
  split
  · rfl
  · split <;> rfl

end Stacks

/-- A row of the table holds the operators that it is looked up by. -/
theorem Level.mem_of_lookup {kind : Token.Kind} {fixity : Fixity} {level : Level}
    (h : Level.lookup kind fixity = some level) : level ∈ Level.table ∧ kind ∈ level.kinds := by
  have hfound := List.find?_some h
  rw [decide_eq_true_iff] at hfound
  exact ⟨List.mem_of_find?_eq_some h, hfound.2⟩

namespace Grammar

section Operators

variable {stream : TokenStream} {config : Config} {s : State} {c : Stacks}

theorem stays_checkStacks {Q : Unit → State → Prop} (hs : s.Within stream) (h : Q () s) :
    Stays stream (checkStacks config c) s Q := by
  unfold checkStacks
  split
  · exact .fail hs (.of_site trivial hs.current nofun)
  · exact .pure hs h

/-- The operator that is shifted has been read then, and those that waited wait on. -/
theorem stays_shift {role : Pending.Role} {level : Level} {fixity : Fixity}
    (heof : stream.eof.kind = .eof) (hs : s.Within stream) (hc : c.Read stream s)
    (hlevel : Level.lookup s.current.kind fixity = some level) :
    Stays stream (shift role level c) s fun c' s' => c'.Read stream s' := by
  have hne : s.current.kind ≠ .eof := Level.ne_eof_of_lookup hlevel
  obtain ⟨hmem, hkind⟩ := Level.mem_of_lookup hlevel
  have hbehind := hs.behind_advance hne heof
  refine ⟨fun hrun => ?_, fun hrun => by cases hrun⟩
  cases hrun
  refine ⟨hs.advance, s.ahead_advance, fun p hp => ?_⟩
  rcases List.mem_cons.1 hp with rfl | hp
  · exact ⟨s.current, hbehind, rfl, rfl, level, hmem, rfl, hkind⟩
  · exact hc.mono s.ahead_advance p hp

theorem stays_shiftPrefix (heof : stream.eof.kind = .eof) (hs : s.Within stream)
    (hc : c.Read stream s) :
    Stays stream (shiftPrefix c) s fun r s' => r.value.Read stream s' := by
  unfold shiftPrefix
  apply Stays.current
  split
  · next level op hlevel _ =>
    apply (stays_shift heof hs hc hlevel).bind
    intro c' s' hs' _ hc'
    exact .pure hs' hc'
  · exact .pure hs hc

theorem stays_applyNullCheck (hs : s.Within stream) (hc : c.Read stream s) :
    Stays stream (applyNullCheck config c) s fun r s' => r.value.Read stream s' := by
  unfold applyNullCheck
  apply Stays.current
  split
  · next level _ =>
    have hchecked : Stacks.Read stream ((c.reduceAbove config.maxDepth level.binding
        level.assoc).nullCheck config.maxDepth (s.current.kind = .operator .isNotNull)
        s.current.span.stop) s := by
      intro p hp
      rw [Stacks.pending_nullCheck] at hp
      exact hc.reduceAbove _ _ _ p hp
    apply (stays_checkStacks (Q := fun _ s' => s' = s) hs rfl).bind
    rintro _ s' hs' _ rfl
    refine ⟨fun hrun => ?_, fun hrun => by cases hrun⟩
    cases hrun
    exact ⟨hs'.advance, s'.ahead_advance, hchecked.mono s'.ahead_advance⟩
  · exact .pure hs hc

/-- The only rows that bind alike where one does not group are one row. -/
theorem nonAssoc_of_binding : ∀ level ∈ Level.table, ∀ level' ∈ Level.table,
    level.assoc = .nonAssoc → level'.binding = level.binding → level'.assoc = .nonAssoc := by
  decide

theorem stays_checkChain {level : Level} (hmem : level ∈ Level.table) (hs : s.Within stream)
    (hc : c.Read stream s) {Q : Unit → State → Prop} (h : Q () s) :
    Stays stream (checkChain level c) s Q := by
  unfold checkChain
  split
  · exact .pure hs h
  · next top rest hpending =>
    split
    · next hchain =>
      refine .fail hs ⟨trivial, ⟨_, hs.current, rfl⟩, ?_⟩
      rintro text span ⟨rfl, rfl⟩
      obtain ⟨t, ⟨behind, htokens, hahead⟩, htext, hspan, level', hmem', hbinding, hkind⟩ :=
        hc top (by rw [hpending]; exact List.mem_cons_self)
      have hassoc := nonAssoc_of_binding level hmem level' hmem' hchain.1
        (hbinding.symm.trans hchain.2)
      refine ⟨t, behind, s.current, htokens, ?_, rfl, ⟨level', hmem', hassoc, hkind⟩, htext, hspan⟩
      rcases List.mem_append.1 s.current_mem with hcurrent | hcurrent
      · exact List.mem_append_left _ (hahead.mem hcurrent)
      · rw [← hs.eof]
        exact List.mem_append_right _ hcurrent
    · exact .pure hs h

theorem stays_shiftInfix (heof : stream.eof.kind = .eof) (hs : s.Within stream)
    (hc : c.Read stream s) :
    Stays stream (shiftInfix config c) s fun r s' => r.value.Read stream s' := by
  unfold shiftInfix
  apply Stays.current
  split
  · next level op hlevel _ =>
    have hreduced := hc.reduceAbove config.maxDepth level.binding level.assoc
    apply (stays_checkStacks (Q := fun _ s' => s' = s) hs rfl).bind
    rintro _ s' hs' _ rfl
    apply (stays_checkChain (Q := fun _ s'' => s'' = s') (Level.mem_of_lookup hlevel).1 hs'
      hreduced rfl).bind
    rintro _ s'' hs'' _ rfl
    apply (stays_shift heof hs'' hreduced hlevel).bind
    intro c' s' hs' _ hc'
    exact .pure hs' hc'
  · exact .pure hs hc

theorem stays_round (heof : stream.eof.kind = .eof) {operand : Parser Operand}
    (hoperand : Keeps stream Operand operand) (hs : s.Within stream) (hc : c.Read stream s) :
    Stays stream (round config operand c) s fun r s' => r.value.Read stream s' := by
  unfold round
  apply (Stays.iterate (fun _ _ hs hc => stays_shiftPrefix heof hs hc) hs hc).bind
  intro shifted s₁ hs₁ _ hshifted
  apply (hoperand hs₁).bind
  intro found s₂ hs₂ hle _
  have hpushed : (shifted.pushOperand found).Read stream s₂ := hshifted.mono hle
  apply (Stays.iterate (fun _ _ hs hc => stays_applyNullCheck hs hc) hs₂ hpushed).bind
  intro checked s₃ hs₃ _ hchecked
  exact stays_shiftInfix heof hs₃ hchecked

/-- A run of operands and operators stays within the tokens if its operands do. -/
theorem keeps_operators (heof : stream.eof.kind = .eof) {operand : Parser Operand}
    (hoperand : Keeps stream Operand operand) :
    Keeps stream Expression (operators config operand) := by
  intro s hs
  have hempty : Stacks.Read stream {} s := fun p hp => by cases hp
  unfold operators
  apply (Stays.iterate (fun _ _ hs hc => stays_round heof hoperand hs hc) hs hempty).bind
  intro reached s₁ hs₁ _ _
  apply (stays_checkStacks (Q := fun _ _ => True) hs₁ trivial).bind
  intro _ s₂ hs₂ _ _
  split
  · exact .pure hs₂ trivial
  · exact keeps_recoverExpression hs₂

/-- Every reading of a query stays within its tokens. -/
theorem keeps_query (heof : stream.eof.kind = .eof) : Keeps stream Query (query config) :=
  closed_keeps.query fun {_ _} => keeps_operators heof

end Operators

end Grammar

/-- Whatever the grammar reports of a token list lies at its tokens. -/
theorem Outcome.sited_ofTokens {stream : TokenStream} (heof : stream.eof.kind = .eof)
    (config : Config) {f : Fault} (h : f ∈ (Outcome.ofTokens stream config).faults) :
    f ∈ stream.faults ∨ f.Sited stream := by
  have hstart : State.Within stream { ahead := stream.tokens, eof := stream.eof } :=
    ⟨List.suffix_refl _, rfl, List.forall_mem_nil _⟩
  unfold ofTokens at h
  split at h
  · next q s hrun =>
    rcases List.mem_append.1 h with hf | hf
    · exact .inl hf
    · exact .inr (((keeps_query heof hstart).ok hrun).1.faults f hf)
  · next fault s hrun =>
    obtain ⟨hwithin, hsited⟩ := (keeps_query heof hstart).error hrun
    rcases List.mem_append.1 h with hf | hf
    · rcases List.mem_append.1 hf with hf | hf
      · exact .inl hf
      · exact .inr (hwithin.faults f hf)
    · rw [List.mem_singleton.1 hf]
      exact .inr hsited

end Cypher
