import Cypher.Grammar.Recovery
import Cypher.Proofs.Tree.Recast

/-!
# Comparing two readings

Two runs of the grammar are compared production by production: over two
token lists, or over one of them with two configurations. As long as both
go on they stay IN STEP, and what they have read is the same once recast.
They part in one of two ways: both stop, with faults that belong together,
or the first run is CUT short where the second may go on.

What "in step", "belong together" and "cut" mean is up to the comparison.
It is LAWFUL if they are kept by the few parsers that all others are built
from, and then it holds of the whole grammar.
-/

namespace Cypher

/-- The cause with what it takes from the text recast. -/
def Cause.recast (r : Recasting) (text : String → String) : Cause → Cause
  | .chainedComparison previous span => .chainedComparison (text previous) (span.recast r)
  | cause => cause

/-- A cause that the grammar reports and never gets over. -/
def Cause.Final : Cause → Prop
  | .illegalCharacter _ | .unclosed _ | .expectedExpression => False
  | _ => True

namespace Grammar

/-- The faults on record after a run, with the one that ended it if one
did. -/
def reported : EStateM.Result Fault State α → List Fault
  | .ok _ s => s.faults
  | .error fault s => s.faults ++ [fault]

/-- The parser forgets no fault. -/
def Grows (p : Parser α) : Prop := ∀ s, s.faults <+: reported (p s)

/-- A way of comparing two runs. -/
structure Comparison where
  /-- How trees are compared. -/
  view : Recasting
  /-- How the texts of operators are compared. -/
  text : String → String
  /-- Both runs have come to the same place. -/
  inStep : State → State → Prop
  /-- Both runs have stopped, for one reason. -/
  stops : Fault → State → Fault → State → Prop
  /-- The first run has stopped with a fault, and the second reports, sooner
  or later, the faults that come last. -/
  cut : Fault → List Fault → List Fault → Prop
  /-- What the second run reports after that does not matter. -/
  cut_mono : ∀ {fault l r r'}, cut fault l r → r <+: r' → cut fault l r'

namespace Comparison

/-- What two tokens at one place have in common. -/
def token (c : Comparison) (t : Token) : Token.Kind × Span × Option String × String :=
  (t.kind, t.span.recast c.view, t.symbolicName?.map c.view.spell, c.text t.text)

/-- Two runs have ended alike, their answers compared by `f`. -/
inductive Meets (c : Comparison) (f : α → β) :
    EStateM.Result Fault State α → EStateM.Result Fault State α → Prop
  | ok {a a' s s'} (answer : f a = f a') (states : c.inStep s s') :
    Meets c f (.ok a s) (.ok a' s')
  | error {fault fault' s s'} (faults : c.stops fault s fault' s') :
    Meets c f (.error fault s) (.error fault' s')
  | cut {fault s r} (faults : c.cut fault s.faults (reported r)) :
    Meets c f (.error fault s) r

/-- Two parsers that are in step at the start end alike. -/
structure Agrees (c : Comparison) (p p' : Parser α) (f : α → β) : Prop where
  meets : ∀ {s s'}, c.inStep s s' → c.Meets f (p s) (p' s')
  grows : Grows p'

/-- The comparison is kept by the parsers that all others are built from. -/
structure Lawful (c : Comparison) (config config' : Config) : Prop where
  mono : Monotone c.view.offset
  ahead : ∀ {s s'}, c.inStep s s' → s.ahead.map c.token = s'.ahead.map c.token
  current : ∀ {s s'}, c.inStep s s' → c.token s.current = c.token s'.current
  stop : ∀ {s s'}, c.inStep s s' → c.view.offset s.stop = c.view.offset s'.stop
  depth : ∀ {s s'}, c.inStep s s' → s.depth = s'.depth
  advance : ∀ {s s'}, c.inStep s s' → c.inStep s.advance s'.advance
  /-- How deep the runs are is not compared. -/
  enter : ∀ {s s'}, c.inStep s s' → ∀ n,
    c.inStep { s with depth := n } { s' with depth := n }
  leave : ∀ {fault s fault' s'}, c.stops fault s fault' s' → ∀ n n',
    c.stops fault { s with depth := n } fault' { s' with depth := n' }
  fail : ∀ {s s' cause cause'}, c.inStep s s' → cause.Final → cause'.Final →
    cause.recast c.view c.text = cause'.recast c.view c.text →
    c.stops ⟨cause, s.current.site⟩ s ⟨cause', s'.current.site⟩ s'
  recover : c.Agrees (recoverExpression config) (recoverExpression config')
    (Expression.recast c.view)
  limit : config.maxDepth ≤ config'.maxDepth
  /-- Where the first run has less room, it may be cut short by that. -/
  refused : config.maxDepth < config'.maxDepth → ∀ {s s' r}, c.inStep s s' →
    s'.faults <+: r → c.cut ⟨.nestingTooDeep config.maxDepth, s.current.site⟩ s.faults r

end Comparison

/-! ## Growth -/

/-- The faults on record behind an operand that was got over. -/
theorem reported_skipOperand (s : State) :
    reported (skipOperand s) = s.faults ++ [⟨.expectedExpression, s.current.site⟩] :=
  State.faults_advanceBy _ _

namespace Grows

variable {α β : Type} {p : Parser α} {f : α → Parser β}

theorem bind (hp : Grows p) (hf : ∀ a, Grows (f a)) : Grows (p >>= f) := by
  intro s
  change s.faults <+: reported (EStateM.bind p f s)
  unfold EStateM.bind
  have hfirst := hp s
  cases hrun : p s with
  | ok a s' =>
    rw [hrun] at hfirst
    exact hfirst.trans (hf a s')
  | error fault s' =>
    rw [hrun] at hfirst
    exact hfirst

theorem pure (a : α) : Grows (pure a : Parser α) := fun s => List.prefix_refl s.faults

theorem fail (cause : Cause) : Grows (fail cause : Parser α) :=
  fun s => List.prefix_append s.faults _

theorem advance : Grows advance := by
  intro s
  change s.faults <+: s.advance.faults
  rw [State.faults_advance]

end Grows

namespace Comparison

variable {α β γ δ : Type} {c : Comparison} {config config' : Config}
  {p p' : Parser α} {f : α → β} {t t' : Token}

theorem kind_eq (h : c.token t = c.token t') : t.kind = t'.kind := congrArg Prod.fst h

theorem span_eq (h : c.token t = c.token t') :
    t.span.recast c.view = t'.span.recast c.view :=
  congrArg (·.2.1) h

theorem start_eq (h : c.token t = c.token t') :
    c.view.offset t.span.start = c.view.offset t'.span.start :=
  congrArg Span.start (span_eq h)

theorem stop_eq (h : c.token t = c.token t') :
    c.view.offset t.span.stop = c.view.offset t'.span.stop :=
  congrArg Span.stop (span_eq h)

theorem name_eq (h : c.token t = c.token t') :
    t.symbolicName?.map c.view.spell = t'.symbolicName?.map c.view.spell :=
  congrArg (·.2.2.1) h

theorem text_eq (h : c.token t = c.token t') : c.text t.text = c.text t'.text :=
  congrArg (·.2.2.2) h

/-! ## Composition -/

namespace Agrees

theorem pure {a a' : α} (h : f a = f a') : c.Agrees (pure a) (pure a') f where
  meets hstep := .ok h hstep
  grows := .pure a'

theorem bind {k k' : α → Parser γ} {g : γ → δ} (hp : c.Agrees p p' f)
    (hk : ∀ a a', f a = f a' → c.Agrees (k a) (k' a') g) :
    c.Agrees (p >>= k) (p' >>= k') g where
  grows := hp.grows.bind fun a' => (hk a' a' rfl).grows
  meets {s s'} hstep := by
    change c.Meets g (EStateM.bind p k s) (EStateM.bind p' k' s')
    unfold EStateM.bind
    have hfirst := hp.meets hstep
    cases hrun : p s with
    | ok a s₁ =>
      rw [hrun] at hfirst
      generalize p' s' = r' at hfirst
      cases hfirst with
      | ok answer states => exact (hk _ _ answer).meets states
    | error fault s₁ =>
      rw [hrun] at hfirst
      generalize p' s' = r' at hfirst
      cases hfirst with
      | error faults => exact .error faults
      | cut faults =>
        apply Meets.cut
        apply c.cut_mono faults
        -- Whatever the second run goes on with, it forgets no fault.
        cases r' with
        | ok a' s₁' => exact (hk a' a' rfl).grows s₁'
        | error fault' s₁' => exact List.prefix_refl _

theorem mono {g : α → γ} (hp : c.Agrees p p' f) (h : ∀ a a', f a = f a' → g a = g a') :
    c.Agrees p p' g where
  grows := hp.grows
  meets {s s'} hstep := by
    have hmeets := hp.meets hstep
    generalize p s = r, p' s' = r' at hmeets
    cases hmeets with
    | ok answer states => exact .ok (h _ _ answer) states
    | error faults => exact .error faults
    | cut faults => exact .cut faults

/-- A sequence whose second part only puts the answer of the first into
another shape. -/
theorem map {g : γ → δ} {shape shape' : α → γ} (hp : c.Agrees p p' f)
    (h : ∀ a a', f a = f a' → g (shape a) = g (shape' a')) :
    c.Agrees (p >>= fun a => Pure.pure (shape a)) (p' >>= fun a => Pure.pure (shape' a)) g :=
  hp.bind fun a a' ha => .pure (h a a' ha)

/-- A parser that only looks. -/
theorem peek {get : State → α} (hp : ∀ s, p s = .ok (get s) s)
    (h : ∀ {s s'}, c.inStep s s' → f (get s) = f (get s')) : c.Agrees p p f where
  grows s := by
    rw [hp s]
    exact List.prefix_refl _
  meets {s s'} hstep := by
    rw [hp s, hp s']
    exact .ok (h hstep) hstep

/-! ## Tokens -/

section Tokens

variable (law : c.Lawful config config') {kind : Token.Kind}

include law

theorem current : c.Agrees Grammar.current Grammar.current c.token :=
  peek (fun _ => rfl) law.current

theorem lookAhead : c.Agrees Grammar.lookAhead Grammar.lookAhead (List.map c.token) :=
  peek (fun _ => rfl) law.ahead

theorem start : c.Agrees Grammar.start Grammar.start c.view.offset :=
  peek (fun _ => rfl) fun hstep => start_eq (law.current hstep)

theorem spanFrom {begin begin' : Nat} (h : c.view.offset begin = c.view.offset begin') :
    c.Agrees (Grammar.spanFrom begin) (Grammar.spanFrom begin') (Span.recast c.view) where
  grows s := List.prefix_refl s.faults
  meets {s s'} hstep := by
    apply Meets.ok _ hstep
    simp only [Span.recast, law.mono.map_max, law.stop hstep, h]

theorem advance : c.Agrees Grammar.advance Grammar.advance id where
  grows := .advance
  meets hstep := .ok rfl (law.advance hstep)

theorem fail {cause cause' : Cause} (hfinal : cause.Final) (hfinal' : cause'.Final)
    (h : cause.recast c.view c.text = cause'.recast c.view c.text) :
    c.Agrees (fail cause) (fail cause') f where
  grows := .fail cause'
  meets hstep := .error (law.fail hstep hfinal hfinal' h)

/-- One cause on both sides. -/
theorem fail_same {cause : Cause} (hfinal : cause.Final) :
    c.Agrees (Grammar.fail cause) (Grammar.fail cause) f :=
  fail law hfinal hfinal rfl

theorem consume : c.Agrees (Grammar.consume kind) (Grammar.consume kind) id where
  grows s := by
    unfold Grammar.consume
    split
    · exact Grows.advance s
    · exact List.prefix_refl s.faults
  meets {s s'} hstep := by
    unfold Grammar.consume
    rw [kind_eq (law.current hstep)]
    split
    · exact .ok rfl (law.advance hstep)
    · exact .ok rfl hstep

theorem expect : c.Agrees (Grammar.expect kind) (Grammar.expect kind) id where
  grows s := by
    unfold Grammar.expect
    split
    · exact Grows.advance s
    · exact Grows.fail _ s
  meets {s s'} hstep := by
    unfold Grammar.expect
    rw [kind_eq (law.current hstep)]
    split
    · exact .ok rfl (law.advance hstep)
    · exact .error (law.fail hstep trivial trivial rfl)

/-! ## Names -/

theorem variableName {role : VariableRole} :
    c.Agrees (Grammar.variableName role) (Grammar.variableName role) id where
  grows s := by
    unfold Grammar.variableName
    split
    · exact Grows.advance s
    · exact Grows.fail _ s
  meets {s s'} hstep := by
    unfold Grammar.variableName
    rw [kind_eq (law.current hstep)]
    split
    · exact .ok rfl (law.advance hstep)
    · exact .error (law.fail hstep trivial trivial rfl)

theorem optionalVariable : c.Agrees Grammar.optionalVariable Grammar.optionalVariable id where
  grows s := by
    unfold Grammar.optionalVariable
    split
    · exact Grows.advance s
    · exact List.prefix_refl s.faults
  meets {s s'} hstep := by
    unfold Grammar.optionalVariable
    rw [kind_eq (law.current hstep)]
    split
    · exact .ok rfl (law.advance hstep)
    · exact .ok rfl hstep

/-- A name that may be a reserved word is compared as it is respelled. -/
theorem symbolicName {role : NameRole} :
    c.Agrees (Grammar.symbolicName role) (Grammar.symbolicName role) c.view.spell where
  grows s := by
    unfold Grammar.symbolicName
    split
    · exact Grows.advance s
    · exact Grows.fail _ s
  meets {s s'} hstep := by
    have hname := name_eq (law.current hstep)
    unfold Grammar.symbolicName
    cases hs : s.current.symbolicName? with
    | some n =>
      rw [hs, Option.map_some, eq_comm, Option.map_eq_some_iff] at hname
      obtain ⟨n', hs', heq⟩ := hname
      rw [hs']
      exact .ok heq.symm (law.advance hstep)
    | none =>
      rw [hs, Option.map_none, eq_comm, Option.map_eq_none_iff] at hname
      rw [hname]
      exact .error (law.fail hstep trivial trivial rfl)

end Tokens

/-! ## Repetition -/

/-- What a round has come to, compared by `f`. -/
def roundView (f : α → β) : ForInStep α → ForInStep β
  | .done a => .done (f a)
  | .yield a => .yield (f a)

section Repetition

variable (law : c.Lawful config config') {kind : Token.Kind}
  {step step' : Parser (Option α)} {item item' : Parser α}

theorem manyUpTo (h : c.Agrees step step' (Option.map f)) (n : Nat) :
    c.Agrees (Grammar.manyUpTo step n) (Grammar.manyUpTo step' n) (List.map f) := by
  induction n with
  | zero => exact pure rfl
  | succ n ih =>
    apply h.bind
    intro o o' ho
    cases o with
    | none =>
      cases o' with
      | none => exact pure rfl
      | some a' => cases ho
    | some a =>
      cases o' with
      | none => cases ho
      | some a' =>
        have ha : f a = f a' := Option.some.inj ho
        apply ih.map
        intro as as' has
        rw [List.map_cons, List.map_cons, ha, has]

include law in
theorem many (h : c.Agrees step step' (Option.map f)) :
    c.Agrees (Grammar.many step) (Grammar.many step') (List.map f) := by
  apply (lookAhead law).bind
  intro ahead ahead' hahead
  have hlength : ahead.length = ahead'.length := by
    simpa only [List.length_map] using congrArg List.length hahead
  rw [hlength]
  exact manyUpTo h _

theorem iterateUpTo {step step' : α → Parser (ForInStep α)}
    (h : ∀ a a', f a = f a' → c.Agrees (step a) (step' a') (roundView f)) (n : Nat) {a a' : α}
    (ha : f a = f a') :
    c.Agrees (Grammar.iterateUpTo step n a) (Grammar.iterateUpTo step' n a') f := by
  induction n generalizing a a' with
  | zero => exact pure ha
  | succ n ih =>
    apply (h a a' ha).bind
    intro r r' hr
    cases r with
    | done b =>
      cases r' with
      | done b' => exact pure (ForInStep.done.inj hr)
      | yield b' => cases hr
    | yield b =>
      cases r' with
      | done b' => cases hr
      | yield b' => exact ih (ForInStep.yield.inj hr)

include law in
theorem iterate {step step' : α → Parser (ForInStep α)}
    (h : ∀ a a', f a = f a' → c.Agrees (step a) (step' a') (roundView f)) {a a' : α}
    (ha : f a = f a') : c.Agrees (Grammar.iterate step a) (Grammar.iterate step' a') f := by
  apply (lookAhead law).bind
  intro ahead ahead' hahead
  have hlength : ahead.length = ahead'.length := by
    simpa only [List.length_map] using congrArg List.length hahead
  rw [hlength]
  exact iterateUpTo h _ ha

include law

theorem behind (h : c.Agrees p p' f) :
    c.Agrees (Grammar.behind kind p) (Grammar.behind kind p') (Option.map f) := by
  apply (consume law).bind
  intro due due' hdue
  rw [show due = due' from hdue]
  split
  · exact h.map fun a a' ha => congrArg some ha
  · exact pure rfl

theorem unlessDue (h : c.Agrees p p' f) :
    c.Agrees (Grammar.unlessDue kind p) (Grammar.unlessDue kind p') (Option.map f) := by
  apply (current law).bind
  intro t t' ht
  rw [kind_eq ht]
  split
  · exact pure rfl
  · exact h.map fun a a' ha => congrArg some ha

theorem commaSeparated (h : c.Agrees item item' f) :
    c.Agrees (Grammar.commaSeparated item) (Grammar.commaSeparated item') (List.map f) := by
  apply h.bind
  intro first first' hfirst
  apply ((h.behind law).many law).map
  intro others others' hothers
  rw [List.map_cons, List.map_cons, hfirst, hothers]

theorem commaSeparatedUntil (h : c.Agrees item item' f) :
    c.Agrees (Grammar.commaSeparatedUntil kind item) (Grammar.commaSeparatedUntil kind item')
      (List.map f) := by
  apply ((h.commaSeparated law).unlessDue law).map
  intro o o' ho
  cases o with
  | none =>
    cases o' with
    | none => rfl
    | some as' => cases ho
  | some as =>
    cases o' with
    | none => cases ho
    | some as' => exact Option.some.inj ho

theorem labelList :
    c.Agrees Grammar.labelList Grammar.labelList (List.map c.view.spell) := by
  apply (((symbolicName law).behind law).many law).bind
  intro labels labels' hlabels
  have hempty : labels.isEmpty = labels'.isEmpty := by
    simpa only [List.isEmpty_map] using congrArg List.isEmpty hlabels
  rw [hempty]
  split
  · exact fail_same law trivial
  · exact pure hlabels

end Repetition

/-! ## Nesting -/

section Nesting

variable (law : c.Lawful config config')

include law

theorem tooDeep : c.Agrees (Grammar.tooDeep config) (Grammar.tooDeep config') f where
  grows := .fail _
  meets {s s'} hstep := by
    rcases law.limit.eq_or_lt with heq | hlt
    · unfold Grammar.tooDeep
      rw [heq]
      exact .error (law.fail hstep trivial trivial rfl)
    · exact .cut (law.refused hlt hstep (List.prefix_append _ _))

theorem checkHeight {height height' : Nat} (h : height = height') :
    c.Agrees (Grammar.checkHeight config height) (Grammar.checkHeight config' height') id := by
  subst h
  unfold Grammar.checkHeight
  by_cases hleft : height ≤ config.maxDepth
  · rw [if_pos hleft, if_pos (hleft.trans law.limit)]
    exact pure rfl
  · rw [if_neg hleft]
    by_cases hright : height ≤ config'.maxDepth
    · rw [if_pos hright]
      -- Only the first run has run out of room.
      have hlt : config.maxDepth < config'.maxDepth := by omega
      exact ⟨fun hstep => .cut (law.refused hlt hstep (List.prefix_refl _)), .pure ()⟩
    · rw [if_neg hright]
      exact tooDeep law

theorem nested (h : c.Agrees p p' f) :
    c.Agrees (Grammar.nested config p) (Grammar.nested config' p') f := by
  have hgrows : Grows (Grammar.nested config' p') := by
    intro s
    unfold Grammar.nested
    split
    · have hinner := h.grows { s with depth := s.depth + 1 }
      generalize p' { s with depth := s.depth + 1 } = r at hinner
      cases r with
      | ok a s₁ => exact hinner
      | error fault s₁ => exact hinner
    · exact Grows.fail _ s
  refine ⟨fun {s s'} hstep => ?_, hgrows⟩
  have hdepth := law.depth hstep
  by_cases hroom : s.depth < config.maxDepth
  · have hroom' : s'.depth < config'.maxDepth := by
      have := law.limit
      omega
    have hinner := h.meets (law.enter hstep (s.depth + 1))
    rw [hdepth] at hinner
    unfold Grammar.nested
    rw [if_pos hroom, if_pos hroom', hdepth]
    generalize p { s with depth := s'.depth + 1 } = r, p' { s' with depth := s'.depth + 1 } = r'
      at hinner
    cases hinner with
    | @ok a a' s₁ s₁' answer states =>
      show c.Meets f (.ok a { s₁ with depth := s₁.depth - 1 })
        (.ok a' { s₁' with depth := s₁'.depth - 1 })
      rw [law.depth states]
      exact .ok answer (law.enter states _)
    | error faults => exact .error (law.leave faults _ _)
    | cut faults =>
      apply Meets.cut
      cases r' with
      | ok a' s₁' => exact faults
      | error fault' s₁' => exact faults
  · have hleft : Grammar.nested config p s = Grammar.tooDeep config s := if_neg hroom
    rw [hleft]
    rcases law.limit.eq_or_lt with heq | hlt
    · have hroom' : ¬ s'.depth < config'.maxDepth := by omega
      have hright : Grammar.nested config' p' s' = Grammar.tooDeep config' s' := if_neg hroom'
      rw [hright]
      exact (tooDeep law).meets hstep
    · exact .cut (law.refused hlt hstep (hgrows s'))

end Nesting

end Agrees

end Comparison

end Grammar

end Cypher
