import Cypher.Grammar.State
import Cypher.Proofs.Progress
import Cypher.Proofs.Tree.Formed

/-!
# What reading ensures

`Reads` says what a parser does with the tokens of a tree. Here it is the
other way round: the tokens are ANY, and `Ensures` says what is known of a
run once it is over. However it ends, the reading has only moved on: what
is ahead is the end of what was ahead, no fault is forgotten, the depth is
what it was. If it succeeds, something holds of the answer.

What holds of the answer may rest on two things. The tokens must be such
as a lexer makes; and if `clean` is asked for, no fault may be on record
in the end. A fault that is got over puts a hole into the tree, so `clean`
is what tells the trees without holes.

In a sequence the answer of the first part is known to be good only when
the whole has been read to its end: a fault may come later. So the second
part is not read UNDER that knowledge; it ensures an implication from it.
-/

namespace Cypher

/-- The token carries what a lexer puts into a token of its kind. -/
def Token.Sound (t : Token) : Prop :=
  match t.kind with
  | .integer digits => Digits digits.toList
  | .float digits => PointedDigits digits.toList
  | .parameter name => Lexeme.isWord name.toList
  | _ => True

namespace Grammar

/-- All that is ahead was made by a lexer, and the end of the text is behind it. -/
structure State.Sound (s : State) : Prop where
  ahead : ∀ t ∈ s.ahead, t.Sound
  proper : ∀ t ∈ s.ahead, t.kind ≠ .eof
  eof : s.eof.kind = .eof

/-- The second state is reached from the first by reading on. -/
structure State.Advances (s s' : State) : Prop where
  ahead : s'.ahead <:+ s.ahead
  eof : s'.eof = s.eof
  faults : s.faults <+: s'.faults
  depth : s'.depth = s.depth

namespace State.Advances

variable {s s' s'' : State}

theorem refl (s : State) : s.Advances s :=
  ⟨List.suffix_refl _, rfl, List.prefix_refl _, rfl⟩

theorem trans (h : s.Advances s') (h' : s'.Advances s'') : s.Advances s'' :=
  ⟨h'.ahead.trans h.ahead, h'.eof.trans h.eof, h.faults.trans h'.faults,
    h'.depth.trans h.depth⟩

theorem sound (h : s.Advances s') (hs : s.Sound) : s'.Sound :=
  ⟨fun t ht => hs.ahead t (h.ahead.mem ht), fun t ht => hs.proper t (h.ahead.mem ht),
    by rw [h.eof, hs.eof]⟩

/-- No fault in the end means that there was none on the way. -/
theorem faults_nil (h : s.Advances s') (hs : s'.faults = []) : s.faults = [] :=
  List.prefix_nil.1 (hs ▸ h.faults)

/-- One token is consumed, or none if none is ahead. -/
theorem advance (s : State) : s.Advances s.advance := by
  unfold State.advance
  split
  · exact refl s
  · next t rest hahead =>
    refine ⟨?_, rfl, List.prefix_refl _, rfl⟩
    rw [hahead]
    exact List.suffix_cons t rest

theorem advanceBy (n : Nat) (s : State) : s.Advances (s.advanceBy n) := by
  induction n generalizing s with
  | zero => exact refl s
  | succ n ih => exact (advance s).trans (ih s.advance)

end State.Advances

theorem State.Sound.current {s : State} (hs : s.Sound) : s.current.Sound := by
  unfold State.current
  cases hahead : s.ahead with
  | nil =>
    rw [List.headD_nil, Token.Sound, hs.eof]
    trivial
  | cons t rest => exact hs.ahead t (by simp [hahead])

/-- The parser only moves on, and what it answers has the property if the
tokens are sound and, where `clean` is asked for, no fault is on record. -/
structure Ensures (clean : Prop) (p : Parser α) (Q : α → Prop) : Prop where
  ok : ∀ {s a s'}, p s = .ok a s' →
    s.Advances s' ∧ (s.Sound → (clean → s'.faults = []) → Q a)
  error : ∀ {s fault s'}, p s = .error fault s' → s.Advances s'

namespace Ensures

variable {α β : Type} {clean : Prop} {p : Parser α} {f : α → Parser β} {Q Q' : α → Prop}
  {R : β → Prop} {kind : Token.Kind}

/-! ## Composition -/

theorem pure {a : α} (h : Q a) : Ensures clean (pure a : Parser α) Q where
  ok h' := by
    cases h'
    exact ⟨.refl _, fun _ _ => h⟩
  error h' := by cases h'

theorem bind (hp : Ensures clean p Q)
    (hf : ∀ a, Ensures clean (f a) fun b => Q a → R b) : Ensures clean (p >>= f) R where
  ok {s b s''} h := by
    change EStateM.bind p f s = _ at h
    unfold EStateM.bind at h
    cases hrun : p s with
    | ok a s' =>
      rw [hrun] at h
      obtain ⟨hadvances, hQ⟩ := hp.ok hrun
      obtain ⟨hadvances', hR⟩ := (hf a).ok h
      refine ⟨hadvances.trans hadvances', fun hs hclean => ?_⟩
      exact hR (hadvances.sound hs) hclean
        (hQ hs fun hc => hadvances'.faults_nil (hclean hc))
    | error fault s' =>
      rw [hrun] at h
      cases h
  error {s fault s''} h := by
    change EStateM.bind p f s = _ at h
    unfold EStateM.bind at h
    cases hrun : p s with
    | ok a s' =>
      rw [hrun] at h
      exact (hp.ok hrun).1.trans ((hf a).error h)
    | error fault s' =>
      rw [hrun] at h
      cases h
      exact hp.error hrun

theorem mono (hp : Ensures clean p Q) (h : ∀ a, Q a → Q' a) : Ensures clean p Q' :=
  ⟨fun hrun => ⟨(hp.ok hrun).1, fun hs hclean => h _ ((hp.ok hrun).2 hs hclean)⟩, hp.error⟩

/-- A sequence whose second part does not need what the first ensures. -/
theorem next (hp : Ensures clean p Q) (hf : ∀ a, Ensures clean (f a) R) :
    Ensures clean (p >>= f) R :=
  hp.bind fun a => (hf a).mono fun _ hb _ => hb

theorem map {g : α → β} (hp : Ensures clean p Q) (h : ∀ a, Q a → R (g a)) :
    Ensures clean (p >>= fun a => Pure.pure (g a)) R :=
  hp.bind fun a => .pure (h a)

/-! ## Tokens -/

/-- A parser that consumes nothing and cannot fail. -/
theorem peek {p : Parser α} {get : State → α} (hp : ∀ s, p s = .ok (get s) s)
    (h : ∀ s, s.Sound → Q (get s)) : Ensures clean p Q where
  ok {s a s'} hrun := by
    rw [hp s] at hrun
    cases hrun
    exact ⟨.refl s, fun hs _ => h s hs⟩
  error {s fault s'} hrun := by
    rw [hp s] at hrun
    cases hrun

/-- A part that is read only where the tokens ahead pass a test ensures also what the test
tells of it. -/
theorem ifAhead {test : List Token → Bool} {other : Parser β} {T : α → Prop}
    (hp : Ensures clean p Q)
    (htold : ∀ {s a s'}, s.Sound → test s.ahead = true → p s = .ok a s' →
      (clean → s'.faults = []) → T a)
    (hf : ∀ a, Ensures clean (f a) fun b => T a → Q a → R b) (hother : Ensures clean other R) :
    Ensures clean (lookAhead >>= fun ahead => if test ahead then p >>= f else other) R where
  ok {s b s'} hrun := by
    change (if test s.ahead = true then p >>= f else other) s = _ at hrun
    split at hrun
    · next htest =>
      obtain ⟨a, s₁, hfirst, hrest⟩ := bind_eq_ok hrun
      obtain ⟨hadvances, hQ⟩ := hp.ok hfirst
      obtain ⟨hadvances', hR⟩ := (hf a).ok hrest
      refine ⟨hadvances.trans hadvances', fun hs hclean => ?_⟩
      have hclean₁ (hc : clean) : s₁.faults = [] := hadvances'.faults_nil (hclean hc)
      exact hR (hadvances.sound hs) hclean (htold hs htest hfirst hclean₁) (hQ hs hclean₁)
    · exact hother.ok hrun
  error {s fault s'} hrun := by
    change (if test s.ahead = true then p >>= f else other) s = _ at hrun
    split at hrun
    · exact (hp.next fun a => (hf a).mono fun _ _ => trivial).error hrun
    · exact hother.error hrun

theorem current : Ensures clean current Token.Sound :=
  peek (fun _ => rfl) fun _ hs => hs.current

theorem lookAhead : Ensures clean lookAhead fun _ => True :=
  peek (fun _ => rfl) fun _ _ => trivial

theorem start : Ensures clean start fun _ => True :=
  peek (fun _ => rfl) fun _ _ => trivial

theorem spanFrom {begin : Nat} : Ensures clean (spanFrom begin) fun _ => True :=
  peek (fun _ => rfl) fun _ _ => trivial

theorem advance : Ensures clean advance fun _ => True where
  ok h := by
    cases h
    exact ⟨.advance _, fun _ _ => trivial⟩
  error h := by cases h

theorem fail {cause : Cause} : Ensures clean (fail cause : Parser α) Q where
  ok h := by cases h
  error h := by
    cases h
    exact .refl _

/-- A parser that decides by the state what it answers, and whether it
consumes the token due next. -/
theorem ofStep (h : ∀ s, (∃ a, Q a ∧ (p s = .ok a s.advance ∨ p s = .ok a s))
    ∨ ∃ fault, p s = .error fault s) : Ensures clean p Q where
  ok {s a s'} hrun := by
    rcases h s with ⟨b, hb, hstep | hstep⟩ | ⟨fault, hstep⟩
    · rw [hstep] at hrun
      cases hrun
      exact ⟨.advance s, fun _ _ => hb⟩
    · rw [hstep] at hrun
      cases hrun
      exact ⟨.refl s, fun _ _ => hb⟩
    · rw [hstep] at hrun
      cases hrun
  error {s fault s'} hrun := by
    rcases h s with ⟨b, hb, hstep | hstep⟩ | ⟨fault, hstep⟩
    · rw [hstep] at hrun
      cases hrun
    · rw [hstep] at hrun
      cases hrun
    · rw [hstep] at hrun
      cases hrun
      exact .refl s

theorem consume : Ensures clean (consume kind) fun _ => True := by
  refine ofStep fun s => .inl ?_
  unfold Grammar.consume
  split
  · exact ⟨_, trivial, .inl rfl⟩
  · exact ⟨_, trivial, .inr rfl⟩

theorem expect : Ensures clean (expect kind) fun _ => True := by
  refine ofStep fun s => ?_
  unfold Grammar.expect
  split
  · exact .inl ⟨_, trivial, .inl rfl⟩
  · exact .inr ⟨_, rfl⟩

/-! ## Names -/

theorem variableName {role : VariableRole} :
    Ensures clean (variableName role) fun _ => True := by
  refine ofStep fun s => ?_
  unfold Grammar.variableName
  split
  · exact .inl ⟨_, trivial, .inl rfl⟩
  · exact .inr ⟨_, rfl⟩

theorem optionalVariable : Ensures clean optionalVariable fun _ => True := by
  refine ofStep fun s => .inl ?_
  unfold Grammar.optionalVariable
  split
  · exact ⟨_, trivial, .inl rfl⟩
  · exact ⟨_, trivial, .inr rfl⟩

theorem symbolicName {role : NameRole} :
    Ensures clean (symbolicName role) fun _ => True := by
  refine ofStep fun s => ?_
  unfold Grammar.symbolicName
  split
  · exact .inl ⟨_, trivial, .inl rfl⟩
  · exact .inr ⟨_, rfl⟩

/-! ## Repetition -/

section Repetition

variable {step : Parser (Option α)} {item : Parser α}

/-- Whatever every round ensures of its answer holds of all answers. -/
theorem many (h : Ensures clean step fun o => ∀ a ∈ o, Q a) :
    Ensures clean (many step) fun as => ∀ a ∈ as, Q a := by
  have hrounds (n : Nat) : Ensures clean (manyUpTo step n) fun as => ∀ a ∈ as, Q a := by
    induction n with
    | zero => exact pure (List.forall_mem_nil _)
    | succ n ih =>
      unfold manyUpTo
      refine h.bind fun o => ?_
      cases o with
      | none => exact pure fun _ => List.forall_mem_nil _
      | some a => exact ih.map fun as has ha => List.forall_mem_cons.2 ⟨ha a rfl, has⟩
  unfold Grammar.many
  exact lookAhead.next fun ahead => hrounds _

/-- What holds at the start, and is kept by every round, holds at the end. -/
theorem iterate {γ : Type} {step : γ → Parser (ForInStep γ)} {I : γ → Prop}
    (h : ∀ c, Ensures clean (step c) fun r => I c → I r.run) (c : γ) :
    Ensures clean (iterate step c) fun b => I c → I b := by
  have hrounds (n : Nat) (c : γ) :
      Ensures clean (iterateUpTo step n c) fun b => I c → I b := by
    induction n generalizing c with
    | zero => exact pure id
    | succ n ih =>
      unfold iterateUpTo
      refine (h c).bind fun r => ?_
      cases r with
      | done b => exact pure id
      | yield b => exact (ih b).mono fun b' hb' hb hc => hb' (hb hc)
  unfold Grammar.iterate
  exact lookAhead.next fun ahead => hrounds _ c

theorem behind (h : Ensures clean p Q) :
    Ensures clean (behind kind p) fun o => ∀ a ∈ o, Q a := by
  unfold Grammar.behind
  refine consume.next fun due => ?_
  split
  · exact h.map fun a ha b hb => Option.some.inj hb ▸ ha
  · exact pure fun a ha => by cases ha

theorem unlessDue (h : Ensures clean p Q) :
    Ensures clean (unlessDue kind p) fun o => ∀ a ∈ o, Q a := by
  unfold Grammar.unlessDue
  refine current.next fun t => ?_
  split
  · exact pure fun a ha => by cases ha
  · exact h.map fun a ha b hb => Option.some.inj hb ▸ ha

/-- Items with commas between them are not none. -/
theorem commaSeparated (h : Ensures clean item Q) :
    Ensures clean (commaSeparated item) fun as => as ≠ [] ∧ ∀ a ∈ as, Q a := by
  unfold Grammar.commaSeparated
  refine h.bind fun first => ?_
  exact h.behind.many.map fun others hothers hfirst =>
    ⟨List.cons_ne_nil _ _, List.forall_mem_cons.2 ⟨hfirst, hothers⟩⟩

theorem commaSeparatedUntil (h : Ensures clean item Q) :
    Ensures clean (commaSeparatedUntil kind item) fun as => ∀ a ∈ as, Q a := by
  unfold Grammar.commaSeparatedUntil
  refine h.commaSeparated.unlessDue.map fun o ho => ?_
  cases o with
  | none => exact List.forall_mem_nil _
  | some as => exact (ho as rfl).2

theorem labelList : Ensures clean labelList (· ≠ []) := by
  unfold Grammar.labelList
  refine symbolicName.behind.many.next fun labels => ?_
  split
  · exact fail
  · next hne =>
    refine pure ?_
    rintro rfl
    exact hne rfl

end Repetition

/-! ## Nesting -/

theorem nested {config : Config} (h : Ensures clean p Q) :
    Ensures clean (nested config p) Q where
  ok {s a s'} hrun := by
    unfold Grammar.nested at hrun
    split at hrun
    · split at hrun
      · next a' s₁ hinner =>
        cases hrun
        obtain ⟨⟨hahead, heof, hfaults, hdepth⟩, hQ⟩ := h.ok hinner
        refine ⟨⟨hahead, heof, hfaults, by simp [hdepth]⟩, fun hs hclean => ?_⟩
        exact hQ ⟨hs.ahead, hs.proper, hs.eof⟩ hclean
      · cases hrun
    · cases hrun
  error {s fault s'} hrun := by
    unfold Grammar.nested at hrun
    split at hrun
    · split at hrun
      · cases hrun
      · next fault' s₁ hinner =>
        cases hrun
        obtain ⟨hahead, heof, hfaults, hdepth⟩ := h.error hinner
        exact ⟨hahead, heof, hfaults, by simp [hdepth]⟩
    · cases hrun
      exact .refl s

theorem checkHeight {config : Config} {height : Nat} :
    Ensures clean (checkHeight config height) fun _ => height ≤ config.maxDepth := by
  unfold Grammar.checkHeight
  split
  · next h => exact pure h
  · exact fail

end Ensures

end Grammar

end Cypher
