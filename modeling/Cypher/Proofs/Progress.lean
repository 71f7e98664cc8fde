import Cypher.Grammar.State

/-!
# Reading on

No parser goes back: what is ahead afterwards is no more than what was ahead
before. A loop whose rounds each consume a token is therefore never cut short
by the bound on its rounds, and is the same as its first round with the loop
again behind it.
-/

namespace Cypher.Grammar

/-! ## Reading on -/

/-- The second state lies further on in the same text. -/
structure State.Reaches (s s' : State) : Prop where
  length : s'.ahead.length ≤ s.ahead.length
  eof : s'.eof = s.eof

namespace State.Reaches

variable {s s' s'' : State}

theorem refl (s : State) : s.Reaches s := ⟨Nat.le_refl _, rfl⟩

theorem trans (h : s.Reaches s') (h' : s'.Reaches s'') : s.Reaches s'' :=
  ⟨Nat.le_trans h'.length h.length, h'.eof.trans h.eof⟩

theorem advance (s : State) : s.Reaches s.advance := by
  unfold State.advance
  split
  · exact refl s
  · next hahead => exact ⟨by rw [hahead]; exact Nat.le_succ _, rfl⟩

theorem advanceBy (n : Nat) (s : State) : s.Reaches (s.advanceBy n) := by
  induction n generalizing s with
  | zero => exact refl s
  | succ n ih => exact (advance s).trans (ih s.advance)

end State.Reaches

/-- The parser only reads on. -/
def Proceeds (p : Parser α) : Prop := ∀ s a s', p s = .ok a s' → s.Reaches s'

section Composition

variable {α β : Type} {p : Parser α} {f : α → Parser β} {s s' : State} {a : α} {fault : Fault}

theorem bind_ok (h : p s = .ok a s') : (p >>= f) s = f a s' := by
  show EStateM.bind p f s = _
  rw [EStateM.bind, h]

theorem bind_error (h : p s = .error fault s') : (p >>= f) s = .error fault s' := by
  show EStateM.bind p f s = _
  rw [EStateM.bind, h]

theorem bind_congr_left {p' : Parser α} (h : p s = p' s') : (p >>= f) s = (p' >>= f) s' := by
  show EStateM.bind p f s = EStateM.bind p' f s'
  unfold EStateM.bind
  rw [h]

/-- A sequence that succeeds is made of two parts that do. -/
theorem bind_eq_ok {b : β} (h : (p >>= f) s = .ok b s') :
    ∃ a s₁, p s = .ok a s₁ ∧ f a s₁ = .ok b s' := by
  cases hp : p s with
  | ok a s₁ => exact ⟨a, s₁, rfl, by rw [← h, bind_ok hp]⟩
  | error fault s₁ =>
    rw [bind_error hp] at h
    cases h

namespace Proceeds

theorem bind (hp : Proceeds p) (hf : ∀ a, Proceeds (f a)) : Proceeds (p >>= f) := by
  intro s b s' h
  obtain ⟨a, s₁, hfirst, hsecond⟩ := bind_eq_ok h
  exact (hp _ _ _ hfirst).trans (hf a _ _ _ hsecond)

theorem pure (a : α) : Proceeds (pure a : Parser α) := by
  intro s b s' h
  cases h
  exact .refl s

theorem fail (cause : Cause) : Proceeds (fail cause : Parser α) := by
  intro s a s' h
  cases h

theorem current : Proceeds current := by
  intro s b s' h
  cases h
  exact .refl s

theorem advance : Proceeds advance := by
  intro s b s' h
  cases h
  exact .advance s

theorem iterateUpTo {step : α → Parser (ForInStep α)} (hstep : ∀ a, Proceeds (step a)) (n : Nat)
    (a : α) : Proceeds (iterateUpTo step n a) := by
  induction n generalizing a with
  | zero => exact pure a
  | succ n ih =>
    apply (hstep a).bind
    intro r
    cases r with
    | done b => exact pure b
    | yield b => exact ih b

theorem iterate {step : α → Parser (ForInStep α)} (hstep : ∀ a, Proceeds (step a)) (a : α) :
    Proceeds (iterate step a) := fun s => iterateUpTo hstep (s.ahead.length + 1) a s

end Proceeds

end Composition

/-! ## Loops that consume -/

/-- Only the end of the text has no token to consume. -/
def State.Ended (s : State) : Prop := s.eof.kind = .eof

/-- The token due next is one of those ahead, and is consumed. -/
theorem State.length_advance {s : State} (hs : s.Ended) (h : s.current.kind ≠ .eof) :
    s.advance.ahead.length < s.ahead.length := by
  unfold State.current at h
  unfold State.advance
  cases hahead : s.ahead with
  | nil =>
    rw [hahead] at h
    exact absurd hs h
  | cons t rest => exact Nat.lt_succ_self _

theorem State.Reaches.ended {s s' : State} (h : s.Reaches s') (hs : s.Ended) : s'.Ended := by
  unfold State.Ended at hs ⊢
  rw [h.eof, hs]

/-- A round that does not end the loop consumes something. -/
def Consumes (step : α → Parser (ForInStep α)) : Prop :=
  ∀ s a b s', s.Ended → step a s = .ok (.yield b) s' → s'.ahead.length < s.ahead.length

section Loops

variable {α β : Type} {step step' : α → Parser (ForInStep α)}

/-- Loops agree whose rounds do, and the bounds on their rounds do not matter. -/
theorem iterateUpTo_congr (hstep : ∀ a, Proceeds (step a)) (hconsumes : Consumes step) {n : Nat}
    {s : State} (hs : s.Ended) (hn : s.ahead.length < n)
    (hsame : ∀ a s', s.Reaches s' → step a s' = step' a s') (a : α) {n' : Nat}
    (hn' : s.ahead.length < n') : iterateUpTo step n a s = iterateUpTo step' n' a s := by
  induction n generalizing s a n' with
  | zero => cases hn
  | succ n ih =>
    cases n' with
    | zero => cases hn'
    | succ n' =>
      unfold iterateUpTo
      have hhere := hsame a s (.refl s)
      cases hround : step a s with
      | error fault s' => rw [bind_error hround, bind_error (hhere ▸ hround)]
      | ok r s' =>
        rw [bind_ok hround, bind_ok (hhere ▸ hround)]
        cases r with
        | done b => rfl
        | yield b =>
          have hreaches := hstep a _ _ _ hround
          have hlt := hconsumes _ _ _ _ hs hround
          exact ih (hreaches.ended hs) (by omega)
            (fun a s'' h => hsame a s'' (hreaches.trans h)) b (by omega)

/-- What is done behind a round: the one thing if it was the last, else the
other. -/
def afterRound (last next : α → Parser β) : ForInStep α → Parser β
  | .done b => last b
  | .yield b => next b

/-- A loop is a round, and the loop again if the round does not end it. -/
theorem iterate_bind (hstep : ∀ a, Proceeds (step a)) (hconsumes : Consumes step) {s : State}
    (hs : s.Ended) (a : α) (k : α → Parser β) :
    (iterate step a >>= k) s
      = (step a >>= afterRound k fun b => iterate step b >>= k) s := by
  have hunfold : (iterate step a >>= k) s
      = (iterateUpTo step (s.ahead.length + 1) a >>= k) s := rfl
  rw [hunfold, iterateUpTo, bind_assoc]
  cases hround : step a s with
  | error fault s' => rw [bind_error hround, bind_error hround]
  | ok r s' =>
    rw [bind_ok hround, bind_ok hround]
    cases r with
    | done b => rfl
    | yield b =>
      have hreaches := hstep a _ _ _ hround
      have hlt := hconsumes _ _ _ _ hs hround
      have hloop : iterateUpTo step s.ahead.length b s'
          = iterateUpTo step (s'.ahead.length + 1) b s' :=
        iterateUpTo_congr hstep hconsumes (hreaches.ended hs) hlt (fun _ _ _ => rfl) b (by omega)
      show EStateM.bind (iterateUpTo step s.ahead.length b) k s'
        = EStateM.bind (iterateUpTo step (s'.ahead.length + 1) b) k s'
      unfold EStateM.bind
      rw [hloop]

end Loops

end Cypher.Grammar
