import Cypher.Proofs.Progress

/-!
# What a run leads to

A claim about all runs of a parser from one state: if it answers something, then
so and so holds of the answer and of the state behind it. Such a claim is put
together as the parser is, part by part, each from the state that the part
before it has led to.
-/

namespace Cypher.Grammar

open Token (Kind)

/-- If the parser answers something from here, then `Q` holds of the answer and
of the state behind it. -/
def Leads (p : Parser α) (s : State) (Q : α → State → Prop) : Prop :=
  ∀ a s', p s = .ok a s' → Q a s'

theorem expect_eq_ok {kind : Kind} {s s' : State} {u : Unit} (h : expect kind s = .ok u s') :
    s.current.kind = kind ∧ s' = s.advance := by
  unfold expect at h
  split at h
  · next hkind =>
    cases h
    exact ⟨hkind, rfl⟩
  · cases h

namespace Leads

variable {α β : Type} {p : Parser α} {f : α → Parser β} {s : State} {Q Q' : α → State → Prop}
  {R : β → State → Prop}

theorem bind (hp : Leads p s Q) (hf : ∀ a s', Q a s' → Leads (f a) s' R) :
    Leads (p >>= f) s R := by
  intro b s' h
  obtain ⟨a, s₁, hfirst, hsecond⟩ := bind_eq_ok h
  exact hf a s₁ (hp a s₁ hfirst) b s' hsecond

theorem mono (hp : Leads p s Q) (h : ∀ a s', Q a s' → Q' a s') : Leads p s Q' :=
  fun a s' hrun => h a s' (hp a s' hrun)

theorem and (h : Leads p s Q) (h' : Leads p s Q') : Leads p s fun a s' => Q a s' ∧ Q' a s' :=
  fun a s' hrun => ⟨h a s' hrun, h' a s' hrun⟩

/-- What has to be so for the parser to answer may be assumed. -/
theorem assume {φ : Prop} (hφ : ∀ {a s'}, p s = .ok a s' → φ) (h : φ → Leads p s Q) :
    Leads p s Q :=
  fun a s' hrun => h (hφ hrun) a s' hrun

theorem pure {a : α} (h : Q a s) : Leads (pure a) s Q := by
  intro b s' hrun
  cases hrun
  exact h

theorem fail {cause : Cause} : Leads (fail cause) s Q := by
  intro a s' hrun
  cases hrun

theorem current {f : Token → Parser β} (h : Leads (f s.current) s R) :
    Leads (current >>= f) s R := h

theorem lookAhead {f : List Token → Parser β} (h : Leads (f s.ahead) s R) :
    Leads (lookAhead >>= f) s R := h

theorem start {f : Nat → Parser β} (h : ∀ begin, Leads (f begin) s R) :
    Leads (start >>= f) s R := h _

theorem spanFrom {f : Span → Parser β} {begin : Nat} (h : ∀ span, Leads (f span) s R) :
    Leads (spanFrom begin >>= f) s R := h _

/-- Where the node will begin. -/
theorem startHere {f : Nat → Parser β} (h : Leads (f s.current.span.start) s R) :
    Leads (Grammar.start >>= f) s R := h

/-- The span of the node that ends here. -/
theorem spanHere {f : Span → Parser β} {begin : Nat}
    (h : Leads (f ⟨begin, max s.stop begin⟩) s R) :
    Leads (Grammar.spanFrom begin >>= f) s R := h

theorem advance {f : Unit → Parser β} (h : Leads (f ()) s.advance R) :
    Leads (advance >>= f) s R := h

theorem consume {f : Bool → Parser β} {kind : Kind}
    (hdue : s.current.kind = kind → Leads (f true) s.advance R)
    (hother : s.current.kind ≠ kind → Leads (f false) s R) : Leads (consume kind >>= f) s R := by
  intro b s' hrun
  by_cases hkind : s.current.kind = kind
  · have hconsume : Grammar.consume kind s = .ok true s.advance := if_pos hkind
    rw [bind_ok hconsume] at hrun
    exact hdue hkind b s' hrun
  · have hconsume : Grammar.consume kind s = .ok false s := if_neg hkind
    rw [bind_ok hconsume] at hrun
    exact hother hkind b s' hrun

theorem expect {f : Unit → Parser β} {kind : Kind}
    (h : s.current.kind = kind → Leads (f ()) s.advance R) : Leads (expect kind >>= f) s R := by
  intro b s' hrun
  obtain ⟨_, s₁, hexpect, hrun⟩ := bind_eq_ok hrun
  obtain ⟨hkind, rfl⟩ := expect_eq_ok hexpect
  exact h hkind b s' hrun

theorem checkHeight {f : Unit → Parser β} {config : Config} {height : Nat}
    (h : Leads (f ()) s R) : Leads (checkHeight config height >>= f) s R := by
  unfold Grammar.checkHeight
  split
  · exact h
  · exact fail.bind (Q := fun _ _ => False) fun _ _ h => h.elim

/-- What every round keeps holds behind a loop. -/
theorem iterate {step : α → Parser (ForInStep α)} {a : α} (h : Q a s)
    (hstep : ∀ a s, Q a s → Leads (step a) s fun r => Q r.value) :
    Leads (iterate step a) s Q := by
  have hrounds (n : Nat) : Leads (iterateUpTo step n a) s Q := by
    induction n generalizing a s with
    | zero => exact pure h
    | succ n ih =>
      unfold iterateUpTo
      refine (hstep a s h).bind fun r s' hr => ?_
      cases r with
      | done b => exact pure hr
      | yield b => exact ih hr
  exact hrounds _

/-- What holds of the items so far, and is kept by every further item, holds of all. -/
theorem many {step : Parser (Option α)} {Q : List α → State → Prop} (h : Q [] s)
    (hstep : ∀ as s, Q as s → Leads step s fun r => Q (as ++ r.toList)) :
    Leads (Grammar.many step) s Q := by
  have hrounds (n : Nat) (before : List α) (s : State) (h : Q before s) :
      Leads (manyUpTo step n) s fun as => Q (before ++ as) := by
    induction n generalizing before s with
    | zero => exact pure ((List.append_nil before).symm ▸ h)
    | succ n ih =>
      unfold manyUpTo
      refine (hstep before s h).bind fun r s h => ?_
      cases r with
      | none => exact pure h
      | some a =>
        refine (ih _ s h).bind fun as s h => pure ?_
        rwa [List.append_assoc] at h
  exact hrounds _ [] s h

/-! ## Names -/

theorem symbolicName {role : NameRole} {Q : String → State → Prop}
    (h : ∀ name, s.current.symbolicName? = some name → Q name s.advance) :
    Leads (Grammar.symbolicName role) s Q := by
  intro name s' hrun
  unfold Grammar.symbolicName at hrun
  split at hrun
  · next hname =>
    cases hrun
    exact h name hname
  · cases hrun

theorem variableName {role : VariableRole} {Q : String → State → Prop}
    (h : ∀ name, s.current.kind = .identifier name → Q name s.advance) :
    Leads (Grammar.variableName role) s Q := by
  intro name s' hrun
  unfold Grammar.variableName at hrun
  split at hrun
  · next name hname =>
    cases hrun
    exact h name hname
  · cases hrun

end Leads

/-- The token due next is the first of those ahead. -/
theorem State.ahead_eq {s : State} (hs : s.Ended) (h : s.current.kind ≠ .eof) :
    s.ahead = s.current :: s.advance.ahead := by
  unfold State.current State.advance at *
  cases hahead : s.ahead with
  | nil =>
    rw [hahead] at h
    exact absurd hs h
  | cons t rest => rfl

end Cypher.Grammar
