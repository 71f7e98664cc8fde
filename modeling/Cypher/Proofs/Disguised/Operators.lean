import Cypher.Proofs.Disguised.Operand
import Cypher.Proofs.Leaves.Operators

/-!
# Expressions with names in disguise

An operator is no name, and where one may stand none is disguised. So the rounds
shift the operators that they did, around the same operands.
-/

namespace Cypher.Grammar

variable {f : Token → Token} {config : Config} {brackets : List Bracket} {modes : List Mode}
  {st : Stacks}

/-! ## Operators -/

theorem alike_checkStacks {s : State} : Alike f (checkStacks config st) s := by
  unfold checkStacks
  split
  · exact .fail
  · exact .pure ()

theorem leads_checkStacks {s : State} {Q : State → Prop} (h : Q s) :
    Leads (checkStacks config st) s fun _ => Q :=
  fun _ _ hrun => state_of_checkStacks hrun ▸ h

theorem alike_checkChain {level : Level} {s : State} : Alike f (checkChain level st) s := by
  unfold checkChain
  split
  · exact .pure ()
  · split
    · exact .fail
    · exact .pure ()

theorem leads_checkChain {level : Level} {s : State} {Q : State → Prop} (h : Q s) :
    Leads (checkChain level st) s fun _ => Q := by
  intro _ _ hrun
  rw [checkChain_eq] at hrun
  exact state_of_checkLast hrun ▸ h

theorem blind_shift {role : Pending.Role} {level : Level} (hmodes : Plain modes) :
    Blind f (shift role level st) brackets modes :=
  .current hmodes fun _ _ _ _ _ => .advance (.pure _)

theorem leads_shift {role : Pending.Role} {level : Level} {s : State} {Q : State → Prop}
    (h : Q s.advance) : Leads (shift role level st) s fun _ => Q :=
  Leads.current (Leads.advance (Leads.pure h))

theorem blind_shiftPrefix : Blind f (shiftPrefix st) brackets [.value] := by
  refine .current (by simp [Plain]) fun o read s hf h => ?_
  split
  · exact (blind_shift (by simp [Plain]) hf h).map
  · exact .pure _

theorem covers_shiftPrefix :
    Covers (shiftPrefix st) (fun _ => []) brackets [.value] [.value] := by
  intro o read s h
  refine Leads.current ?_
  split
  · next hop =>
    have hbehind := h.advance (.prefixOperator hop)
    exact (leads_shift hbehind).bind fun _ s h => Leads.pure h
  · exact Leads.pure (h.of_eq (List.append_nil read).symm)

theorem blind_applyNullCheck : Blind f (applyNullCheck config st) brackets [.value, .call] := by
  refine .current (by simp [Plain]) fun o read s hf h => ?_
  split
  · exact alike_checkStacks.andThen fun _ _ => .advance (.pure _)
  · exact .pure _

theorem covers_applyNullCheck :
    Covers (applyNullCheck config st) (fun _ => []) brackets [.value, .call]
      [.value, .call] := by
  intro o read s h
  refine Leads.current ?_
  split
  · next hlevel =>
    have hbehind : At o (read ++ []) brackets [.value, .call] s.advance :=
      (h.advance (.nullCheck hlevel)).mono (by simp)
    exact (leads_checkStacks (Q := fun s => At o _ _ _ s.advance) hbehind).bind fun _ s h =>
      Leads.advance (Leads.pure h)
  · exact Leads.pure (h.of_eq (List.append_nil read).symm)

theorem blind_shiftInfix : Blind f (shiftInfix config st) brackets [.value, .call] := by
  refine .current (by simp [Plain]) fun o read s hf h => ?_
  split
  · refine alike_checkStacks.bind (leads_checkStacks h) fun _ s h => ?_
    refine alike_checkChain.bind (leads_checkChain h) fun _ s h => ?_
    exact (blind_shift (by simp [Plain]) hf h).map
  · exact .pure _

/-- Behind an operator between two operands, an operand is due. -/
theorem leads_shiftInfix {o : Outlook} {read : List Leaf} {s : State}
    (h : At o read brackets [.value, .call] s) :
    Leads (shiftInfix config st) s fun r s' => ∀ shifted, r = .yield shifted →
      At o read brackets [.value] s' := by
  refine Leads.current ?_
  split
  · next hop =>
    have hbehind := h.advance_nil (.infixOperator hop)
    refine (leads_checkStacks (Q := fun s => At o read brackets [.value] s.advance) hbehind).bind
      fun _ s h => ?_
    refine (leads_checkChain (Q := fun s => At o read brackets [.value] s.advance) h).bind
      fun _ s h => ?_
    exact (leads_shift h).bind fun _ s h => Leads.pure fun _ _ => h
  · exact Leads.pure nofun

/-! ## Rounds -/

section Steps

variable {α : Type} {step : α → Parser (ForInStep α)}
  (hcovers : ∀ a, Covers (step a) (fun _ => []) brackets modes modes)

include hcovers

theorem covers_iterate (a : α) : Covers (iterate step a) (fun _ => []) brackets modes modes := by
  intro o read s h
  refine Leads.iterate (Q := fun _ s => At o (read ++ []) brackets modes s)
    (h.of_eq (List.append_nil read).symm) fun a s h => (hcovers a h).mono fun _ _ h => ?_
  exact h.of_eq (List.append_nil _)

theorem blind_iterate (hstep : ∀ a, Blind f (step a) brackets modes) (a : α) :
    Blind f (iterate step a) brackets modes := by
  intro o read s hf h
  refine .iterate (Q := fun _ s => ∃ read, At o read brackets modes s) ⟨read, h⟩
    (fun a s h => ?_) fun a s h => hstep a hf h.choose_spec
  exact (hcovers a h.choose_spec).mono fun _ _ h _ _ => ⟨_, h⟩

end Steps

section Rounds

variable {operand : Parser Operand}
  (hcovers : Covers operand (·.tree.leaves) brackets [.value] [.value, .call])
  (hoperand : Blind f operand brackets [.value])

include hcovers

/-- Behind a round that is not the last one, an operand is due. -/
theorem leads_round {o : Outlook} {read : List Leaf} {s : State}
    (h : At o read brackets [.value] s) :
    Leads (round config operand st) s fun r s' => ∀ shifted, r = .yield shifted →
      ∃ read, At o read brackets [.value] s' := by
  refine (covers_iterate (fun _ => covers_shiftPrefix) st h).bind fun shifted s h => ?_
  refine (hcovers h).bind fun found s h => ?_
  refine (covers_iterate (fun _ => covers_applyNullCheck) _ h).bind fun checked s h => ?_
  exact (leads_shiftInfix h).mono fun r s' hr shifted heq => ⟨_, hr shifted heq⟩

include hoperand

theorem blind_round : Blind f (round config operand st) brackets [.value] := by
  refine (blind_iterate (fun _ => covers_shiftPrefix) (fun _ => blind_shiftPrefix) st).bind
    (covers_iterate (fun _ => covers_shiftPrefix) st) fun shifted => ?_
  refine hoperand.bind hcovers fun found => ?_
  refine (blind_iterate (fun _ => covers_applyNullCheck) (fun _ => blind_applyNullCheck) _).bind
    (covers_iterate (fun _ => covers_applyNullCheck) _) fun checked => ?_
  exact blind_shiftInfix

omit hcovers hoperand in
/-- What remains on the stacks is the answer. -/
theorem alike_top (hrecover : config.recover = false) {reduced : Stacks} {s : State} :
    Alike f (match reduced.operands with
      | top :: _ => pure top.tree
      | [] => recoverExpression config) s := by
  split
  · exact .pure _
  · have hstop : recoverExpression config = fail .expectedExpression :=
      if_neg (by rw [hrecover]; exact Bool.false_ne_true)
    rw [hstop]
    exact .fail

theorem blind_operators (hrecover : config.recover = false) :
    Blind f (operators config operand) brackets [.value] := by
  intro o read s hf h
  have hrounds : Alike f (iterate (round config operand) {}) s := by
    refine .iterate (Q := fun _ s => ∃ read, At o read brackets [.value] s) ⟨read, h⟩
      (fun st s h => ?_) fun st s h => blind_round hcovers hoperand hf h.choose_spec
    exact leads_round hcovers h.choose_spec
  exact hrounds.andThen fun reached s => alike_checkStacks.andThen fun _ s => alike_top hrecover

end Rounds

/-! ## Expressions -/

theorem blind_nested {p : Parser Expression} (hp : Blind f p brackets modes) :
    Blind f (nested config p) brackets modes :=
  fun _ _ _ hf h => .nested fun _ => hp hf ⟨h.scan, h.closing, h.proper, h.ended, h.room⟩

/-- An expression is read as before, wherever it may stand. -/
theorem steady_expressionWithin (hrecover : config.recover = false) (room : Nat) :
    Steady f (expressionWithin config room) := by
  refine ⟨coversValues_expressionWithin hrecover room, ?_⟩
  induction room with
  | zero => exact fun _ => .fail
  | succ room ih =>
    intro brackets hbrackets
    have hsteady : Steady f (expressionWithin config room) :=
      ⟨coversValues_expressionWithin hrecover room, ih⟩
    exact blind_nested (blind_operators (covers_operand hrecover hsteady.covers hbrackets)
      (blind_operand hsteady hrecover hbrackets) hrecover)

end Cypher.Grammar
