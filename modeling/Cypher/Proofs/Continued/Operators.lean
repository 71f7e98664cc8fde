import Cypher.Grammar.Expression
import Cypher.Proofs.Closed.Sited
import Cypher.Proofs.Continued.Operand

/-!
# Expressions in a text continued

No operator starts a clause. So an expression that ends with the text ends
where its sequel starts.
-/

namespace Cypher

open Token (Kind)

/-- An operator is no mark and ends no clause. -/
theorem Level.inner_of_lookup {kind : Kind} {fixity : Fixity} {level : Level}
    (h : lookup kind fixity = some level) : kind.isInner = true ∧ kind.awaits = false := by
  have htable : ∀ level ∈ table, ∀ kind ∈ level.kinds,
      kind.isInner = true ∧ kind.awaits = false := by decide
  obtain ⟨hlevel, hkind⟩ := mem_of_lookup h
  exact htable level hlevel kind hkind

theorem Level.lookup_of_endsClause {kind : Kind} (fixity : Fixity)
    (h : Grammar.endsClause kind = true) : lookup kind fixity = none := by
  cases hlevel : lookup kind fixity with
  | none => rfl
  | some level =>
    rw [Grammar.endsClause_of_inner (inner_of_lookup hlevel).1] at h
    cases h

namespace Grammar

variable {config : Config} {more : Sequel} {whole : List Token} {n : Nat} {settled : Bool}
  {s : State} {c : Stacks}

/-- Past an operator. -/
theorem Along.operator {level : Level} {fixity : Fixity} (h : Along whole n settled s)
    (hlevel : Level.lookup s.current.kind fixity = some level) : Along whole n true s.advance := by
  obtain ⟨hkind, hawaits⟩ := Level.inner_of_lookup hlevel
  have hpast := h.pass rfl (nest_of_inner hkind n)
  rwa [hawaits] at hpast

theorem Continues.checkStacks {β : Type} {f : Unit → Parser β} {R : β → State → Prop}
    (h : Continues more whole (f ()) s R) :
    Continues more whole (checkStacks config c >>= f) s R := by
  unfold Grammar.checkStacks
  split
  · exact fail.bind (Q := fun _ _ => False) fun _ _ h => h.elim
  · exact h

theorem Continues.checkChain {β : Type} {f : Unit → Parser β} {R : β → State → Prop}
    {level : Level} (h : Continues more whole (f ()) s R) :
    Continues more whole (checkChain level c >>= f) s R := by
  unfold Grammar.checkChain
  split
  · exact h
  · split
    · exact fail.bind (Q := fun _ _ => False) fun _ _ h => h.elim
    · exact h

theorem continues_shift {role : Pending.Role} {level level' : Level} {fixity : Fixity}
    (hlevel : Level.lookup s.current.kind fixity = some level') (h : Along whole n settled s) :
    Continues more whole (shift role level c) s fun _ s' =>
      Along whole n true s' ∧ s'.ahead.length < s.ahead.length := by
  have hne := Level.ne_eof_of_lookup hlevel
  refine Continues.currentDue hne (Continues.advance hne (Continues.pure ?_))
  exact ⟨h.operator hlevel, State.length_advance h.ended hne⟩

theorem continues_shiftPrefix (h : Along whole n settled s) :
    Continues more whole (shiftPrefix c) s fun r s' =>
      (∃ settled, Along whole n settled s')
        ∧ ∀ c', r = .yield c' → s'.ahead.length < s.ahead.length := by
  refine Continues.current (fun hs _ => ?_) ?_
  · rw [Level.lookup_of_endsClause _ more.endsClause_first,
      Level.lookup_of_endsClause _ hs.endsClause_eof]
  · split
    · next hlevel _ =>
      exact (continues_shift hlevel h).bind fun _ _ h =>
        Continues.pure ⟨⟨_, h.1⟩, fun _ _ => h.2⟩
    · exact Continues.pure ⟨⟨_, h⟩, nofun⟩

theorem continues_applyNullCheck (h : Along whole n true s) :
    Continues more whole (applyNullCheck config c) s fun r s' =>
      Along whole n true s' ∧ ∀ c', r = .yield c' → s'.ahead.length < s.ahead.length := by
  refine Continues.current (fun hs _ => ?_) ?_
  · rw [Level.lookup_of_endsClause _ more.endsClause_first,
      Level.lookup_of_endsClause _ hs.endsClause_eof]
  · split
    · next hlevel =>
      have hne := Level.ne_eof_of_lookup hlevel
      refine Continues.checkStacks (Continues.advance hne (Continues.pure ?_))
      exact ⟨h.operator hlevel, fun _ _ => State.length_advance h.ended hne⟩
    · exact Continues.pure ⟨h, nofun⟩

theorem rests_shiftInfix : Rests more (shiftInfix config c) := by
  intro whole n s h
  refine Continues.current (fun hs _ => ?_) ?_
  · rw [Level.lookup_of_endsClause _ more.endsClause_first,
      Level.lookup_of_endsClause _ hs.endsClause_eof]
  · split
    · next hlevel _ =>
      refine Continues.checkStacks (Continues.checkChain ?_)
      exact (continues_shift hlevel h).bind fun _ _ h => Continues.pure h.1
    · exact Continues.pure h

theorem settles_round {operand : Parser Operand} (hoperand : Settles more operand) :
    Settles more (round config operand c) := by
  intro whole n settled s h
  have hsigns : Continues more whole (iterate shiftPrefix c) s fun _ s' =>
      ∃ settled, Along whole n settled s' :=
    Continues.iterate (fun _ _ h => continues_shiftPrefix h.choose_spec) (fun _ h => h) ⟨_, h⟩ c
  refine hsigns.bind fun shifted s h => ?_
  refine (hoperand h.choose_spec).bind fun found s h => ?_
  refine (Continues.iterate (fun _ _ h => continues_applyNullCheck h) (fun _ h => h) h _).bind
    fun checked s h => ?_
  exact rests_shiftInfix h

/-- A round reads an operand, so every round takes a token. -/
theorem settles_operators (hrecover : config.recover = false) {operand : Parser Operand}
    (hoperand : Settles more operand) : Settles more (operators config operand) := by
  intro whole n settled s h
  have hround (c : Stacks) (s : State) (h : ∃ settled, Along whole n settled s) :
      Continues more whole (round config operand c) s fun r s' =>
        Along whole n true s' ∧ ∀ c', r = .yield c' → s'.ahead.length < s.ahead.length :=
    ((settles_round hoperand).less h.choose_spec).mono fun _ _ _ h => ⟨h.1, fun _ _ => h.2⟩
  have hrounds : Continues more whole (iterate (round config operand) {}) s fun _ =>
      Along whole n true :=
    Continues.iterate hround (fun _ h => ⟨_, h⟩) ⟨_, h⟩ _
  refine hrounds.bind fun reached s h => Continues.checkStacks ?_
  split
  · exact Continues.pure h
  · unfold recoverExpression
    rw [if_neg (by rw [hrecover]; exact Bool.false_ne_true)]
    exact Continues.fail

theorem settles_expressionWithin (hrecover : config.recover = false) (room : Nat) :
    Settles more (expressionWithin config room) := by
  induction room with
  | zero => exact fun _ _ _ _ _ => Continues.fail
  | succ room ih =>
    intro whole n settled s h
    exact Continues.nested (settles_operators hrecover (settles_operand hrecover ih) (h.deeper _))
      fun _ _ depth h => h.deeper depth

theorem settles_expression (hrecover : config.recover = false) :
    Settles more (expression config) := settles_expressionWithin hrecover _

end Grammar

end Cypher
