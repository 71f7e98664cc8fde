import Cypher.Proofs.Disguised.Operators
import Cypher.Proofs.Enclosed.Operand
import Cypher.Proofs.Stacked

/-!
# Expressions around a parenthesis put in

Where the parenthesis stands no operator does, so the other reading ends an
expression there, or is in front of an operand; and the first one ends it there
too, or goes on over the seam. Between two operands both shift and reduce alike,
as long as nothing is refused for its height.
-/

namespace Cypher

/-! ## Stacks under a higher limit -/

namespace Stacks

variable {limit limit' : Nat} (hlimit : limit ≤ limit')

include hlimit

/-- What is not refused under a limit is not refused under a higher one. -/
theorem settle_of_le {due : Pending → Bool} {operands : List Operand} {pending : List Pending}
    (h : (settle limit due operands pending).tooDeep = false) :
    settle limit' due operands pending = settle limit due operands pending := by
  induction pending generalizing operands with
  | nil => rfl
  | cons top pending ih =>
    unfold settle at h ⊢
    split at h
    · next hdue =>
      rw [if_pos hdue, if_pos hdue]
      cases happly : top.apply operands with
      | none => rfl
      | some found =>
        obtain ⟨node, rest⟩ := found
        rw [happly] at h
        by_cases hnode : node.height ≤ limit
        · simp only [if_pos hnode, if_pos (hnode.trans hlimit)] at h ⊢
          exact ih h
        · simp only [if_neg hnode] at h
          cases h
    · next hdue => rw [if_neg hdue, if_neg hdue]

theorem reduceAbove_of_le {st : Stacks} {binding : Nat} {assoc : Assoc}
    (h : (st.reduceAbove limit binding assoc).tooDeep = false) :
    st.reduceAbove limit' binding assoc = st.reduceAbove limit binding assoc :=
  settle_of_le hlimit h

theorem reduceAll_of_le {st : Stacks} (h : (st.reduceAll limit).tooDeep = false) :
    st.reduceAll limit' = st.reduceAll limit := settle_of_le hlimit h

theorem nullCheck_of_le {st : Stacks} {negated : Bool} {stop : Nat}
    (h : (st.nullCheck limit negated stop).tooDeep = false) :
    st.nullCheck limit' negated stop = st.nullCheck limit negated stop := by
  unfold nullCheck at h ⊢
  cases hoperands : st.operands with
  | nil => rfl
  | cons top rest =>
    rw [hoperands] at h
    by_cases htop : limit ≤ top.height
    · simp only [if_pos htop] at h
      cases h
    · simp only [if_neg htop, if_neg (show ¬ limit' ≤ top.height by omega)]

end Stacks

namespace Grammar

open Token (Kind)
open Insertion

variable {κ : Insertion} {config config' : Config} {brackets : List Bracket} {modes : List Mode}
  {d : Nat} {st : Stacks} {o : Outlook} {read : List Leaf} {s : State}

/-! ## Operators -/

namespace Shadows

section Steps

variable {α : Type} {step step' : α → Parser (ForInStep α)} {a : α}

/-- At the seam, a step that goes on goes over it, and the other reading has come to its end. -/
theorem ofStep (hs : s.ahead = κ.seam) (hended : s.Ended) (hproceeds : ∀ a, Proceeds (step a))
    (hconsumes : Consumes step)
    (hdone : ∀ b s', step a s = .ok (.done b) s' → b = a ∧ s' = s)
    (hother : ∀ s' : State, s'.current = κ.paren → step' a s' = .ok (.done a) s') :
    Shadows κ (step a) (step a) (step' a) s where
  astray hastray b s₁ hrun := ⟨hrun, hastray.mono (hproceeds a s b s₁ hrun).length⟩
  past s' hpast := absurd hpast.short (by rw [hs]; exact Nat.lt_irrefl _)
  facing s' hfacing r s₁ hrun := by
    cases r with
    | yield b => exact .astray hrun (.inl (hs ▸ hconsumes s a b s₁ hended hrun))
    | done b =>
      obtain ⟨rfl, rfl⟩ := hdone b s₁ hrun
      exact .facing hrun (hother s' (hfacing.current_of_seam hs)) hfacing

end Steps

variable {α : Type} {k kr k' : Unit → Parser α} (room : κ.Roomier config config')

theorem checkStacks {st' : Stacks} (hst : st.tooDeep = false → st' = st)
    (h : st.tooDeep = false → Shadows κ (k ()) (kr ()) (k' ()) s) :
    Shadows κ (checkStacks config st >>= k) (checkStacks config st >>= kr)
      (checkStacks config' st' >>= k') s := by
  unfold Grammar.checkStacks
  cases hdeep : st.tooDeep with
  | true => exact assume (φ := False) (fun hrun => by cases hrun) fun h => h.elim
  | false =>
    rw [hst hdeep, hdeep]
    exact h hdeep

theorem checkChain {level : Level} (h : Shadows κ (k ()) (kr ()) (k' ()) s) :
    Shadows κ (checkChain level st >>= k) (checkChain level st >>= kr)
      (checkChain level st >>= k') s := by
  unfold Grammar.checkChain
  split
  · exact h
  · split
    · exact assume (φ := False) (fun hrun => by cases hrun) fun h => h.elim
    · exact h

theorem shift (law : κ.Lawful) {role : Pending.Role} {level : Level}
    (hseam : s.ahead = κ.seam → ¬ κ.apt) (hdue : s.current.kind ≠ .eof) :
    Shadows κ (shift role level st) (shift role level st) (shift role level st) s :=
  .current (.advance law hdue (.pure _)) fun hs hapt => absurd hapt (hseam hs)

theorem shiftPrefix (law : κ.Lawful) (hended : s.Ended) :
    Shadows κ (shiftPrefix st) (shiftPrefix st) (shiftPrefix st) s := by
  by_cases hseam : s.ahead = κ.seam
  · refine .ofStep hseam hended proceeds_shiftPrefix consumes_shiftPrefix
      (fun _ _ hrun => shiftPrefix_done hrun) fun s' hs' => shiftPrefix_none ?_
    rw [hs']
    rcases law.parenthesis with hparen | hparen <;> rw [hparen] <;> rfl
  · refine .current ?_ fun hs => absurd hs hseam
    split
    · next hlevel _ =>
      exact (Shadows.shift law (fun hs => absurd hs hseam) (Level.ne_eof_of_lookup hlevel)).map
    · exact .pure _

theorem applyNullCheck (law : κ.Lawful) (room : κ.Roomier config config') (hended : s.Ended) :
    Shadows κ (applyNullCheck config st) (applyNullCheck config st) (applyNullCheck config' st)
      s := by
  have hlimit : config.maxDepth ≤ config'.maxDepth := Nat.le_of_lt room.room
  by_cases hseam : s.ahead = κ.seam
  · refine .ofStep hseam hended proceeds_applyNullCheck consumes_applyNullCheck
      (fun _ _ hrun => applyNullCheck_done hrun) fun s' hs' => applyNullCheck_none ?_
    rw [hs']
    rcases law.parenthesis with hparen | hparen <;> rw [hparen] <;> rfl
  · refine .current ?_ fun hs => absurd hs hseam
    split
    · next level hlevel =>
      have hsame {negated : Bool} {stop : Nat}
          (h : ((st.reduceAbove config.maxDepth level.binding level.assoc).nullCheck
            config.maxDepth negated stop).tooDeep = false) :
          (st.reduceAbove config'.maxDepth level.binding level.assoc).nullCheck
            config'.maxDepth negated stop
          = (st.reduceAbove config.maxDepth level.binding level.assoc).nullCheck
            config.maxDepth negated stop := by
        rw [Stacks.reduceAbove_of_le hlimit (Stacks.running_of_nullCheck h),
          Stacks.nullCheck_of_le hlimit h]
      refine .checkStacks hsame fun hdeep => ?_
      rw [hsame hdeep]
      exact .advance law (Level.ne_eof_of_lookup hlevel) (.pure _)
    · exact .pure _

theorem shiftInfix (law : κ.Lawful) (room : κ.Roomier config config') (hended : s.Ended) :
    Shadows κ (shiftInfix config st) (shiftInfix config st) (shiftInfix config' st) s := by
  have hlimit : config.maxDepth ≤ config'.maxDepth := Nat.le_of_lt room.room
  by_cases hseam : s.ahead = κ.seam
  · refine .ofStep hseam hended proceeds_shiftInfix consumes_shiftInfix
      (fun _ _ hrun => shiftInfix_done hrun) fun s' hs' => shiftInfix_none ?_
    rw [hs']
    rcases law.parenthesis with hparen | hparen <;> rw [hparen] <;> rfl
  · refine .current ?_ fun hs => absurd hs hseam
    split
    · next level op hlevel hop =>
      refine .checkStacks (Stacks.reduceAbove_of_le hlimit) fun hdeep => ?_
      rw [Stacks.reduceAbove_of_le hlimit hdeep]
      refine .checkChain ?_
      exact (Shadows.shift law (fun hs => absurd hs hseam) (Level.ne_eof_of_lookup hlevel)).map
    · exact .pure _

end Shadows

/-! ## Rounds -/

section Steps

variable {α : Type} {step step' : α → Parser (ForInStep α)} (law : κ.Lawful)
  (hcovers : ∀ a, Covers (step a) (fun _ => []) brackets modes modes)
  (hproceeds : ∀ a, Proceeds (step a)) (hconsumes : Consumes step)

include law hcovers hproceeds hconsumes

theorem shadowed_iterate (hstep : ∀ a, Shadowed κ d (step a) (step a) (step' a) brackets modes)
    (a : α) : Shadowed κ d (iterate step a) (iterate step a) (iterate step' a) brackets modes := by
  intro o read s hfits h
  refine .iterate (Q := fun _ s => ∃ read, At o read brackets modes s) law h.ended ⟨read, h⟩
    hproceeds hconsumes (fun a s h => ?_) fun a s _ h => hstep a hfits h.choose_spec
  exact (hcovers a h.choose_spec).mono fun _ _ h _ _ => ⟨_, h⟩

end Steps

section Rounds

variable {operand refusing operand' : Parser Operand} (law : κ.Lawful)
  (room : κ.Roomier config config')
  (hcovers : Covers operand (·.tree.leaves) brackets [.value] [.value, .call])
  (hoperand : Shadowed κ d operand refusing operand' brackets [.value])

include law room hcovers hoperand

theorem shadowed_round :
    Shadowed κ d (round config operand st) (round config refusing st) (round config' operand' st)
      brackets [.value] := by
  refine (shadowed_iterate law (fun _ => covers_shiftPrefix) proceeds_shiftPrefix
    consumes_shiftPrefix (fun _ _ _ _ _ h => .shiftPrefix law h.ended) st).bind
    (covers_iterate (fun _ => covers_shiftPrefix) st) fun shifted => ?_
  refine hoperand.bind hcovers fun found => ?_
  refine (shadowed_iterate law (fun _ => covers_applyNullCheck) proceeds_applyNullCheck
    consumes_applyNullCheck (fun _ _ _ _ _ h => .applyNullCheck law room h.ended) _).bind
    (covers_iterate (fun _ => covers_applyNullCheck) _) fun checked => ?_
  exact fun _ _ _ _ h => .shiftInfix law room h.ended

theorem shadowed_operators (hmoves : Moves operand) :
    Shadowed κ d (operators config operand) (operators config refusing) (operators config' operand')
      brackets [.value] := by
  intro o read s hfits h
  have hlimit : config.maxDepth ≤ config'.maxDepth := Nat.le_of_lt room.room
  have hrounds : Shadows κ (iterate (round config operand) {}) (iterate (round config refusing) {})
      (iterate (round config' operand') {}) s := by
    refine .iterate (Q := fun _ s => ∃ read, At o read brackets [.value] s) law h.ended ⟨read, h⟩
      (proceeds_round hmoves.proceeds) (consumes_round hmoves.proceeds)
      (fun st s h => leads_round hcovers h.choose_spec) fun st s _ h => ?_
    exact shadowed_round law room hcovers hoperand hfits h.choose_spec
  refine hrounds.andThen fun reached s =>
    .checkStacks (Stacks.reduceAll_of_le hlimit) fun hdeep => ?_
  rw [Stacks.reduceAll_of_le hlimit hdeep]
  split
  · exact .pure _
  · have hstop : recoverExpression config = fail .expectedExpression :=
      if_neg (by rw [room.recover]; exact Bool.false_ne_true)
    rw [hstop]
    exact .fail

end Rounds

end Grammar

end Cypher
