import Cypher.Grammar.Operators
import Cypher.Proofs.Progress

/-!
# Climbing

The same expressions can be read without stacks, by precedence CLIMBING. A
climb is told how tightly operators must bind to belong to it. It reads an
operator with what it is written before, or an operand, and then takes one
operator behind it after the other for as long as they bind tightly enough;
the right side of an operator is a climb of its own, told to leave to this
one what groups to the left.

A climb calls itself only behind a token, so it never nests deeper than there
are tokens ahead.
-/

namespace Cypher

/-- How tightly the operators on the right side of an operator have to bind. -/
def Level.right (level : Level) : Nat :=
  if level.assoc = .right then level.binding else level.binding + 1

namespace Grammar

/-- What a climb has read. -/
structure Climb where
  tree : Expression
  /-- The operator that the tree has just been made by, if it stands between
  two operands. -/
  last : Option Pending := none

/-- Reads an operator with what it is written before, or an operand. -/
def climbFirst (operand : Parser Operand) (climb : Nat → Parser Expression) : Parser Climb := do
  let t ← current
  match Level.lookup t.kind .before, PrefixOperator.ofKind? t.kind with
  | some level, some op =>
    advance
    let right ← climb level.binding
    return { tree := .prefixed op right ⟨t.span.start, right.span.stop⟩ }
  | _, _ => return { tree := (← operand).tree }

/-- Stops if an operator that does not group follows another one of its own
binding. -/
def checkLast (level : Level) (last : Option Pending) : Parser Unit :=
  match last with
  | none => pure ()
  | some last =>
    if level.assoc = .nonAssoc ∧ last.binding = level.binding then
      fail (.chainedComparison last.text last.span)
    else pure ()

/-- Takes the operator behind what has been read, if it binds at least as
tightly as `least`. -/
def climbNext (climb : Nat → Parser Expression) (least : Nat) (c : Climb) :
    Parser (ForInStep Climb) := do
  let t ← current
  match Level.lookup t.kind .after with
  | some level =>
    if least ≤ level.binding then
      advance
      let span := ⟨c.tree.span.start, t.span.stop⟩
      return .yield { tree := .nullCheck (t.kind = .operator .isNotNull) c.tree span }
    else return .done c
  | none =>
    match Level.lookup t.kind .between, InfixOperator.ofKind? t.kind with
    | some level, some op =>
      if least ≤ level.binding then
        checkLast level c.last
        advance
        let right ← climb level.right
        let span := c.tree.span.join right.span
        let last := ⟨.infixed op, level.binding, t.text, t.span⟩
        return .yield { tree := .infixed op c.tree right span, last := some last }
      else return .done c
    | _, _ => return .done c

/-- Reads the operators that bind at least as tightly as `least`, the right
sides by climbs of their own. -/
def climbWith (operand : Parser Operand) (climb : Nat → Parser Expression) (least : Nat) :
    Parser Expression := do
  let first ← climbFirst operand climb
  let all ← iterate (climbNext climb least) first
  return all.tree

/-- Reads the operators that bind at least as tightly as `least`. The first
number bounds how deep climbs nest. -/
def climb (operand : Parser Operand) : Nat → Nat → Parser Expression
  | 0, _ => fail .expectedExpression
  | room + 1, least => climbWith operand (climb operand room) least

/-! ## Climbing by steps -/

/-- A token has a row before an operand if it is an operator there. -/
theorem isSome_lookup_before (kind : Token.Kind) :
    (Level.lookup kind .before).isSome = (PrefixOperator.ofKind? kind).isSome := by
  cases kind with
  | keyword w => cases w <;> rfl
  | operator op => cases op <;> rfl
  | punctuation mark => cases mark <;> rfl
  | _ => rfl

/-- A token has a row between two operands if it is an operator there. -/
theorem isSome_lookup_between (kind : Token.Kind) :
    (Level.lookup kind .between).isSome = (InfixOperator.ofKind? kind).isSome := by
  cases kind with
  | keyword w => cases w <;> rfl
  | operator op => cases op <;> rfl
  | punctuation mark => cases mark <;> rfl
  | _ => rfl

theorem PrefixOperator.kind_of_ofKind? {kind : Token.Kind} {op : PrefixOperator}
    (h : PrefixOperator.ofKind? kind = some op) : op.kind = kind := by
  unfold PrefixOperator.ofKind? at h
  split at h <;> cases h <;> rfl

theorem InfixOperator.kind_of_ofKind? {kind : Token.Kind} {op : InfixOperator}
    (h : InfixOperator.ofKind? kind = some op) : op.kind = kind := by
  unfold InfixOperator.ofKind? at h
  split at h <;> cases h <;> rfl

section Steps

variable {operand : Parser Operand} {climbs climbs' : Nat → Parser Expression} {least : Nat}
  {level : Level} {c : Climb} {s : State}

theorem climbFirst_before {op : PrefixOperator}
    (hlevel : Level.lookup s.current.kind .before = some level)
    (hop : PrefixOperator.ofKind? s.current.kind = some op) :
    climbFirst operand climbs s = (climbs level.binding >>= fun right =>
      pure ⟨.prefixed op right ⟨s.current.span.start, right.span.stop⟩, none⟩) s.advance := by
  have hcurrent : Grammar.current s = .ok s.current s := rfl
  unfold climbFirst
  rw [bind_ok hcurrent, hlevel, hop]
  rfl

theorem climbFirst_operand (h : Level.lookup s.current.kind .before = none) :
    climbFirst operand climbs s = (operand >>= fun found => pure ⟨found.tree, none⟩) s := by
  have hcurrent : Grammar.current s = .ok s.current s := rfl
  unfold climbFirst
  rw [bind_ok hcurrent, h]

theorem climbNext_after (hlevel : Level.lookup s.current.kind .after = some level) :
    climbNext climbs least c s =
      if least ≤ level.binding then
        .ok (.yield ⟨.nullCheck (s.current.kind = .operator .isNotNull) c.tree
          ⟨c.tree.span.start, s.current.span.stop⟩, none⟩) s.advance
      else .ok (.done c) s := by
  have hcurrent : Grammar.current s = .ok s.current s := rfl
  unfold climbNext
  rw [bind_ok hcurrent, hlevel]
  simp only
  split <;> rfl

theorem climbNext_between {op : InfixOperator}
    (hafter : Level.lookup s.current.kind .after = none)
    (hlevel : Level.lookup s.current.kind .between = some level)
    (hop : InfixOperator.ofKind? s.current.kind = some op) :
    climbNext climbs least c s =
      if least ≤ level.binding then
        (checkLast level c.last >>= fun _ => advance >>= fun _ =>
          climbs level.right >>= fun right =>
            pure (.yield ⟨.infixed op c.tree right (c.tree.span.join right.span),
              some ⟨.infixed op, level.binding, s.current.text, s.current.span⟩⟩)) s
      else .ok (.done c) s := by
  have hcurrent : Grammar.current s = .ok s.current s := rfl
  unfold climbNext
  rw [bind_ok hcurrent, hafter, hlevel, hop]
  simp only
  split <;> rfl

theorem climbNext_done (hafter : Level.lookup s.current.kind .after = none)
    (h : Level.lookup s.current.kind .between = none) :
    climbNext climbs least c s = .ok (.done c) s := by
  have hcurrent : Grammar.current s = .ok s.current s := rfl
  unfold climbNext
  rw [bind_ok hcurrent, hafter, h]
  rfl

end Steps

/-! ## Climbing to the end -/

theorem Level.ne_eof_of_lookup {kind : Token.Kind} {fixity : Fixity} {level : Level}
    (h : Level.lookup kind fixity = some level) : kind ≠ .eof := by
  rintro rfl
  cases fixity <;> cases h

/-- Passing a check changes nothing. -/
theorem state_of_checkLast {level : Level} {last : Option Pending} {s s' : State} {u : Unit}
    (h : checkLast level last s = .ok u s') : s' = s := by
  cases last with
  | none =>
    cases h
    rfl
  | some last =>
    by_cases hchained : level.assoc = .nonAssoc ∧ last.binding = level.binding
    · rw [checkLast, if_pos hchained] at h
      cases h
    · rw [checkLast, if_neg hchained] at h
      cases h
      rfl

theorem proceeds_checkLast (level : Level) (last : Option Pending) :
    Proceeds (checkLast level last) := by
  intro s u s' h
  rw [state_of_checkLast h]
  exact .refl s

theorem exists_infixOperator {kind : Token.Kind} {level : Level}
    (h : Level.lookup kind .between = some level) :
    ∃ op, InfixOperator.ofKind? kind = some op := by
  rw [← Option.isSome_iff_exists, ← isSome_lookup_between, h]
  rfl

theorem exists_prefixOperator {kind : Token.Kind} {level : Level}
    (h : Level.lookup kind .before = some level) :
    ∃ op, PrefixOperator.ofKind? kind = some op := by
  rw [← Option.isSome_iff_exists, ← isSome_lookup_before, h]
  rfl

section Proceeds

variable {operand : Parser Operand} {climbs : Nat → Parser Expression}
  (hclimbs : ∀ m, Proceeds (climbs m))

include hclimbs

theorem proceeds_climbFirst (hoperand : Proceeds operand) :
    Proceeds (climbFirst operand climbs) := by
  apply Proceeds.current.bind
  intro t
  split
  · exact Proceeds.advance.bind fun _ => (hclimbs _).bind fun _ => .pure _
  · exact hoperand.bind fun _ => .pure _

theorem proceeds_climbNext (least : Nat) (c : Climb) : Proceeds (climbNext climbs least c) := by
  apply Proceeds.current.bind
  intro t
  split
  · split
    · exact Proceeds.advance.bind fun _ => .pure _
    · exact .pure _
  · split
    · split
      · apply (proceeds_checkLast _ _).bind
        exact fun _ => Proceeds.advance.bind fun _ => (hclimbs _).bind fun _ => .pure _
      · exact .pure _
    · exact .pure _

theorem proceeds_climbWith (hoperand : Proceeds operand) (least : Nat) :
    Proceeds (climbWith operand climbs least) := by
  apply (proceeds_climbFirst hclimbs hoperand).bind
  intro first
  exact (Proceeds.iterate (proceeds_climbNext hclimbs least) first).bind fun _ => .pure _

/-- A climb goes on only behind a token. -/
theorem consumes_climbNext (least : Nat) : Consumes (climbNext climbs least) := by
  intro s c b s' hs h
  cases hafter : Level.lookup s.current.kind .after with
  | some level =>
    rw [climbNext_after hafter] at h
    split at h
    · cases h
      exact s.length_advance hs (Level.ne_eof_of_lookup hafter)
    · cases h
  | none =>
    cases hbetween : Level.lookup s.current.kind .between with
    | none =>
      rw [climbNext_done hafter hbetween] at h
      cases h
    | some level =>
      obtain ⟨op, hop⟩ := exists_infixOperator hbetween
      rw [climbNext_between hafter hbetween hop] at h
      split at h
      · obtain ⟨_, s₁, hcheck, hbehind⟩ := bind_eq_ok h
        obtain ⟨_, s₂, hadvance, hbehind⟩ := bind_eq_ok hbehind
        obtain ⟨right, s₃, hright, hbuilt⟩ := bind_eq_ok hbehind
        have hstay := state_of_checkLast hcheck
        cases hadvance
        cases hbuilt
        subst hstay
        have hlt := s₁.length_advance hs (Level.ne_eof_of_lookup hbetween)
        exact Nat.lt_of_le_of_lt (hclimbs _ _ _ _ hright).length hlt
      · cases h

end Proceeds

section Congr

variable {climbs climbs' : Nat → Parser Expression} {s : State} (hs : s.Ended)
  (hsame : ∀ s', s'.Ended → s'.ahead.length < s.ahead.length → ∀ m, climbs m s' = climbs' m s')

include hs hsame

/-- What a climb does depends on what other climbs do behind a token. -/
theorem climbFirst_congr (operand : Parser Operand) :
    climbFirst operand climbs s = climbFirst operand climbs' s := by
  cases hlevel : Level.lookup s.current.kind .before with
  | none => rw [climbFirst_operand hlevel, climbFirst_operand hlevel]
  | some level =>
    obtain ⟨op, hop⟩ := exists_prefixOperator hlevel
    rw [climbFirst_before hlevel hop, climbFirst_before hlevel hop]
    apply bind_congr_left
    exact hsame _ ((State.Reaches.advance s).ended hs)
      (s.length_advance hs (Level.ne_eof_of_lookup hlevel)) _

theorem climbNext_congr (least : Nat) (c : Climb) :
    climbNext climbs least c s = climbNext climbs' least c s := by
  cases hafter : Level.lookup s.current.kind .after with
  | some level => rw [climbNext_after hafter, climbNext_after hafter]
  | none =>
    cases hbetween : Level.lookup s.current.kind .between with
    | none => rw [climbNext_done hafter hbetween, climbNext_done hafter hbetween]
    | some level =>
      obtain ⟨op, hop⟩ := exists_infixOperator hbetween
      rw [climbNext_between hafter hbetween hop, climbNext_between hafter hbetween hop]
      have hright := hsame _ ((State.Reaches.advance s).ended hs)
        (s.length_advance hs (Level.ne_eof_of_lookup hbetween)) level.right
      cases hcheck : checkLast level c.last s with
      | error fault s' => rw [bind_error hcheck, bind_error hcheck]
      | ok u s' =>
        have hstay := state_of_checkLast hcheck
        subst hstay
        have hadvance : advance s' = .ok () s'.advance := rfl
        rw [bind_ok hcheck, bind_ok hcheck, bind_ok hadvance, bind_ok hadvance,
          bind_congr_left hright]

theorem climbWith_congr {operand : Parser Operand} (hoperand : Proceeds operand)
    (hclimbs : ∀ m, Proceeds (climbs m)) (least : Nat) :
    climbWith operand climbs least s = climbWith operand climbs' least s := by
  have hsame' : climbFirst operand climbs s = climbFirst operand climbs' s :=
    climbFirst_congr hs hsame operand
  unfold climbWith
  cases hfirst : climbFirst operand climbs s with
  | error fault s₁ => rw [bind_error hfirst, bind_error (hsame'.symm.trans hfirst)]
  | ok first s₁ =>
    have hfirst' := hsame'.symm.trans hfirst
    have hreaches := proceeds_climbFirst hclimbs hoperand _ _ _ hfirst
    rw [bind_ok hfirst, bind_ok hfirst']
    apply bind_congr_left
    refine iterateUpTo_congr (proceeds_climbNext hclimbs least)
      (consumes_climbNext hclimbs least) (hreaches.ended hs) (Nat.lt_succ_self _)
      (fun c s₂ h => ?_) first (Nat.lt_succ_self _)
    have hle := (hreaches.trans h).length
    apply climbNext_congr ((hreaches.trans h).ended hs)
    exact fun s' hs' hlt m => hsame s' hs' (by omega) m

end Congr

/-- Reads the operators that bind at least as tightly as `least`. -/
def climbs (operand : Parser Operand) (least : Nat) : Parser Expression :=
  fun s => climb operand (s.ahead.length + 1) least s

/-- Goes on behind what has been read. -/
def climbsOn (operand : Parser Operand) (least : Nat) (c : Climb) : Parser Expression := do
  return (← iterate (climbNext (climbs operand) least) c).tree

section Climbs

variable {operand : Parser Operand} (hoperand : Proceeds operand)

include hoperand

theorem proceeds_climb (room least : Nat) : Proceeds (climb operand room least) := by
  induction room generalizing least with
  | zero => exact .fail _
  | succ room ih => exact proceeds_climbWith ih hoperand least

theorem proceeds_climbs (least : Nat) : Proceeds (climbs operand least) :=
  fun s => proceeds_climb hoperand (s.ahead.length + 1) least s

/-- The bound on how deep climbs nest does not matter. -/
theorem climb_room {room room' : Nat} {s : State} (hs : s.Ended)
    (hroom : s.ahead.length < room) (hroom' : s.ahead.length < room') (least : Nat) :
    climb operand room least s = climb operand room' least s := by
  induction room generalizing s room' least with
  | zero => cases hroom
  | succ room ih =>
    cases room' with
    | zero => cases hroom'
    | succ room' =>
      apply climbWith_congr hs _ hoperand (proceeds_climb hoperand room)
      exact fun s' hs' hlt m => ih hs' (by omega) (by omega) m

/-- A climb reads something, and goes on behind it. -/
theorem climbs_eq {s : State} (hs : s.Ended) (least : Nat) :
    climbs operand least s
      = (climbFirst operand (climbs operand) >>= climbsOn operand least) s := by
  apply climbWith_congr hs _ hoperand (proceeds_climb hoperand s.ahead.length)
  exact fun s' hs' hlt m => climb_room hoperand hs' hlt (Nat.lt_succ_self _) m

/-- Going on is one step, and going on from there if the step did not end it. -/
theorem climbsOn_eq {s : State} (hs : s.Ended) (least : Nat) (c : Climb) :
    climbsOn operand least c s
      = (climbNext (climbs operand) least c
        >>= afterRound (fun c => pure c.tree) (climbsOn operand least)) s :=
  iterate_bind (proceeds_climbNext (proceeds_climbs hoperand) least)
    (consumes_climbNext (proceeds_climbs hoperand) least) hs c fun c => pure c.tree

end Climbs

end Grammar

end Cypher
