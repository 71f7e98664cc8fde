import Cypher.Proofs.Continued.Basic
import Cypher.Proofs.Leaves.Foreseen
import Cypher.Proofs.Terminating.Loops

/-!
# A text with a parenthesis more

Two texts are read side by side. They are the same but for one place, the SEAM,
where the other text has a parenthesis that the first one has not. Up to the
seam both readings see the same tokens. There the one that opens a group goes
in, and comes out behind the group, where both see the same again; one that
closes a group is where the readings compared come to their end.

The first reading may also go over the seam as if nothing were there: the
parenthesis has been put where no operand stands. That reading has gone ASTRAY,
and nothing is said of the other. Whether it has is told by a third reading,
which is the first one with an operand at the seam REFUSED: what has gone astray
is read by it as well, and what has gone in is not.
-/

namespace Cypher.Grammar

open Token (Kind)

/-- A parenthesis that one text has and another has not. -/
structure Insertion where
  /-- The tokens in front of the seam, in both texts. -/
  front : List Token
  /-- The tokens from the seam on, in the text without the parenthesis. -/
  seam : List Token
  paren : Token
  /-- The tokens behind the parenthesis, in the text with it. -/
  behind : List Token
  /-- The end of both texts. -/
  eof : Token
  /-- Whether the parenthesis opens a group. -/
  opens : Bool
  /-- How deep the first reading may nest. -/
  limit : Nat
  /-- What is known if an operand is read at the seam. -/
  apt : Prop

namespace Insertion

variable (κ : Insertion)

/-- How the scan comes to the seam. -/
def scan : Scan := ({} : Scan).passAll κ.front κ.seam

/-- How much deeper the other reading is nested in front of the parenthesis. -/
def deeper : Nat := if κ.opens then 0 else 1

/-- At the seam an operand is due and stands, and the parentheses that are open
there are closed where they are closed behind the one put in. No relationship
follows the group. -/
structure Opening : Prop where
  mode : κ.scan.mode = .value
  starts : ∃ t rest, κ.seam = t :: rest ∧ startsAtom t.kind = true
  closing : ∀ n, afterGroup (n + 1) (κ.paren :: κ.behind) = afterGroup (n + 1) κ.seam
  parted : ∀ rest, afterGroup 0 (κ.paren :: κ.behind) = some rest → relationshipAhead rest = false

/-- The parenthesis is one, and starts where the token does that it stands in
front of. Behind it no token is missing. -/
structure Lawful : Prop where
  kind : κ.paren.kind = .punctuation (if κ.opens then .lparen else .rparen)
  start : κ.paren.span.start = (κ.seam.headD κ.eof).span.start
  longer : κ.seam.length ≤ κ.behind.length
  proper : ∀ t ∈ κ.behind, t.kind ≠ .eof
  ended : κ.eof.kind = .eof
  opening : κ.opens = true → κ.apt → κ.Opening

/-- The outlook is on the first text. A parenthesis that closes a group is put
at least `d` brackets further out. -/
structure Fits (d : Nat) (o : Outlook) (brackets : List Bracket) : Prop where
  tokens : o.tokens = κ.front ++ κ.seam
  level : κ.opens = false → κ.scan.brackets.length + d ≤ brackets.length

/-! ## Where the readings are -/

/-- The two readings have consumed as much, one as deep as the other. -/
structure Frame (s s' : State) : Prop where
  eof : s.eof = κ.eof
  eof_other : s'.eof = κ.eof
  stop : s'.stop = s.stop
  depth : s'.depth = s.depth + κ.deeper
  limit : s.depth ≤ κ.limit
  faults : s'.faults = s.faults
  place : ∃ passed, κ.front ++ κ.seam = passed ++ s.ahead ∧ s.previous = passed.getLast?

/-- Both have the seam ahead. -/
structure Facing (s s' : State) : Prop extends κ.Frame s s' where
  apt : κ.apt
  ahead : ∃ between, s.ahead = between ++ κ.seam ∧ s'.ahead = between ++ κ.paren :: κ.behind

/-- Both have come out behind the group. -/
structure Past (s s' : State) : Prop extends κ.Frame s s' where
  opens : κ.opens = true
  ahead : s'.ahead = s.ahead
  short : s.ahead.length < κ.seam.length

/-- The first one has not gone into the group, or never will. -/
def Astray (s : State) : Prop := s.ahead.length < κ.seam.length ∨ ¬ κ.apt

variable {κ} {s s' : State}

theorem Astray.mono (h : κ.Astray s) (hle : s'.ahead.length ≤ s.ahead.length) : κ.Astray s' :=
  h.imp_left (Nat.lt_of_le_of_lt hle)

theorem Astray.advance (h : κ.Astray s) : κ.Astray s.advance := h.mono (State.Reaches.advance s).length

/-- Past the first token at the seam, the first reading has gone over it. -/
theorem astray_advance (hs : s.ahead = κ.seam) (hne : s.ahead ≠ []) : κ.Astray s.advance := by
  obtain ⟨t, rest, hahead⟩ := List.exists_cons_of_ne_nil hne
  refine .inl ?_
  rw [← hs, State.ahead_advance_eq_tail, hahead]
  exact Nat.lt_succ_self _

namespace Frame

variable {ts ts' : List Token}

/-- Where both consume the same token. -/
theorem advance (h : κ.Frame s s') {t : Token} {rest rest' : List Token}
    (hahead : s.ahead = t :: rest) (hahead' : s'.ahead = t :: rest') :
    κ.Frame s.advance s'.advance := by
  have hs : s.advance = { s with previous := some t, ahead := rest } := by
    unfold State.advance
    rw [hahead]
  have hs' : s'.advance = { s' with previous := some t, ahead := rest' } := by
    unfold State.advance
    rw [hahead']
  obtain ⟨passed, htokens, -⟩ := h.place
  rw [hs, hs']
  refine ⟨h.eof, h.eof_other, rfl, h.depth, h.limit, h.faults, passed ++ [t], ?_, ?_⟩
  · rw [htokens, hahead, List.append_assoc]
    rfl
  · rw [List.getLast?_concat]

/-- What has been consumed last is told by what is ahead. -/
theorem stop_eq (h : κ.Frame s s') {passed : List Token}
    (htokens : κ.front ++ κ.seam = passed ++ s.ahead) :
    s.stop = (passed.getLast?.getD s.current).span.stop := by
  obtain ⟨passed', htokens', hprevious⟩ := h.place
  obtain rfl := List.append_cancel_right (htokens.symm.trans htokens')
  rw [State.stop, hprevious]

/-- Both are nested one level deeper. -/
theorem enter (h : κ.Frame s s') (hlow : s.depth < κ.limit) :
    κ.Frame { s with depth := s.depth + 1 } { s' with depth := s'.depth + 1 } := by
  refine ⟨h.eof, h.eof_other, h.stop, ?_, hlow, h.faults, h.place⟩
  have hdepth := h.depth
  show s'.depth + 1 = s.depth + 1 + κ.deeper
  omega

/-- Both have come out of a level. -/
theorem leave (h : κ.Frame s s') (hdeep : 0 < s.depth) :
    κ.Frame { s with depth := s.depth - 1 } { s' with depth := s'.depth - 1 } := by
  refine ⟨h.eof, h.eof_other, h.stop, ?_, Nat.le_trans (Nat.sub_le _ _) h.limit, h.faults, h.place⟩
  have hdepth := h.depth
  show s'.depth - 1 = s.depth - 1 + κ.deeper
  omega

theorem ended (h : κ.Frame s s') (law : κ.Lawful) : s.Ended := by
  rw [State.Ended, h.eof, law.ended]

theorem ended_other (h : κ.Frame s s') (law : κ.Lawful) : s'.Ended := by
  rw [State.Ended, h.eof_other, law.ended]

end Frame

namespace Past

theorem current (h : κ.Past s s') : s'.current = s.current := by
  unfold State.current
  rw [h.ahead, h.eof, h.eof_other]

theorem advance (h : κ.Past s s') : κ.Past s.advance s'.advance := by
  cases hahead : s.ahead with
  | nil =>
    have hs : s.advance = s := by unfold State.advance; rw [hahead]
    have hs' : s'.advance = s' := by unfold State.advance; rw [h.ahead, hahead]
    rw [hs, hs']
    exact h
  | cons t rest =>
    refine ⟨h.toFrame.advance hahead (h.ahead.trans hahead), h.opens, ?_, ?_⟩
    · rw [State.ahead_advance_eq_tail, State.ahead_advance_eq_tail, h.ahead]
    · exact Nat.lt_of_le_of_lt (State.Reaches.advance s).length h.short

end Past

namespace Facing

/-- The readings are at the seam, or they see the same token and have the seam
behind it. -/
theorem cases (h : κ.Facing s s') :
    s.ahead = κ.seam ∧ s'.ahead = κ.paren :: κ.behind
      ∨ s.ahead ≠ [] ∧ s'.current = s.current ∧ κ.Facing s.advance s'.advance := by
  obtain ⟨between, hahead, hahead'⟩ := h.ahead
  cases between with
  | nil => exact .inl ⟨hahead, hahead'⟩
  | cons t between =>
    refine .inr ⟨by rw [hahead]; exact List.cons_ne_nil _ _, ?_, ?_⟩
    · rw [State.current, State.current, hahead, hahead']
      rfl
    · refine ⟨h.toFrame.advance hahead hahead', h.apt, between, ?_, ?_⟩
      · rw [State.ahead_advance_eq_tail, hahead]
        rfl
      · rw [State.ahead_advance_eq_tail, hahead']
        rfl

theorem ahead_of_seam (h : κ.Facing s s') (hs : s.ahead = κ.seam) :
    s'.ahead = κ.paren :: κ.behind := by
  obtain ⟨between, hahead, hahead'⟩ := h.ahead
  obtain rfl : between = [] := List.append_left_eq_self.1 (hahead.symm.trans hs)
  exact hahead'

theorem current_of_seam (h : κ.Facing s s') (hs : s.ahead = κ.seam) : s'.current = κ.paren := by
  rw [State.current, h.ahead_of_seam hs]
  rfl

theorem current_of_ne (h : κ.Facing s s') (hs : s.ahead ≠ κ.seam) : s'.current = s.current := by
  rcases h.cases with ⟨hseam, -⟩ | ⟨-, hcurrent, -⟩
  · exact absurd hseam hs
  · exact hcurrent

theorem start (h : κ.Facing s s') (law : κ.Lawful) :
    s'.current.span.start = s.current.span.start := by
  by_cases hs : s.ahead = κ.seam
  · rw [h.current_of_seam hs, law.start, State.current, hs, h.eof]
  · rw [h.current_of_ne hs]

theorem length_le (h : κ.Facing s s') (law : κ.Lawful) :
    s.ahead.length ≤ s'.ahead.length := by
  obtain ⟨between, hahead, hahead'⟩ := h.ahead
  have hlonger := law.longer
  rw [hahead, hahead', List.length_append, List.length_append, List.length_cons]
  omega

end Facing

end Insertion

open Insertion

variable {α β : Type} {κ : Insertion} {s s' : State}

/-! ## Reading side by side -/

/-- What becomes of the reading that answers `a` and comes to `s₁`: it has gone
astray, or the other one has come as far, on this side of the group or behind
it. The parser that refuses the operand reads the same in the first two cases
and nothing in the last one. -/
inductive Meets (κ : Insertion) (r p' : Parser α) (s s' : State) (a : α) (s₁ : State) : Prop
  | astray (same : r s = .ok a s₁) (astray : κ.Astray s₁)
  | facing {s₁' : State} (same : r s = .ok a s₁) (other : p' s' = .ok a s₁')
    (facing : κ.Facing s₁ s₁')
  | past {s₁' : State} (refuses : ∀ b s₂, r s ≠ .ok b s₂) (other : p' s' = .ok a s₁')
    (past : κ.Past s₁ s₁')

theorem Meets.of_eq {r p' qr q' : Parser α} {a : α} {s₁ t t' : State} (h : Meets κ r p' s s' a s₁)
    (hr : qr t = r s) (hp' : q' t' = p' s') : Meets κ qr q' t t' a s₁ := by
  cases h with
  | astray hsame hs₁ => exact .astray (hr.trans hsame) hs₁
  | facing hsame hother hs₁ => exact .facing (hr.trans hsame) (hp'.trans hother) hs₁
  | past hrefuses hother hs₁ => exact .past (hr ▸ hrefuses) (hp'.trans hother) hs₁

/-- What the first reading answers from here it answers astray, and refuses nothing. -/
def Strays (κ : Insertion) (p r : Parser α) (s : State) : Prop :=
  ∀ a s₁, p s = .ok a s₁ → r s = .ok a s₁ ∧ κ.Astray s₁

/-- From here, `p'` reads the text with the parenthesis as `p` does the text
without it, unless `p` goes astray; and `r` refuses the operand. -/
structure Shadows (κ : Insertion) (p r p' : Parser α) (s : State) : Prop where
  astray : κ.Astray s → Strays κ p r s
  past : ∀ s', κ.Past s s' → ∀ a s₁, p s = .ok a s₁ → ∃ s₁', p' s' = .ok a s₁' ∧ κ.Past s₁ s₁'
  facing : ∀ s', κ.Facing s s' → ∀ a s₁, p s = .ok a s₁ → Meets κ r p' s s' a s₁

namespace Shadows

variable {p r p' : Parser α}

/-- What has to be so for the parser to answer may be assumed. -/
theorem assume {φ : Prop} (hφ : ∀ {a s'}, p s = .ok a s' → φ) (h : φ → Shadows κ p r p' s) :
    Shadows κ p r p' s where
  astray hs a s₁ hrun := (h (hφ hrun)).astray hs a s₁ hrun
  past s' hs a s₁ hrun := (h (hφ hrun)).past s' hs a s₁ hrun
  facing s' hs a s₁ hrun := (h (hφ hrun)).facing s' hs a s₁ hrun

theorem pure (a : α) : Shadows κ (pure a) (pure a) (pure a) s where
  astray hs b s₁ hrun := by
    cases hrun
    exact ⟨rfl, hs⟩
  past s' hs b s₁ hrun := by
    cases hrun
    exact ⟨s', rfl, hs⟩
  facing s' hs b s₁ hrun := by
    cases hrun
    exact .facing rfl rfl hs

theorem fail {cause : Cause} : Shadows κ (fail cause) r p' s where
  astray _ _ _ hrun := by cases hrun
  past _ _ _ _ hrun := by cases hrun
  facing _ _ _ _ hrun := by cases hrun

theorem bind {k kr k' : α → Parser β} {Q : α → State → Prop} (h : Shadows κ p r p' s)
    (hleads : Leads p s Q) (hk : ∀ a s₁, Q a s₁ → Shadows κ (k a) (kr a) (k' a) s₁) :
    Shadows κ (p >>= k) (r >>= kr) (p' >>= k') s where
  astray hs b s₂ hrun := by
    obtain ⟨a, s₁, hfirst, hsecond⟩ := bind_eq_ok hrun
    obtain ⟨hsame, hs₁⟩ := h.astray hs a s₁ hfirst
    rw [bind_ok hsame]
    exact (hk a s₁ (hleads a s₁ hfirst)).astray hs₁ b s₂ hsecond
  past s' hs b s₂ hrun := by
    obtain ⟨a, s₁, hfirst, hsecond⟩ := bind_eq_ok hrun
    obtain ⟨s₁', hother, hs₁⟩ := h.past s' hs a s₁ hfirst
    rw [bind_ok hother]
    exact (hk a s₁ (hleads a s₁ hfirst)).past s₁' hs₁ b s₂ hsecond
  facing s' hs b s₂ hrun := by
    obtain ⟨a, s₁, hfirst, hsecond⟩ := bind_eq_ok hrun
    have hk := hk a s₁ (hleads a s₁ hfirst)
    cases h.facing s' hs a s₁ hfirst with
    | astray hsame hs₁ =>
      obtain ⟨hsame', hs₂⟩ := hk.astray hs₁ b s₂ hsecond
      exact .astray ((bind_ok hsame).trans hsame') hs₂
    | facing hsame hother hs₁ =>
      cases hk.facing _ hs₁ b s₂ hsecond with
      | astray hsame' hs₂ => exact .astray ((bind_ok hsame).trans hsame') hs₂
      | facing hsame' hother' hs₂ =>
        exact .facing ((bind_ok hsame).trans hsame') ((bind_ok hother).trans hother') hs₂
      | past hrefuses hother' hs₂ =>
        refine .past (fun c s₃ hrun => ?_) ((bind_ok hother).trans hother') hs₂
        rw [bind_ok hsame] at hrun
        exact hrefuses c s₃ hrun
    | past hrefuses hother hs₁ =>
      obtain ⟨s₂', hother', hs₂⟩ := hk.past _ hs₁ b s₂ hsecond
      refine .past (fun c s₃ hrun => ?_) ((bind_ok hother).trans hother') hs₂
      obtain ⟨c', s₄, hrun, -⟩ := bind_eq_ok hrun
      exact hrefuses c' s₄ hrun

/-- A sequence whose second part goes on alike wherever the first has come to. -/
theorem andThen {k kr k' : α → Parser β} (h : Shadows κ p r p' s)
    (hk : ∀ a s₁, Shadows κ (k a) (kr a) (k' a) s₁) :
    Shadows κ (p >>= k) (r >>= kr) (p' >>= k') s :=
  h.bind (Q := fun _ _ => True) (fun _ _ _ => trivial) fun a s₁ _ => hk a s₁

/-- A sequence whose second part only puts the answer of the first into another
shape. -/
theorem map {shape : α → β} (h : Shadows κ p r p' s) :
    Shadows κ (p >>= fun a => Pure.pure (shape a)) (r >>= fun a => Pure.pure (shape a))
      (p' >>= fun a => Pure.pure (shape a)) s :=
  h.andThen fun _ _ => pure _

/-- The other parser may be any that reads the same where the first has come to
what the other one has come to. -/
theorem replace {p'' : Parser α} (h : Shadows κ p r p' s)
    (hpast : ∀ s', κ.Past s s' → p'' s' = p' s')
    (hfacing : ∀ s', κ.Facing s s' → ∀ a s₁ s₁', p s = .ok a s₁ → p' s' = .ok a s₁' →
      κ.Facing s₁ s₁' ∨ κ.Past s₁ s₁' → p'' s' = .ok a s₁') : Shadows κ p r p'' s where
  astray := h.astray
  past s' hs a s₁ hrun := by
    rw [hpast s' hs]
    exact h.past s' hs a s₁ hrun
  facing s' hs a s₁ hrun := by
    cases h.facing s' hs a s₁ hrun with
    | astray hsame hs₁ => exact .astray hsame hs₁
    | facing hsame hother hs₁ =>
      exact .facing hsame (hfacing s' hs a s₁ _ hrun hother (.inl hs₁)) hs₁
    | past hrefuses hother hs₁ =>
      exact .past hrefuses (hfacing s' hs a s₁ _ hrun hother (.inr hs₁)) hs₁

/-- Parsers that run the same from the states in question. -/
theorem of_eq {q qr q' : Parser α} (h : Shadows κ p r p' s) (hp : q s = p s) (hr : qr s = r s)
    (hpast : ∀ s', κ.Past s s' → q' s' = p' s') (hfacing : ∀ s', κ.Facing s s' → q' s' = p' s') :
    Shadows κ q qr q' s where
  astray hs := by
    intro a s₁ hrun
    rw [hr]
    exact h.astray hs a s₁ (hp ▸ hrun)
  past s' hs := by
    rw [hp, hpast s' hs]
    exact h.past s' hs
  facing s' hs a s₁ hrun := (h.facing s' hs a s₁ (hp ▸ hrun)).of_eq hr (hfacing s' hs)

/-- At the seam, what goes astray does so whatever the other parser is. -/
theorem strays (hs : s.ahead = κ.seam) (h : Strays κ p r s) : Shadows κ p r p' s where
  astray _ := h
  past s' hpast := absurd hpast.short (by rw [hs]; exact Nat.lt_irrefl _)
  facing s' _ a s₁ hrun := by
    obtain ⟨hsame, hastray⟩ := h a s₁ hrun
    exact .astray hsame hastray

end Shadows

/-! ### Going over the seam -/

namespace Strays

variable {p r : Parser α}

theorem of_leads (hs : s.ahead = κ.seam)
    (h : Leads p s fun _ s' => s'.ahead.length < s.ahead.length) : Strays κ p p s :=
  fun a s₁ hrun => ⟨hrun, .inl (hs ▸ h a s₁ hrun)⟩

theorem takes (hs : s.ahead = κ.seam) (hended : s.Ended) (h : Takes p) : Strays κ p p s :=
  of_leads hs (h s hended)

theorem map {shape : α → β} (h : Strays κ p r s) :
    Strays κ (p >>= fun a => Pure.pure (shape a)) (r >>= fun a => Pure.pure (shape a)) s := by
  intro b s₁ hrun
  obtain ⟨a, s₂, hfirst, hsecond⟩ := bind_eq_ok hrun
  obtain ⟨hsame, hastray⟩ := h a s₂ hfirst
  cases hsecond
  exact ⟨bind_ok hsame, hastray⟩

theorem pure {a : α} (h : κ.Astray s) : Strays κ (pure a) (pure a) s := by
  rintro b s₁ ⟨⟩
  exact ⟨rfl, h⟩

theorem advance {k kr : Unit → Parser α} (hs : s.ahead = κ.seam) (hended : s.Ended)
    (hdue : s.current.kind ≠ .eof) (h : κ.Astray s.advance → Strays κ (k ()) (kr ()) s.advance) :
    Strays κ (advance >>= k) (advance >>= kr) s :=
  h (astray_advance hs (State.ahead_ne_nil hended hdue))

theorem expect {k kr : Unit → Parser α} {kind : Kind} (hs : s.ahead = κ.seam)
    (hended : s.Ended) (hkind : kind ≠ .eof)
    (h : s.current.kind = kind → κ.Astray s.advance → Strays κ (k ()) (kr ()) s.advance) :
    Strays κ (expect kind >>= k) (expect kind >>= kr) s := by
  intro a s₁ hrun
  obtain ⟨_, s₂, hexpect, hrun⟩ := bind_eq_ok hrun
  obtain ⟨hdue, rfl⟩ := expect_eq_ok hexpect
  rw [bind_ok hexpect]
  exact advance hs hended (hdue ▸ hkind) (h hdue) a s₁ hrun

end Strays

namespace Shadows

variable {p r p' : Parser α}

/-! ### Tokens -/

section Tokens

variable (law : κ.Lawful)

/-- What is made of the tokens ahead must come to the same if both readings come
to the same. -/
theorem lookAhead {k kr k' : List Token → Parser β}
    (h : Shadows κ (k s.ahead) (kr s.ahead) (k' s.ahead) s)
    (hsame : ∀ s', κ.Facing s s' → ∀ b s₁ s₁', k s.ahead s = .ok b s₁ →
      k' s.ahead s' = .ok b s₁' → κ.Facing s₁ s₁' ∨ κ.Past s₁ s₁' → k' s'.ahead s' = .ok b s₁') :
    Shadows κ (lookAhead >>= k) (lookAhead >>= kr) (lookAhead >>= k') s :=
  (h.replace (fun s' hs => congrArg (k' · s') hs.ahead) hsame).of_eq rfl rfl (fun _ _ => rfl)
    fun _ _ => rfl

theorem currentAtSeam {k kr k' : Token → Parser β} (hahead : s.ahead = κ.seam)
    (h : Shadows κ (k s.current) (kr s.current) (k' κ.paren) s) :
    Shadows κ (current >>= k) (current >>= kr) (current >>= k') s := by
  refine h.of_eq rfl rfl (fun s' hs => ?_) fun s' hs => ?_
  · exact absurd hs.short (by rw [hahead]; exact Nat.lt_irrefl _)
  · rw [← hs.current_of_seam hahead]
    rfl

/-- What is made of the current token must be told apart at the seam alone. -/
theorem current {k kr k' : Token → Parser β}
    (h : Shadows κ (k s.current) (kr s.current) (k' s.current) s)
    (hseam : s.ahead = κ.seam → κ.apt → Shadows κ (k s.current) (kr s.current) (k' κ.paren) s) :
    Shadows κ (current >>= k) (current >>= kr) (current >>= k') s := by
  by_cases hahead : s.ahead = κ.seam ∧ κ.apt
  · exact currentAtSeam hahead.1 (hseam hahead.1 hahead.2)
  · refine h.of_eq rfl rfl (fun s' hs => ?_) fun s' hs => ?_
    · rw [← hs.current]
      rfl
    · rw [← hs.current_of_ne fun hseam => hahead ⟨hseam, hs.apt⟩]
      rfl

/-- Where the items end, they must end in both texts. -/
theorem unlessDue {kind : Kind} (h : Shadows κ p r p' s)
    (hseam : s.ahead = κ.seam → κ.apt → s.current.kind ≠ kind ∧ κ.paren.kind ≠ kind) :
    Shadows κ (unlessDue kind p) (unlessDue kind r) (unlessDue kind p') s := by
  refine current ?_ fun hs hapt => ?_
  · split
    · exact pure none
    · exact h.map
  · obtain ⟨hcurrent, hparen⟩ := hseam hs hapt
    rw [if_neg hcurrent, if_neg hcurrent, if_neg hparen]
    exact h.map

theorem spanFrom {k kr k' : Span → Parser β} {begin : Nat}
    (h : ∀ span, Shadows κ (k span) (kr span) (k' span) s) :
    Shadows κ (spanFrom begin >>= k) (spanFrom begin >>= kr) (spanFrom begin >>= k') s := by
  refine (h ⟨begin, max s.stop begin⟩).of_eq rfl rfl (fun s' hs => ?_) fun s' hs => ?_
  · rw [← hs.stop]
    rfl
  · rw [← hs.stop]
    rfl

include law

theorem start {k kr k' : Nat → Parser β}
    (h : ∀ begin, Shadows κ (k begin) (kr begin) (k' begin) s) :
    Shadows κ (start >>= k) (start >>= kr) (start >>= k') s := by
  refine (h s.current.span.start).of_eq rfl rfl (fun s' hs => ?_) fun s' hs => ?_
  · rw [← hs.current]
    rfl
  · rw [← hs.start law]
    rfl

/-- Consumes the token due next, which is not the end. -/
theorem advance {k kr k' : Unit → Parser β} (hdue : s.current.kind ≠ .eof)
    (h : Shadows κ (k ()) (kr ()) (k' ()) s.advance) :
    Shadows κ (advance >>= k) (advance >>= kr) (advance >>= k') s where
  astray hs := h.astray hs.advance
  past s' hs := h.past s'.advance hs.advance
  facing s' hs b s₁ hrun := by
    rcases hs.cases with ⟨hahead, -⟩ | ⟨-, -, hbehind⟩
    · have hne := State.ahead_ne_nil (hs.ended law) hdue
      obtain ⟨hsame, hs₁⟩ := h.astray (astray_advance hahead hne) b s₁ hrun
      exact .astray hsame hs₁
    · exact (h.facing _ hbehind b s₁ hrun).of_eq rfl rfl

/-- If something else is read as well where the token at the seam is, that has gone
astray. -/
theorem advanceIf {f fr f' : Parser β} {k kr k' : Unit → Parser β} (hdue : s.current.kind ≠ .eof)
    (hrun : f s = (Grammar.advance >>= k) s) (hrun_refused : fr s = (Grammar.advance >>= kr) s)
    (hother : ∀ s' : State, s'.current = s.current → f' s' = (Grammar.advance >>= k') s')
    (h : Shadows κ (k ()) (kr ()) (k' ()) s.advance) : Shadows κ f fr f' s := by
  have hadvance := advance law hdue h
  by_cases hahead : s.ahead = κ.seam
  · refine ⟨fun hs => ?_, fun s' hs => absurd hs.short (by rw [hahead]; exact Nat.lt_irrefl _),
      fun s' hs a s₁ hok => ?_⟩
    · intro a s₁ hok
      rw [hrun_refused]
      exact hadvance.astray hs a s₁ (hrun ▸ hok)
    · have hne := State.ahead_ne_nil (hs.ended law) hdue
      rw [hrun] at hok
      obtain ⟨hsame, hs₁⟩ := h.astray (astray_advance hahead hne) a s₁ hok
      exact .astray (hrun_refused.trans hsame) hs₁
  · exact hadvance.of_eq hrun hrun_refused (fun s' hs => hother s' hs.current)
      fun s' hs => hother s' (hs.current_of_ne hahead)

/-- A token of this kind may be due at the seam, but not as the parenthesis. -/
theorem consume {k kr k' : Bool → Parser β} {kind : Kind} (hkind : kind ≠ .eof)
    (hparen : s.ahead = κ.seam → κ.apt → κ.paren.kind ≠ kind)
    (hdue : s.current.kind = kind → Shadows κ (k true) (kr true) (k' true) s.advance)
    (hother : s.current.kind ≠ kind → Shadows κ (k false) (kr false) (k' false) s) :
    Shadows κ (consume kind >>= k) (consume kind >>= kr) (consume kind >>= k') s := by
  by_cases hcurrent : s.current.kind = kind
  · have hconsume {f : Bool → Parser β} {s : State} (h : s.current.kind = kind) :
        (Grammar.consume kind >>= f) s = (Grammar.advance >>= fun _ => f true) s :=
      bind_ok (if_pos h)
    exact advanceIf law (hcurrent ▸ hkind) (hconsume hcurrent) (hconsume hcurrent)
      (fun s' hs => hconsume (hs ▸ hcurrent)) (hdue hcurrent)
  · have hconsume {f : Bool → Parser β} {s : State} (h : s.current.kind ≠ kind) :
        (Grammar.consume kind >>= f) s = f false s := bind_ok (if_neg h)
    refine (hother hcurrent).of_eq (hconsume hcurrent) (hconsume hcurrent) (fun s' hs => ?_)
      fun s' hs => ?_
    · exact hconsume (hs.current ▸ hcurrent)
    · by_cases hahead : s.ahead = κ.seam
      · exact hconsume (hs.current_of_seam hahead ▸ hparen hahead hs.apt)
      · exact hconsume (hs.current_of_ne hahead ▸ hcurrent)

theorem expect {k kr k' : Unit → Parser β} {kind : Kind} (hkind : kind ≠ .eof)
    (h : s.current.kind = kind → Shadows κ (k ()) (kr ()) (k' ()) s.advance) :
    Shadows κ (expect kind >>= k) (expect kind >>= kr) (expect kind >>= k') s := by
  refine assume (φ := s.current.kind = kind) (fun hrun => ?_) fun hcurrent => ?_
  · obtain ⟨_, _, hexpect, -⟩ := bind_eq_ok hrun
    exact (expect_eq_ok hexpect).1
  · have hexpect {f : Unit → Parser β} {s : State} (h : s.current.kind = kind) :
        (Grammar.expect kind >>= f) s = (Grammar.advance >>= f) s := bind_ok (if_pos h)
    exact advanceIf law (hcurrent ▸ hkind) (hexpect hcurrent) (hexpect hcurrent)
      (fun s' hs => hexpect (hs ▸ hcurrent)) (h hcurrent)

/-! ### Names -/

theorem symbolicName {role : NameRole} :
    Shadows κ (symbolicName role) (symbolicName role) (symbolicName role) s := by
  refine assume (φ := ∃ name, s.current.symbolicName? = some name) (fun hrun => ?_) fun hname => ?_
  · exact Leads.symbolicName (Q := fun _ _ => ∃ name, s.current.symbolicName? = some name)
      (fun name h => ⟨name, h⟩) _ _ hrun
  · obtain ⟨name, hname⟩ := hname
    have hdue : s.current.kind ≠ .eof := fun heof => by
      rw [Token.symbolicName?, heof] at hname
      cases hname
    have hread {s : State} (h : s.current.symbolicName? = some name) : Grammar.symbolicName role s
        = (Grammar.advance >>= fun _ => Pure.pure name : Parser String) s := by
      unfold Grammar.symbolicName
      rw [h]
      rfl
    exact advanceIf law hdue (hread hname) (hread hname) (fun s' hs => hread (hs ▸ hname))
      (pure name)

theorem variableName {role : VariableRole} :
    Shadows κ (variableName role) (variableName role) (variableName role) s := by
  refine assume (φ := ∃ name, s.current.kind = .identifier name) (fun hrun => ?_) fun hname => ?_
  · exact ⟨_, (variableName_eq_ok hrun).1⟩
  · obtain ⟨name, hname⟩ := hname
    have hread {s : State} (h : s.current.kind = .identifier name) : Grammar.variableName role s
        = (Grammar.advance >>= fun _ => Pure.pure name : Parser String) s := by
      unfold Grammar.variableName
      rw [h]
      rfl
    exact advanceIf law (by rw [hname]; exact nofun) (hread hname) (hread hname)
      (fun s' hs => hread (hs ▸ hname)) (pure name)

theorem optionalVariable : Shadows κ optionalVariable optionalVariable optionalVariable s := by
  by_cases hname : ∃ name, s.current.kind = .identifier name
  · obtain ⟨name, hname⟩ := hname
    have hread {s : State} (h : s.current.kind = .identifier name) : Grammar.optionalVariable s
        = (Grammar.advance >>= fun _ => Pure.pure (some name) : Parser (Option String)) s := by
      unfold Grammar.optionalVariable
      rw [h]
      rfl
    exact advanceIf law (by rw [hname]; exact nofun) (hread hname) (hread hname)
      (fun s' hs => hread (hs ▸ hname)) (pure _)
  · have hread {s : State} (h : ¬ ∃ name, s.current.kind = .identifier name) :
        Grammar.optionalVariable s = (Pure.pure none : Parser (Option String)) s := by
      unfold Grammar.optionalVariable
      split
      · next name hkind => exact absurd ⟨name, hkind⟩ h
      · rfl
    refine (pure none).of_eq (hread hname) (hread hname) (fun s' hs => hread (hs.current ▸ hname))
      fun s' hs => hread ?_
    by_cases hahead : s.ahead = κ.seam
    · rw [hs.current_of_seam hahead, law.kind]
      exact nofun
    · rw [hs.current_of_ne hahead]
      exact hname

end Tokens

/-! ### Limits -/

end Shadows

/-- The other reading may nest deeper than the first one, and neither recovers. -/
structure Insertion.Roomier (κ : Insertion) (config config' : Config) : Prop where
  recover : config.recover = false
  recover_other : config'.recover = false
  limit : κ.limit = config.maxDepth
  room : config.maxDepth < config'.maxDepth

/-- Where the first one may nest deeper, so may the other one. -/
theorem Insertion.Roomier.depth_lt {config config' : Config} (room : κ.Roomier config config')
    (hs : κ.Frame s s') (hdepth : s.depth < config.maxDepth) : s'.depth < config'.maxDepth := by
  have hroom := room.room
  have hle : κ.deeper ≤ 1 := by
    unfold Insertion.deeper
    split <;> decide
  rw [hs.depth]
  omega

namespace Shadows

section Limits

variable {p r p' : Parser α} {config config' : Config} (room : κ.Roomier config config')

include room

theorem checkHeight {k kr k' : Unit → Parser β} {height : Nat}
    (h : height ≤ config.maxDepth → Shadows κ (k ()) (kr ()) (k' ()) s) :
    Shadows κ (checkHeight config height >>= k) (checkHeight config height >>= kr)
      (checkHeight config' height >>= k') s := by
  have hroom := room.room
  unfold Grammar.checkHeight
  by_cases hheight : height ≤ config.maxDepth
  · rw [if_pos hheight, if_pos (by omega)]
    exact h hheight
  · rw [if_neg hheight]
    exact assume (φ := False) (fun hrun => by cases hrun) fun h => h.elim

theorem nested (hmoves : Moves p) (h : Shadows κ p r p' { s with depth := s.depth + 1 }) :
    Shadows κ (nested config p) (nested config r) (nested config' p') s := by
  refine assume (φ := s.depth < config.maxDepth) (fun hrun => (nested_eq_ok.1 hrun).1) fun hdepth => ?_
  have hlow : s.depth < κ.limit := room.limit ▸ hdepth
  have hdeep {s₁ : State} {a : α} (hrun : p { s with depth := s.depth + 1 } = .ok a s₁) :
      0 < s₁.depth := by
    have hsame : s₁.depth = s.depth + 1 := (hmoves.leads _ a s₁ hrun).depth
    omega
  constructor
  · intro hs a s₂ hrun
    obtain ⟨-, s₁, hfirst, rfl⟩ := nested_eq_ok.1 hrun
    obtain ⟨hsame, hs₁⟩ := h.astray hs a s₁ hfirst
    exact ⟨nested_eq_ok.2 ⟨hdepth, s₁, hsame, rfl⟩, hs₁⟩
  · intro s' hs a s₂ hrun
    obtain ⟨-, s₁, hfirst, rfl⟩ := nested_eq_ok.1 hrun
    obtain ⟨s₁', hsame, hs₁⟩ := h.past _ ⟨hs.enter hlow, hs.opens, hs.ahead, hs.short⟩ a s₁ hfirst
    exact ⟨_, nested_eq_ok.2 ⟨room.depth_lt hs.toFrame hdepth, s₁', hsame, rfl⟩,
      hs₁.leave (hdeep hfirst), hs₁.opens, hs₁.ahead, hs₁.short⟩
  · intro s' hs a s₂ hrun
    obtain ⟨-, s₁, hfirst, rfl⟩ := nested_eq_ok.1 hrun
    have hother := room.depth_lt hs.toFrame hdepth
    cases h.facing _ ⟨hs.enter hlow, hs.apt, hs.ahead⟩ a s₁ hfirst with
    | astray hsame hs₁ => exact .astray (nested_eq_ok.2 ⟨hdepth, s₁, hsame, rfl⟩) hs₁
    | facing hsame hsame' hs₁ =>
      exact .facing (nested_eq_ok.2 ⟨hdepth, s₁, hsame, rfl⟩)
        (nested_eq_ok.2 ⟨hother, _, hsame', rfl⟩) ⟨hs₁.leave (hdeep hfirst), hs₁.apt, hs₁.ahead⟩
    | past hrefuses hsame' hs₁ =>
      refine .past (fun b s₃ hrun' => ?_) (nested_eq_ok.2 ⟨hother, _, hsame', rfl⟩)
        ⟨hs₁.leave (hdeep hfirst), hs₁.opens, hs₁.ahead, hs₁.short⟩
      obtain ⟨-, s₄, hrun', -⟩ := nested_eq_ok.1 hrun'
      exact hrefuses b s₄ hrun'

end Limits

/-! ### Loops -/

section Loops

variable (law : κ.Lawful)

include law

/-- A loop may have more rounds in the longer text. -/
theorem rounds (f fr f' : Nat → Parser β)
    (h : ∀ n, s.ahead.length < n →
      Shadows κ (f (s.ahead.length + 1)) (fr (s.ahead.length + 1)) (f' n) s) :
    Shadows κ (Grammar.lookAhead >>= fun ts => f (ts.length + 1))
      (Grammar.lookAhead >>= fun ts => fr (ts.length + 1))
      (Grammar.lookAhead >>= fun ts => f' (ts.length + 1)) s where
  astray := (h _ (Nat.lt_succ_self _)).astray
  past s' hs := (h (s'.ahead.length + 1) (by rw [hs.ahead]; exact Nat.lt_succ_self _)).past s' hs
  facing s' hs a s₁ hrun :=
    ((h (s'.ahead.length + 1) (Nat.lt_succ_of_le (hs.length_le law))).facing s' hs a s₁ hrun).of_eq
      rfl rfl

/-- The round that ends a loop is the same in both texts. -/
theorem many {step stepr step' : Parser (Option α)} {Q : State → Prop} (hs : s.Ended) (h : Q s)
    (hshortens : Shortens step) (hleads : ∀ s, Q s → Leads step s fun _ => Q)
    (hstep : ∀ s, s.Ended → Q s → Shadows κ step stepr step' s) :
    Shadows κ (many step) (many stepr) (many step') s := by
  have hrounds (n n' : Nat) {s : State} (hs : s.Ended) (h : Q s) (hn : s.ahead.length < n)
      (hn' : s.ahead.length < n') :
      Shadows κ (manyUpTo step n) (manyUpTo stepr n) (manyUpTo step' n') s := by
    induction n generalizing s n' with
    | zero => omega
    | succ n ih =>
      obtain ⟨n', rfl⟩ : ∃ k, n' = k + 1 := ⟨n' - 1, by omega⟩
      unfold manyUpTo
      have hbehind : Leads step s fun r s₁ =>
          Q s₁ ∧ ∀ a, r = some a → s₁.Ended ∧ s₁.ahead.length < s.ahead.length := by
        intro r s₁ hrun
        refine ⟨hleads s h r s₁ hrun, ?_⟩
        rintro a rfl
        exact hshortens s a s₁ hs hrun
      refine (hstep s hs h).bind hbehind fun r s₁ hs₁ => ?_
      cases r with
      | none => exact pure []
      | some a =>
        obtain ⟨hended, hlt⟩ := hs₁.2 a rfl
        exact (ih n' hended hs₁.1 (by omega) (by omega)).map
  exact rounds law (manyUpTo step) (manyUpTo stepr) (manyUpTo step') fun n hn =>
    hrounds _ n hs h (Nat.lt_succ_self _) hn

theorem iterate {step stepr step' : α → Parser (ForInStep α)} {Q : α → State → Prop} {a : α}
    (hs : s.Ended) (h : Q a s) (hproceeds : ∀ a, Proceeds (step a)) (hconsumes : Consumes step)
    (hleads : ∀ a s, Q a s → Leads (step a) s fun r s' => ∀ b, r = .yield b → Q b s')
    (hstep : ∀ a s, s.Ended → Q a s → Shadows κ (step a) (stepr a) (step' a) s) :
    Shadows κ (iterate step a) (iterate stepr a) (iterate step' a) s := by
  have hrounds (n n' : Nat) {a : α} {s : State} (hs : s.Ended) (h : Q a s)
      (hn : s.ahead.length < n) (hn' : s.ahead.length < n') :
      Shadows κ (iterateUpTo step n a) (iterateUpTo stepr n a) (iterateUpTo step' n' a) s := by
    induction n generalizing a s n' with
    | zero => omega
    | succ n ih =>
      obtain ⟨n', rfl⟩ : ∃ k, n' = k + 1 := ⟨n' - 1, by omega⟩
      unfold iterateUpTo
      have hbehind : Leads (step a) s fun r s₁ => s₁.Ended
          ∧ ∀ b, r = .yield b → Q b s₁ ∧ s₁.ahead.length < s.ahead.length := by
        intro r s₁ hrun
        refine ⟨(hproceeds a s r s₁ hrun).ended hs, ?_⟩
        rintro b rfl
        exact ⟨hleads a s h _ s₁ hrun b rfl, hconsumes s a b s₁ hs hrun⟩
      refine (hstep a s hs h).bind hbehind fun r s₁ hs₁ => ?_
      cases r with
      | done b => exact pure b
      | yield b =>
        obtain ⟨hended, hnext⟩ := hs₁
        obtain ⟨hQ, hlt⟩ := hnext b rfl
        exact ih n' hended hQ (by omega) (by omega)
  exact rounds law (iterateUpTo step · a) (iterateUpTo stepr · a) (iterateUpTo step' · a)
    fun n hn => hrounds _ n hs h (Nat.lt_succ_self _) hn

end Loops

end Shadows

end Cypher.Grammar
