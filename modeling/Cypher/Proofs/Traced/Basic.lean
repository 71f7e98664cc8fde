import Cypher.Proofs.Laid.Tokens
import Cypher.Proofs.Traced.Brackets

/-!
# Tracing nodes back to their tokens

While tokens are read, nodes are made, and each can be traced back to the tokens
that it was made of. A stretch of reading is told by the nodes that it has made and
by what it has read that belongs to none of them yet: the brackets that are open,
and the stars.

Where operands are missing, holes take their place. They may lie behind the last
token read, so that it has to be known from case to case whether the holes are
SEALED by a token behind them. Where none is missing, an operand is FRAMED by the
parentheses around it, which have been read and belong to no node at all.
-/

namespace Cypher

open Token (Kind)

def Token.Kind.isStar : Kind → Bool
  | .operator .star => true
  | _ => false

theorem Token.Kind.isStar_iff {kind : Kind} : kind.isStar = true ↔ kind = .operator .star := by
  unfold isStar
  split
  · exact ⟨fun _ => rfl, fun _ => rfl⟩
  · next hother => exact ⟨fun h => (by cases h), fun h => (hother h).elim⟩

/-! ## What is claimed of nodes -/

namespace Sketch

/-- The hole starts in the span and stops there too. Only where the node is no expression may
the span stop in front of an empty hole, with no token between them. -/
structure Covers (tokens : List Token) (form : Form) (span hole : Span) : Prop where
  start_le : span.start ≤ hole.start
  stop_le : hole.stop ≤ span.stop
    ∨ form.isExpression = false ∧ hole.stop = hole.start
      ∧ ∀ t ∈ tokens, t.span.stop ≤ span.stop ∨ hole.start ≤ t.span.start

/-- What is so of every node. -/
structure Upright (tokens : List Token) (o : Sketch) : Prop where
  covers : ∀ h ∈ o.nodes, h.form = .hole → Covers tokens o.form o.span h.span
  star : o.form = .star → ∃ t ∈ tokens, t.kind = .operator .star ∧ t.span = o.span
  item : o.form = .item → ∀ t ∈ tokens, t.kind = .operator .star → t.span.start ≠ o.span.start

/-- An expression is made of tokens that are balanced, if the parentheses around it are counted
in. An atom has none. -/
def Enclosed (tokens : List Token) (o : Sketch) : Prop :=
  o.form.isExpression = true → ∃ ts, ts <:+: tokens ∧ Token.Balanced ts
    ∧ Token.Trimmed ts o.span ∧ (o.form.isAtom = true → Token.Spans ts o.span)

end Sketch

namespace Grammar

open Sketch (nodesOf)

/-! ## Where the reading has come to -/

namespace State

/-- A token has been consumed already. -/
structure Underway (tokens : List Token) (s : State) : Prop where
  placed : s.Placed tokens
  late : 0 < s.edge

variable {tokens read : List Token} {s₀ s : State}

theorem Underway.stop_eq (h : s.Underway tokens) : s.stop = s.edge := by
  obtain ⟨-, -, -, hstop⟩ := h.placed.exists_edge h.late
  exact hstop

theorem Underway.advance (h : s.Underway tokens) : s.advance.Underway tokens :=
  ⟨h.placed.advance, Nat.lt_of_lt_of_le h.late h.placed.le_advance.2⟩

theorem Underway.advanceBy (h : s.Underway tokens) (n : Nat) :
    (s.advanceBy n).Underway tokens ∧ s.edge ≤ (s.advanceBy n).edge := by
  induction n generalizing s with
  | zero => exact ⟨h, Nat.le_refl _⟩
  | succ n ih =>
    obtain ⟨hthere, hedge⟩ := ih h.advance
    exact ⟨hthere, Nat.le_trans h.placed.le_advance.2 hedge⟩

namespace Placed

/-- What was behind before, and what has been read since, is behind now. -/
theorem exists_behind (h₀ : s₀.Placed tokens) (h : s.Placed tokens)
    (hread : s₀.ahead = read ++ s.ahead) :
    ∃ behind, tokens = behind ++ (read ++ s.ahead) ∧ s₀.previous = behind.getLast?
      ∧ s.previous = (behind ++ read).getLast? := by
  obtain ⟨behind₀, htokens₀, hprevious₀⟩ := h₀.ahead
  obtain ⟨behind, htokens, hprevious⟩ := h.ahead
  rw [hread] at htokens₀
  refine ⟨behind₀, htokens₀, hprevious₀, ?_⟩
  have hsame : behind = behind₀ ++ read := by
    rw [htokens₀, ← List.append_assoc] at htokens
    exact (List.append_cancel_right htokens).symm
  rw [← hsame]
  exact hprevious

/-- The tokens read since go from where the first was due to where the last stops. -/
theorem spans (h₀ : s₀.Placed tokens) (h : s.Placed tokens) (hread : s₀.ahead = read ++ s.ahead)
    (hne : read ≠ []) : Token.Spans read ⟨s₀.current.span.start, s.edge⟩ := by
  obtain ⟨behind, -, -, hprevious⟩ := exists_behind h₀ h hread
  obtain ⟨t, rest, rfl⟩ := List.exists_cons_of_ne_nil hne
  refine ⟨?_, ?_⟩
  · rw [current, hread]
    rfl
  · rw [List.getLast?_append_of_ne_nil _ hne] at hprevious
    rw [edge, hprevious, List.getLast?_eq_getLast_of_ne_nil hne]
    rfl

theorem read_ne_nil (h₀ : s₀.Placed tokens) (h : s.Placed tokens)
    (hread : s₀.ahead = read ++ s.ahead) (hlt : s₀.current.span.start < s.edge) : read ≠ [] := by
  rintro rfl
  obtain ⟨behind, -, hprevious₀, hprevious⟩ := exists_behind h₀ h hread
  rw [List.append_nil, ← hprevious₀] at hprevious
  have hedge : s.edge = s₀.edge := by rw [edge, edge, hprevious]
  exact absurd h₀.edge_le (Nat.not_le.2 (hedge ▸ hlt))

/-- A token is behind, or it is due next, or it comes later. -/
theorem place (h : s.Placed tokens) {t : Token} (ht : t ∈ tokens) :
    t.span.stop ≤ s.edge ∨ t = s.current ∨ s.current.span.start < t.span.start := by
  obtain ⟨behind, htokens, hprevious⟩ := h.ahead
  have hpairwise := h.apart.apart
  have hbytes := h.apart.nonempty
  rw [htokens] at hpairwise ht
  obtain ⟨hbehind, hahead, -⟩ := List.pairwise_append.1 hpairwise
  rcases List.mem_append.1 ht with hmem | hmem
  · -- The last token behind is the last to stop.
    obtain ⟨front, last, rfl⟩ := List.eq_nil_or_concat behind |>.resolve_left
      (List.ne_nil_of_mem hmem)
    rw [List.concat_eq_append] at hbehind hprevious hmem htokens
    have hedge : s.edge = last.span.stop := by
      rw [edge, hprevious, List.getLast?_concat]
      rfl
    have hlast := hbytes last (htokens ▸ by simp)
    rw [hedge]
    rcases List.mem_append.1 hmem with hmem | hmem
    · have hapart := (List.pairwise_append.1 hbehind).2.2 t hmem last List.mem_cons_self
      exact .inl (Nat.le_trans hapart (Nat.le_of_lt hlast))
    · exact .inl (Nat.le_of_eq (by rw [List.mem_singleton.1 hmem]))
  · obtain ⟨u, rest, hcons⟩ := List.exists_cons_of_ne_nil (List.ne_nil_of_mem hmem)
    have hcurrent : s.current = u := by
      rw [current, hcons]
      rfl
    rw [hcons] at hmem hahead
    rw [hcurrent]
    rcases List.mem_cons.1 hmem with heq | hrest
    · exact .inr (.inl heq)
    · have hfirst := hbytes u (htokens ▸ List.mem_append_right _ (hcons ▸ List.mem_cons_self))
      exact .inr (.inr (Nat.lt_of_lt_of_le hfirst ((List.pairwise_cons.1 hahead).1 t hrest)))

/-- Only the token due next starts where it does. -/
theorem eq_current (h : s.Placed tokens) {t : Token} (ht : t ∈ tokens)
    (hstart : t.span.start = s.current.span.start) : t = s.current := by
  have hbytes := h.apart.nonempty t ht
  have hedge := h.edge_le
  rcases h.place ht with hbehind | heq | hlater
  · omega
  · exact heq
  · omega

theorem isInfix (h₀ : s₀.Placed tokens) (h : s.Placed tokens) (hread : s₀.ahead = read ++ s.ahead) :
    read <:+: tokens := by
  obtain ⟨behind, htokens, -, -⟩ := exists_behind h₀ h hread
  exact ⟨behind, s.ahead, by rw [htokens, List.append_assoc]⟩

end Placed

end State

/-! ## A stretch of reading -/

/-- What has been read and belongs to no node yet: what is due to close the brackets that are
open, and how many stars. -/
structure Ledger where
  due : Option (List Punctuation) := some []
  stars : Nat := 0

/-- The ledger behind one more token. -/
def Ledger.past (k : Ledger) (kind : Kind) : Ledger :=
  ⟨k.due.bind kind.closing, k.stars + kind.isStar.toNat⟩

/-- What is known of a stretch. -/
structure Known where
  /-- A token has been consumed. -/
  begun : Bool := false
  /-- A token has been consumed behind every hole. -/
  sealed : Bool := false
  /-- It has made one node, around which there are but parentheses. -/
  framed : Bool := false

namespace Known

/-- Behind a token. -/
def token : Known := { begun := true, sealed := true }

/-- Behind an operand, which may be missing. -/
def operand : Known := { framed := true }

/-- What is known of two stretches, the one behind the other. -/
def andThen (f f' : Known) : Known where
  begun := f'.begun || f.begun
  sealed := f'.sealed && (f'.begun || f.sealed)

end Known

/-- Without faults, the tokens `read` are accounted for by the nodes and the ledger. -/
structure Tally (tokens : List Token) (k : Ledger) (f : Known) (l : List Sketch)
    (read : List Token) : Prop where
  due : Token.closing [] read = k.due
  stars : read.countP (·.kind.isStar) = (nodesOf l).countP (·.form.isStarred) + k.stars
  framed : f.framed = true → ∀ o ∈ l, Token.Framed read o.span
  enclosed : ∀ o ∈ nodesOf l, o.Enclosed tokens

/-- The stretch of reading from the one state to the other has made these nodes. -/
structure Traced (tokens : List Token) (k : Ledger) (f : Known) (s₀ : State) (l : List Sketch)
    (s : State) : Prop where
  origin : s₀.Placed tokens
  here : s.Underway tokens
  /-- Tokens have been consumed, or nothing has changed. -/
  moved : s₀.current.span.start < s.edge
    ∨ s.edge = s₀.edge ∧ s.current.span.start = s₀.current.span.start
  begun : f.begun = true → s₀.current.span.start < s.edge
  inside : ∀ o ∈ l, s₀.current.span.start ≤ o.span.start ∧ o.span.start ≤ o.span.stop
    ∧ o.span.stop ≤ s.current.span.start
  apart : l.Pairwise fun o o' => o.span.stop ≤ o'.span.start
  upright : ∀ o ∈ nodesOf l, o.Upright tokens
  /-- A hole that is not behind the last token is empty, and stands where the next one does. -/
  holes : ∀ o ∈ nodesOf l, o.form = .hole → o.span.stop ≤ s.edge
    ∨ f.sealed = false ∧ o.span.start = s.current.span.start
      ∧ o.span.stop = s.current.span.start
  faults : s.faults = [] → s₀.faults = []
  tally : s.faults = [] → ∃ read, s₀.ahead = read ++ s.ahead ∧ Tally tokens k f l read

namespace Traced

variable {tokens : List Token} {k : Ledger} {f f' : Known} {s₀ s s' : State} {l l' : List Sketch}

theorem edge_le (h : Traced tokens k f s₀ l s) : s₀.edge ≤ s.edge := by
  have hedge := h.origin.edge_le
  rcases h.moved with hlt | ⟨heq, -⟩ <;> omega

theorem start_le (h : Traced tokens k f s₀ l s) :
    s₀.current.span.start ≤ s.current.span.start := by
  have hedge := h.here.placed.edge_le
  rcases h.moved with hlt | ⟨-, heq⟩ <;> omega

/-- Before anything is read. -/
theorem nothing (hs : s.Underway tokens) : Traced tokens {} { sealed := true } s [] s where
  origin := hs.placed
  here := hs
  moved := .inr ⟨rfl, rfl⟩
  begun hb := by cases hb
  inside := List.forall_mem_nil _
  apart := .nil
  upright := List.forall_mem_nil _
  holes := List.forall_mem_nil _
  faults := id
  tally _ := ⟨[], rfl, rfl, rfl, fun hf => (by cases hf), List.forall_mem_nil _⟩

theorem mono (h : Traced tokens k f s₀ l s) (hb : f'.begun = true → f.begun = true)
    (hs : f'.sealed = true → f.sealed = true) (hf : f'.framed = true → f.framed = true) :
    Traced tokens k f' s₀ l s where
  origin := h.origin
  here := h.here
  moved := h.moved
  begun hb' := h.begun (hb hb')
  inside := h.inside
  apart := h.apart
  upright := h.upright
  holes o ho hhole := (h.holes o ho hhole).imp_right fun ⟨hopen, hplace⟩ =>
    ⟨Bool.eq_false_iff.2 fun hs' => Bool.eq_false_iff.1 hopen (hs hs'), hplace⟩
  faults := h.faults
  tally hclean :=
    have ⟨read, hread, htally⟩ := h.tally hclean
    ⟨read, hread, { htally with framed := fun hf' => htally.framed (hf hf') }⟩

/-- What is behind the stretch need not know how it went. -/
theorem forget (h : Traced tokens k f s₀ l s) : Traced tokens k {} s₀ l s :=
  h.mono (fun hb => by cases hb) (fun hs => by cases hs) fun hf => by cases hf

/-- Nor an operand what it was made of. -/
theorem asOperand (h : Traced tokens k f s₀ l s) (hf : f.framed = true) :
    Traced tokens k .operand s₀ l s :=
  h.mono (fun hb => by cases hb) (fun hs => by cases hs) fun _ => hf

theorem of_eq (h : Traced tokens k f s₀ l s) (hl : l = l') : Traced tokens k f s₀ l' s := hl ▸ h

/-- Two stretches, the one behind the other. The second closes all brackets that it opens. -/
theorem transStars {n : Nat} (h : Traced tokens k f s₀ l s)
    (h' : Traced tokens { stars := n } f' s l' s') :
    Traced tokens { k with stars := n + k.stars } (f.andThen f') s₀ (l ++ l') s' := by
  have hstart := h.start_le
  have hstart' := h'.start_le
  have hedge' := h'.edge_le
  refine ⟨h.origin, h'.here, ?_, fun hb => ?_, ?_, ?_, ?_, ?_, fun hclean => h.faults (h'.faults hclean),
    fun hclean => ?_⟩
  · rcases h.moved with hlt | ⟨heq, hsame⟩
    · exact .inl (Nat.lt_of_lt_of_le hlt hedge')
    · rcases h'.moved with hlt | ⟨heq', hsame'⟩
      · exact .inl (hsame ▸ hlt)
      · exact .inr ⟨heq'.trans heq, hsame'.trans hsame⟩
  · rcases (Bool.or_eq_true _ _).mp hb with hb | hb
    · exact Nat.lt_of_le_of_lt hstart (h'.begun hb)
    · exact Nat.lt_of_lt_of_le (h.begun hb) hedge'
  · refine List.forall_mem_append.2 ⟨fun o ho => ?_, fun o ho => ?_⟩
    · obtain ⟨hfirst, hspan, hlast⟩ := h.inside o ho
      exact ⟨hfirst, hspan, Nat.le_trans hlast hstart'⟩
    · obtain ⟨hfirst, hspan, hlast⟩ := h'.inside o ho
      exact ⟨Nat.le_trans hstart hfirst, hspan, hlast⟩
  · refine List.pairwise_append.2 ⟨h.apart, h'.apart, fun o ho o' ho' => ?_⟩
    exact Nat.le_trans (h.inside o ho).2.2 (h'.inside o' ho').1
  · rw [Sketch.nodesOf_append]
    exact List.forall_mem_append.2 ⟨h.upright, h'.upright⟩
  · rw [Sketch.nodesOf_append]
    refine List.forall_mem_append.2 ⟨fun o ho hhole => ?_, fun o ho hhole => ?_⟩
    · -- A hole behind the first stretch stays there unless the second goes on.
      rcases h.holes o ho hhole with hstop | ⟨hopen, hfirst, hstop⟩
      · exact .inl (Nat.le_trans hstop hedge')
      · rcases h'.moved with hlt | ⟨-, hsame⟩
        · exact .inl (hstop ▸ Nat.le_of_lt hlt)
        · refine .inr ⟨?_, hfirst.trans hsame.symm, hstop.trans hsame.symm⟩
          have hnone : f'.begun = false := by
            refine Bool.eq_false_iff.2 fun hb => ?_
            have hlt := h'.begun hb
            have hlast := h'.here.placed.edge_le
            omega
          rw [Known.andThen, hopen, hnone, Bool.or_false, Bool.and_false]
    · refine (h'.holes o ho hhole).imp_right fun ⟨hopen, hplace⟩ => ⟨?_, hplace⟩
      rw [Known.andThen, hopen, Bool.false_and]
  · obtain ⟨read', hread', htally'⟩ := h'.tally hclean
    obtain ⟨read, hread, htally⟩ := h.tally (h'.faults hclean)
    refine ⟨read ++ read', by rw [hread, hread', List.append_assoc], ?_, ?_, fun hf => (by cases hf), ?_⟩
    · rw [Token.closing_append, htally.due]
      cases hdue : k.due with
      | none => rfl
      | some due => exact Token.closing_frame htally'.due due
    · rw [List.countP_append, htally.stars, htally'.stars, Sketch.nodesOf_append,
        List.countP_append]
      show _ + k.stars + (_ + n) = _ + _ + (n + k.stars)
      omega
    · rw [Sketch.nodesOf_append]
      exact List.forall_mem_append.2 ⟨htally.enclosed, htally'.enclosed⟩

/-- As `transStars`, where the second leaves nothing in the ledger. -/
theorem trans (h : Traced tokens k f s₀ l s) (h' : Traced tokens {} f' s l' s') :
    Traced tokens k (f.andThen f') s₀ (l ++ l') s' := by
  have hboth := h.transStars h'
  rwa [Nat.zero_add] at hboth

/-! ## Tokens -/

/-- A token is consumed. -/
theorem advance (h : Traced tokens k f s₀ l s) (hkind : s.current.kind ≠ .eof) :
    Traced tokens (k.past s.current.kind) .token s₀ l s.advance := by
  have hahead := h.here.placed.ahead_ne_nil hkind
  obtain ⟨hnext, hedge⟩ := h.here.placed.edge_advance hahead
  have hstart := h.start_le
  have hlast := h.here.placed.edge_le
  have hbehind := h.here.placed.advance.edge_le
  have hlt : s₀.current.span.start < s.advance.edge := Nat.lt_of_le_of_lt hstart hnext
  refine ⟨h.origin, h.here.advance, .inl hlt, fun _ => hlt, fun o ho => ?_, h.apart, h.upright,
    fun o ho hhole => .inl ?_, fun hclean => ?_, fun hclean => ?_⟩
  · obtain ⟨hfirst, hspan, hstop⟩ := h.inside o ho
    exact ⟨hfirst, hspan, by omega⟩
  · rcases h.holes o ho hhole with hstop | ⟨-, -, hstop⟩ <;> omega
  · rw [State.faults_advance] at hclean
    exact h.faults hclean
  · rw [State.faults_advance] at hclean
    obtain ⟨read, hread, htally⟩ := h.tally hclean
    refine ⟨read ++ [s.current], ?_, ?_, ?_, fun hf => (by cases hf), htally.enclosed⟩
    · rw [hread, List.append_assoc, List.singleton_append,
        ← State.ahead_eq h.here.placed.ended hkind]
    · rw [Token.closing_append, htally.due, Ledger.past]
      cases hdue : k.due with
      | none => rfl
      | some due =>
        show (s.current.kind.closing due).bind some = s.current.kind.closing due
        cases s.current.kind.closing due <;> rfl
    · rw [List.countP_append, htally.stars, List.countP_singleton, Ledger.past, Nat.add_assoc]
      cases s.current.kind.isStar <;> rfl

/-- Past a token of a kind that is due. -/
theorem pass {kind : Kind} [kind.Written] (h : Traced tokens k f s₀ l s)
    (hdue : s.current.kind = kind) : Traced tokens (k.past kind) .token s₀ l s.advance :=
  hdue ▸ h.advance (hdue ▸ Kind.Written.ne_eof)

/-! ## Nodes -/

/-- A hole does not start in front of the stretch. -/
theorem start_le_hole (h : Traced tokens k f s₀ l s) {o : Sketch} (ho : o ∈ nodesOf l)
    (hhole : o.form = .hole) : s₀.current.span.start ≤ o.span.start := by
  rw [Sketch.nodesOf_eq] at ho
  obtain ⟨p, hp, hmem⟩ := List.mem_flatMap.1 ho
  have hself := Sketch.nodes_subset_of_mem hp (Sketch.mem_nodes_self p)
  exact Nat.le_trans (h.inside p hp).1 ((h.upright p hself).covers o hmem hhole).start_le

/-- What has been made since becomes the parts of one node, and the stars that were left over
belong to it. -/
theorem enclose (form : Form) (span : Span) (hform : form ≠ .hole)
    (h : Traced tokens { stars := form.isStarred.toNat } f s₀ l s)
    (hspan : s₀.current.span.start ≤ span.start ∧ span.start ≤ span.stop
      ∧ span.stop ≤ s.current.span.start)
    (hcovers : ∀ o ∈ nodesOf l, o.form = .hole → Sketch.Covers tokens form span o.span)
    (hstar : form = .star → ∃ t ∈ tokens, t.kind = .operator .star ∧ t.span = span)
    (hitem : form = .item → ∀ t ∈ tokens, t.kind = .operator .star → t.span.start ≠ span.start)
    (htrimmed : s.faults = [] → ∀ read, s₀.ahead = read ++ s.ahead → form.isExpression = true →
      Token.Trimmed read span ∧ (form.isAtom = true → Token.Spans read span)) :
    Traced tokens {} { f with framed := form.isExpression } s₀ [.node form span l] s := by
  have hnodes : nodesOf [.node form span l] = .node form span l :: nodesOf l := by
    rw [Sketch.nodesOf_singleton, Sketch.nodes]
  have hupright : (Sketch.node form span l).Upright tokens := by
    refine ⟨?_, hstar, hitem⟩
    rw [Sketch.nodes]
    exact List.forall_mem_cons.2 ⟨fun hhole => (hform hhole).elim, hcovers⟩
  refine ⟨h.origin, h.here, h.moved, h.begun, List.forall_mem_singleton.2 hspan,
    List.pairwise_singleton _ _, ?_, ?_, h.faults, fun hclean => ?_⟩
  · rw [hnodes]
    exact List.forall_mem_cons.2 ⟨hupright, h.upright⟩
  · rw [hnodes]
    exact List.forall_mem_cons.2 ⟨fun hhole => (hform hhole).elim, h.holes⟩
  · obtain ⟨read, hread, htally⟩ := h.tally hclean
    refine ⟨read, hread, htally.due, ?_, fun hf => List.forall_mem_singleton.2 ?_, ?_⟩
    · rw [htally.stars, hnodes, List.countP_cons]
      show _ + form.isStarred.toNat = _ + (if form.isStarred = true then 1 else 0) + 0
      cases form.isStarred <;> rfl
    · exact (htrimmed hclean read hread hf).1.framed
    · rw [hnodes]
      refine List.forall_mem_cons.2 ⟨fun hexpr => ?_, htally.enclosed⟩
      obtain ⟨htrim, hatom⟩ := htrimmed hclean read hread hexpr
      exact ⟨read, h.origin.isInfix h.here.placed hread, htally.due, htrim, hatom⟩

/-- The span of what is read since, up to the last token. -/
theorem spanHere (h : Traced tokens k f s₀ l s) :
    s₀.current.span.start ≤ max s.stop s₀.current.span.start
      ∧ max s.stop s₀.current.span.start ≤ s.current.span.start ∧ s.edge ≤ max s.stop s₀.current.span.start := by
  have hstop := h.here.stop_eq
  have hstart := h.start_le
  have hlast := h.here.placed.edge_le
  omega

/-- A node that is no expression takes up all bytes read since, up to the last token. -/
theorem wrap (form : Form) (hform : form.isExpression = false)
    (h : Traced tokens { stars := form.isStarred.toNat } f s₀ l s)
    (hitem : form = .item → s₀.current.kind ≠ .operator .star) :
    Traced tokens {} { f with framed := false } s₀
      [.node form ⟨s₀.current.span.start, max s.stop s₀.current.span.start⟩ l] s := by
  obtain ⟨hspan, hstop, hedge⟩ := h.spanHere
  rw [← hform]
  refine h.enclose form _ (fun hhole => ?_) ⟨Nat.le_refl _, hspan, hstop⟩ (fun o ho hhole => ?_)
    (fun hstar => ?_) (fun hkind t ht hstar hstart => ?_) fun _ _ _ hexpr => ?_
  · rw [hhole] at hform
    cases hform
  · refine ⟨h.start_le_hole ho hhole, ?_⟩
    rcases h.holes o ho hhole with hsealed | ⟨-, hfirst, hlast⟩
    · exact .inl (Nat.le_trans hsealed hedge)
    · -- A hole that nothing follows lies outside, unless nothing has been read at all.
      rcases h.moved with hlt | ⟨-, hsame⟩
      · refine .inr ⟨hform, hlast.trans hfirst.symm, fun t ht => ?_⟩
        show t.span.stop ≤ max s.stop s₀.current.span.start ∨ o.span.start ≤ t.span.start
        rw [hfirst]
        rcases h.here.placed.place ht with hbehind | heq | hlater
        · exact .inl (Nat.le_trans hbehind hedge)
        · exact .inr (Nat.le_of_eq (by rw [heq]))
        · exact .inr (Nat.le_of_lt hlater)
      · exact .inl (by show o.span.stop ≤ max s.stop s₀.current.span.start; omega)
  · rw [hstar] at hform
    cases hform
  · exact hitem hkind (h.origin.eq_current ht hstart ▸ hstar)
  · rw [hform] at hexpr
    cases hexpr

/-- A part of a query takes up all bytes read since. -/
theorem part (h : Traced tokens {} f s₀ l s) :
    Traced tokens {} { f with framed := false } s₀
      [.node .part ⟨s₀.current.span.start, max s.stop s₀.current.span.start⟩ l] s :=
  wrap .part rfl h fun hitem => by cases hitem

/-- An expression with tokens of its own at both ends takes up all bytes read since. -/
theorem close (h : Traced tokens {} .token s₀ l s) :
    Traced tokens {} .operand s₀
      [.node .atom ⟨s₀.current.span.start, max s.stop s₀.current.span.start⟩ l] s := by
  have hlt := h.begun rfl
  have hedge : max s.stop s₀.current.span.start = s.edge := by
    rw [h.here.stop_eq]
    exact Nat.max_eq_left (Nat.le_of_lt hlt)
  rw [hedge]
  refine asOperand (enclose .atom ⟨s₀.current.span.start, s.edge⟩ (by simp) h
    ⟨Nat.le_refl _, Nat.le_of_lt hlt, h.here.placed.edge_le⟩
    (fun o ho hhole => ⟨h.start_le_hole ho hhole, ?_⟩) (by simp) (by simp)
    fun _ read hread _ => ?_) rfl
  · refine (h.holes o ho hhole).imp_right fun hopen => ?_
    cases hopen.1
  · have hne := h.origin.read_ne_nil h.here.placed hread hlt
    have hspans := h.origin.spans h.here.placed hread hne
    exact ⟨hspans.trimmed, fun _ => hspans⟩

/-- The token due next is a node of its own. -/
theorem leaf (form : Form) (hstarred : form.isStarred = s.current.kind.isStar)
    (hform : form ≠ .hole ∧ form ≠ .item) (hs : s.Underway tokens) (hkind : s.current.kind ≠ .eof)
    (hplain : s.current.kind.closing [] = some []) :
    Traced tokens {} { Known.token with framed := form.isExpression } s
      [.node form s.current.span []] s.advance := by
  have h := (nothing hs).advance hkind
  have hahead := hs.placed.ahead_ne_nil hkind
  have hmem := hs.placed.current_mem hahead
  obtain ⟨-, hedge⟩ := hs.placed.edge_advance hahead
  have hledger : ({} : Ledger).past s.current.kind = { stars := form.isStarred.toNat } := by
    rw [Ledger.past, hstarred, Nat.zero_add]
    exact congrArg (Ledger.mk · _) hplain
  rw [hledger] at h
  refine enclose form s.current.span hform.1 h ⟨Nat.le_refl _, ?_, ?_⟩ (List.forall_mem_nil _)
    (fun hstar => ?_) (fun hitem => (hform.2 hitem).elim) fun _ read hread _ => ?_
  · exact Nat.le_of_lt (hs.placed.apart.nonempty _ hmem)
  · exact hedge ▸ hs.placed.advance.edge_le
  · refine ⟨_, hmem, Kind.isStar_iff.1 ?_, rfl⟩
    rw [← hstarred, hstar]
    rfl
  · have hone : [s.current] ++ s.advance.ahead = read ++ s.advance.ahead :=
      (State.ahead_eq hs.placed.ended hkind).symm.trans hread
    rw [← List.append_cancel_right hone]
    exact ⟨(Token.spans_singleton _).trimmed, fun _ => Token.spans_singleton _⟩

theorem upright_head {o : Sketch} (h : Traced tokens k f s₀ (o :: l) s) : o.Upright tokens :=
  h.upright o (Sketch.nodes_subset_of_mem List.mem_cons_self (Sketch.mem_nodes_self o))

/-- A hole stops before the next token starts. -/
theorem stop_hole_le (h : Traced tokens k f s₀ l s) {o : Sketch} (ho : o ∈ nodesOf l)
    (hhole : o.form = .hole) : o.span.stop ≤ s.current.span.start := by
  have hedge := h.here.placed.edge_le
  rcases h.holes o ho hhole with hstop | ⟨-, -, hstop⟩ <;> omega

/-- What is read by two stretches, the one behind the other. -/
theorem tally_append (h : Traced tokens k f s₀ l s) (h' : Traced tokens {} f' s l' s')
    (hclean : s'.faults = []) {read : List Token} (hread : s₀.ahead = read ++ s'.ahead) :
    ∃ first second, read = first ++ second ∧ s₀.ahead = first ++ s.ahead
      ∧ s.ahead = second ++ s'.ahead ∧ Tally tokens k f l first
      ∧ Tally tokens {} f' l' second := by
  obtain ⟨first, hfirst, htally⟩ := h.tally (h'.faults hclean)
  obtain ⟨second, hsecond, htally'⟩ := h'.tally hclean
  refine ⟨first, second, ?_, hfirst, hsecond, htally, htally'⟩
  rw [hfirst, hsecond, ← List.append_assoc] at hread
  exact (List.append_cancel_right hread).symm

/-- The operand in front of a suffix belongs to it with the parentheses behind it. -/
theorem extend {o : Sketch} (h : Traced tokens {} .operand s₀ [o] s)
    (h' : Traced tokens {} .token s l s') :
    Traced tokens {} .operand s₀ [.node .compound ⟨o.span.start, s'.edge⟩ (o :: l)] s' := by
  have hlt := h'.begun rfl
  obtain ⟨hfirst, hspan, hlast⟩ := h.inside o List.mem_cons_self
  have hboth := h.trans h'
  refine asOperand (enclose .compound ⟨o.span.start, s'.edge⟩ (by simp) hboth
    ⟨hfirst, by show o.span.start ≤ s'.edge; omega, h'.here.placed.edge_le⟩
    (fun o' ho' hhole => ⟨?_, ?_⟩) (by simp) (by simp)
    fun hclean read hread _ => ⟨?_, fun hatom => by cases hatom⟩) rfl
  · rw [nodesOf, List.mem_append] at ho'
    rcases ho' with hmem | hmem
    · exact (h.upright_head.covers o' hmem hhole).start_le
    · have hbehind := h'.start_le_hole hmem hhole
      show o.span.start ≤ o'.span.start
      omega
  · refine (hboth.holes o' ho' hhole).imp_right fun hopen => ?_
    cases hopen.1
  · obtain ⟨first, second, rfl, -, hsecond, htally, -⟩ := h.tally_append h' hclean hread
    have hne := h'.origin.read_ne_nil h'.here.placed hsecond hlt
    exact (htally.framed rfl o List.mem_cons_self).extend htally.due
      (h'.origin.spans h'.here.placed hsecond hne)

/-- The operand behind an operator belongs to it with the parentheses in front of it. -/
theorem prepend {o : Sketch} (h : Traced tokens {} .token s₀ [] s)
    (h' : Traced tokens {} .operand s [o] s') (ho : o.form.isExpression = true) :
    Traced tokens {} .operand s₀
      [.node .compound ⟨s₀.current.span.start, o.span.stop⟩ [o]] s' := by
  obtain ⟨hfirst, hspan, hlast⟩ := h'.inside o List.mem_cons_self
  have hstart := h.start_le
  have hboth := h.trans h'
  refine asOperand (enclose .compound ⟨s₀.current.span.start, o.span.stop⟩ (by simp) hboth
    ⟨Nat.le_refl _, by show s₀.current.span.start ≤ o.span.stop; omega, hlast⟩
    (fun o' ho' hhole => ⟨hboth.start_le_hole ho' hhole, ?_⟩) (by simp) (by simp)
    fun hclean read hread _ => ⟨?_, fun hatom => by cases hatom⟩) rfl
  · rw [Sketch.nodesOf_singleton] at ho'
    refine (h'.upright_head.covers o' ho' hhole).stop_le.imp_right fun hpart => ?_
    rw [ho] at hpart
    cases hpart.1
  · obtain ⟨first, second, rfl, hfirst, -, -, htally'⟩ := h.tally_append h' hclean hread
    have hne := h.origin.read_ne_nil h.here.placed hfirst (h.begun rfl)
    have htrimmed := Token.Framed.prepend (h.origin.spans h.here.placed hfirst hne)
      (htally'.framed rfl o List.mem_cons_self) htally'.due
    exact htrimmed

/-- The first part of an operator lies in front of the second, which takes up all its bytes. -/
theorem inside_join {o o' : Sketch} (h : Traced tokens {} .operand s₀ [o] s)
    (h' : Traced tokens {} .operand s.advance [o'] s') :
    s₀.current.span.start ≤ o.span.start ∧ o.span.start ≤ s.current.span.start
      ∧ s.current.span.start ≤ o'.span.start ∧ o'.span.start ≤ o'.span.stop
      ∧ o'.span.stop ≤ s'.current.span.start := by
  obtain ⟨hfirst, hspan, hlast⟩ := h.inside o List.mem_cons_self
  obtain ⟨hfirst', hspan', hlast'⟩ := h'.inside o' List.mem_cons_self
  have hadvance := h.here.placed.le_advance.1
  omega

/-- Two operands belong to the operator between them. -/
theorem join {form : Form} (hform : form = .compound ∨ form = .product) {o o' : Sketch}
    (h : Traced tokens {} .operand s₀ [o] s) (hkind : s.current.kind ≠ .eof)
    (hledger : ({} : Ledger).past s.current.kind = { stars := form.isStarred.toNat })
    (h' : Traced tokens {} .operand s.advance [o'] s') (ho' : o'.form.isExpression = true) :
    Traced tokens {} .operand s₀ [.node form (o.span.join o'.span) [o, o']] s' := by
  obtain ⟨hfirst, hspan, hbetween, hspan', hlast⟩ := h.inside_join h'
  have hstop : o.span.join o'.span = ⟨o.span.start, o'.span.stop⟩ :=
    congrArg (Span.mk _) (Nat.max_eq_left (by omega))
  have hleft := hledger ▸ h.advance hkind
  have hboth := hleft.trans h'
  rw [hstop]
  refine asOperand (enclose form ⟨o.span.start, o'.span.stop⟩ ?_ hboth
    ⟨hfirst, by show o.span.start ≤ o'.span.stop; omega, hlast⟩
    (fun c hc hhole => ?_) ?_ ?_
    fun hclean read hread _ => ⟨?_, fun hatom => ?_⟩) ?_
  · rcases hform with rfl | rfl <;> simp
  · rw [nodesOf, List.mem_append, Sketch.nodesOf_singleton] at hc
    rcases hc with hmem | hmem
    · have hbehind := h.stop_hole_le (Sketch.nodesOf_singleton o ▸ hmem) hhole
      exact ⟨(h.upright_head.covers c hmem hhole).start_le,
        .inl (by show c.span.stop ≤ o'.span.stop; omega)⟩
    · have hcovers := h'.upright_head.covers c hmem hhole
      refine ⟨by have := hcovers.start_le; show o.span.start ≤ c.span.start; omega, ?_⟩
      refine hcovers.stop_le.imp_right fun hpart => ?_
      rw [ho'] at hpart
      cases hpart.1
  · rcases hform with rfl | rfl <;> simp
  · rcases hform with rfl | rfl <;> simp
  · obtain ⟨second, hsecond, htally'⟩ := h'.tally hclean
    obtain ⟨first, hfirst, htally⟩ := h.tally (State.faults_advance s ▸ h'.faults hclean)
    have hahead := State.ahead_eq h.here.placed.ended hkind
    have hall : read = first ++ ([s.current] ++ second) := by
      refine List.append_cancel_right (hread.symm.trans ?_)
      rw [hfirst, hahead, hsecond, List.append_assoc, List.append_assoc]
      rfl
    rw [hall]
    exact (htally.framed rfl o List.mem_cons_self).join htally.due [s.current]
      (htally'.framed rfl o' List.mem_cons_self) htally'.due
  · rcases hform with rfl | rfl <;> cases hatom
  · rcases hform with rfl | rfl <;> rfl

/-- Parentheses leave no node. -/
theorem parenthesize {o : Sketch} (hs : s.Underway tokens)
    (hopen : s.current.kind = .punctuation .lparen)
    (h : Traced tokens {} .operand s.advance [o] s')
    (hclose : s'.current.kind = .punctuation .rparen) :
    Traced tokens {} .operand s [o] s'.advance := by
  have hall := (((nothing hs).pass hopen).trans h).pass hclose
  refine { hall with
    begun := fun hb => by cases hb
    holes := fun o ho hhole => (hall.holes o ho hhole).imp_right fun hopen => by cases hopen.1
    tally := fun hclean => ?_ }
  obtain ⟨read, hread, htally⟩ := hall.tally hclean
  refine ⟨read, hread, { htally with framed := fun _ => List.forall_mem_singleton.2 ?_ }⟩
  obtain ⟨between, hbetween, hinner⟩ := h.tally (State.faults_advance s' ▸ hclean)
  have heq : read = s.current :: (between ++ [s'.current]) := by
    refine List.append_cancel_right (hread.symm.trans ?_)
    rw [State.ahead_eq hs.placed.ended (by simp [hopen]), hbetween,
      State.ahead_eq h.here.placed.ended (by simp [hclose])]
    simp
  rw [heq]
  exact (hinner.framed rfl o List.mem_cons_self).parenthesize hopen hclose

/-- Where an operand is missing, a hole stands over the tokens that are skipped, if any are. -/
theorem exists_hole (hs : s.Underway tokens) {e : Expression}
    (hrun : skipOperand s = .ok e s') :
    s'.Underway tokens ∧ s'.faults ≠ [] ∧ ∃ stop, e = .hole ⟨s.current.span.start, stop⟩
      ∧ (s.current.span.start < s'.edge ∧ stop = s'.edge
        ∨ s'.edge = s.edge ∧ s'.current.span.start = s.current.span.start
          ∧ stop = s.current.span.start) := by
  let recorded : State := { s with faults := s.faults ++ [⟨.expectedExpression, s.current.site⟩] }
  have hrecorded : recorded.Underway tokens :=
    ⟨⟨hs.placed.apart, hs.placed.ahead, hs.placed.ended, hs.placed.stop_le⟩, hs.late⟩
  have hthere := (hrecorded.advanceBy (skipLength 0 s.ahead)).1
  cases hrun
  refine ⟨hthere, ?_, _, rfl, ?_⟩
  · rw [State.faults_advanceBy]
    exact List.append_ne_nil_of_right_ne_nil _ (List.cons_ne_nil _ _)
  · by_cases hnone : skipLength 0 s.ahead = 0
    · rw [if_pos hnone, hnone]
      exact .inr ⟨rfl, rfl, rfl⟩
    · rw [if_neg hnone]
      refine .inl ⟨?_, hthere.stop_eq⟩
      obtain ⟨n, hn⟩ := Nat.exists_eq_succ_of_ne_zero hnone
      have hahead : s.ahead ≠ [] := fun hnil => hnone (by rw [hnil]; rfl)
      rw [hn]
      exact Nat.lt_of_lt_of_le (hrecorded.placed.edge_advance hahead).1
        (hrecorded.advance.advanceBy n).2

theorem missing (hs : s.Underway tokens) :
    Leads skipOperand s fun e s' => Traced tokens {} .operand s [e.sketch] s' := by
  intro e s' hrun
  obtain ⟨hthere, hfaults, stop, rfl, hstop⟩ := exists_hole hs hrun
  have hplace := hthere.placed.edge_le
  have hself : nodesOf [(Expression.hole ⟨s.current.span.start, stop⟩).sketch]
      = [.node .hole ⟨s.current.span.start, stop⟩ []] := rfl
  have hupright : (Sketch.node .hole ⟨s.current.span.start, stop⟩ []).Upright tokens := by
    refine ⟨?_, nofun, nofun⟩
    exact List.forall_mem_singleton.2 fun _ => ⟨Nat.le_refl _, .inl (Nat.le_refl _)⟩
  refine ⟨hs.placed, hthere, ?_, nofun, List.forall_mem_singleton.2 ⟨Nat.le_refl _, ?_, ?_⟩,
    List.pairwise_singleton _ _, ?_, ?_, fun hclean => (hfaults hclean).elim,
    fun hclean => (hfaults hclean).elim⟩
  · exact hstop.imp (·.1) fun h => ⟨h.1, h.2.1⟩
  · show s.current.span.start ≤ stop
    omega
  · show stop ≤ s'.current.span.start
    omega
  · rw [hself]
    exact List.forall_mem_singleton.2 hupright
  · rw [hself]
    refine List.forall_mem_singleton.2 fun _ => ?_
    rcases hstop with ⟨-, rfl⟩ | ⟨-, hsame, rfl⟩
    · exact .inl (Nat.le_refl _)
    · exact .inr ⟨rfl, hsame.symm, hsame.symm⟩

/-- How deep the reading is nested does not matter. -/
theorem atDepth (h : Traced tokens k f s₀ l s) (n n₀ : Nat) :
    Traced tokens k f { s₀ with depth := n₀ } l { s with depth := n } where
  origin := ⟨h.origin.apart, h.origin.ahead, h.origin.ended, h.origin.stop_le⟩
  here := ⟨⟨h.here.placed.apart, h.here.placed.ahead, h.here.placed.ended, h.here.placed.stop_le⟩,
    h.here.late⟩
  moved := h.moved
  begun := h.begun
  inside := h.inside
  apart := h.apart
  upright := h.upright
  holes := h.holes
  faults := h.faults
  tally := h.tally

end Traced

end Grammar

end Cypher
