import Cypher.Grammar.Recovery
import Cypher.Proofs.Leads
import Cypher.Proofs.Lexing.Order
import Cypher.Proofs.Tree.Outline

/-!
# Laying out a tree over its tokens

While tokens are read, nodes are laid over them, one behind the other. What
is said here of a stretch of reading is said of the nodes that it has made:
they have one hole for each fault that was got over, where the fault was found,
and if there was none, they lie over the tokens read, from where the first starts
to where the last stops, and do not overlap.

Two things about the stretch have to be known from case to case. A node may
begin where nothing has been read yet; whether the stretch has BEGUN says
that its node takes up bytes. And an operand may be missing where one has been
missed already; as long as the reading is FRESH, no fault has been found at the
token due next, so that no two holes stand at one place.
-/

namespace Cypher

namespace Grammar

/-! ## Where the reading has come to -/

namespace State

/-- Where the token consumed last stops, and the start of the text before the
first. -/
def edge (s : State) : Nat := (s.previous.map fun t => t.span.stop).getD 0

/-- The reading has come to a place in a list of tokens that do not overlap. -/
structure Placed (tokens : List Token) (s : State) : Prop where
  apart : Token.Apart tokens
  ahead : ∃ behind, tokens = behind ++ s.ahead ∧ s.previous = behind.getLast?
  ended : s.Ended
  stop_le : ∀ t ∈ tokens, t.span.stop ≤ s.eof.span.start

/-- The faults on record are those of missing operands, each at a place of its own
and none further on. -/
structure Recorded (s : State) : Prop where
  missing : ∀ f ∈ s.faults, f.cause = .expectedExpression
  increasing : s.faults.Pairwise fun f g => f.site.span.start < g.site.span.start
  reached : ∀ f ∈ s.faults, f.site.span.start ≤ s.current.span.start

/-- No fault has been found at the token due next. -/
def Fresh (s : State) : Prop := ∀ f ∈ s.faults, f.site.span.start < s.current.span.start

namespace Placed

variable {tokens : List Token} {s : State}

/-- Unless nothing has been consumed, a token stops at the edge. -/
theorem exists_edge (h : s.Placed tokens) (hedge : 0 < s.edge) :
    ∃ t ∈ tokens, t.span.stop = s.edge ∧ s.stop = s.edge := by
  obtain ⟨behind, htokens, hprevious⟩ := h.ahead
  unfold edge at hedge ⊢
  unfold stop
  cases hlast : s.previous with
  | none =>
    rw [hlast] at hedge
    cases hedge
  | some t =>
    have hbehind : t ∈ behind := List.mem_of_getLast? (hprevious ▸ hlast)
    exact ⟨t, htokens ▸ List.mem_append_left _ hbehind, rfl, rfl⟩

theorem ahead_ne_nil (h : s.Placed tokens) (hkind : s.current.kind ≠ .eof) : s.ahead ≠ [] := by
  rw [s.ahead_eq h.ended hkind]
  exact List.cons_ne_nil _ _

/-- The token due next is one of the text, if one is ahead. -/
theorem current_mem (h : s.Placed tokens) (hahead : s.ahead ≠ []) : s.current ∈ tokens := by
  obtain ⟨behind, htokens, -⟩ := h.ahead
  obtain ⟨u, rest, hcons⟩ := List.exists_cons_of_ne_nil hahead
  rw [htokens, current, hcons]
  exact List.mem_append_right _ List.mem_cons_self

/-- What is due next lies behind what was consumed. -/
theorem edge_le (h : s.Placed tokens) : s.edge ≤ s.current.span.start := by
  obtain ⟨behind, htokens, hprevious⟩ := h.ahead
  unfold edge
  cases hlast : s.previous with
  | none => exact Nat.zero_le _
  | some t =>
    have hbehind : t ∈ behind := List.mem_of_getLast? (hprevious ▸ hlast)
    show t.span.stop ≤ s.current.span.start
    unfold current
    cases hahead : s.ahead with
    | nil => exact h.stop_le t (htokens ▸ List.mem_append_left _ hbehind)
    | cons u rest =>
      have hpairwise := h.apart.apart
      rw [htokens, hahead] at hpairwise
      exact (List.pairwise_append.1 hpairwise).2.2 t hbehind u List.mem_cons_self

theorem advance (h : s.Placed tokens) : s.advance.Placed tokens := by
  obtain ⟨behind, htokens, hprevious⟩ := h.ahead
  unfold State.advance
  cases hahead : s.ahead with
  | nil => exact h
  | cons u rest =>
    refine ⟨h.apart, ⟨behind ++ [u], ?_, List.getLast?_concat.symm⟩, h.ended, h.stop_le⟩
    rw [htokens, hahead, List.append_assoc]
    rfl

/-- A token is consumed with all its bytes. -/
theorem edge_advance (h : s.Placed tokens) (hahead : s.ahead ≠ []) :
    s.current.span.start < s.advance.edge ∧ s.advance.edge = s.current.span.stop := by
  have hbytes := h.apart.nonempty _ (h.current_mem hahead)
  obtain ⟨u, rest, hcons⟩ := List.exists_cons_of_ne_nil hahead
  have hedge : s.advance.edge = s.current.span.stop := by
    rw [State.advance, current, hcons]
    rfl
  exact ⟨hedge ▸ hbytes, hedge⟩

/-- The next token starts behind the one due before. -/
theorem start_lt_advance (h : s.Placed tokens) (hahead : s.ahead ≠ []) :
    s.current.span.start < s.advance.current.span.start :=
  Nat.lt_of_lt_of_le (h.edge_advance hahead).1 h.advance.edge_le

/-- Reading on does not lead back. -/
theorem le_advance (h : s.Placed tokens) :
    s.current.span.start ≤ s.advance.current.span.start ∧ s.edge ≤ s.advance.edge := by
  by_cases hahead : s.ahead = []
  · have hsame : s.advance = s := by rw [State.advance, hahead]
    rw [hsame]
    exact ⟨Nat.le_refl _, Nat.le_refl _⟩
  · have hnext := h.start_lt_advance hahead
    have hbytes := (h.edge_advance hahead).1
    have hedge := h.edge_le
    omega

/-- Where tokens have been consumed since, one was due. -/
theorem ahead_ne_nil_of_lt (h : s.Placed tokens) {s' : State} (h' : s'.Placed tokens)
    (hlt : s.current.span.start < s'.edge) : s.ahead ≠ [] := by
  intro hahead
  obtain ⟨t, ht, hstop, -⟩ := h'.exists_edge (Nat.zero_lt_of_lt hlt)
  have hend := h.stop_le t ht
  rw [current, hahead] at hlt
  exact absurd hlt (by simp only [List.headD_nil]; omega)

end Placed

/-! ## Faults on record -/

namespace Recorded

variable {tokens : List Token} {s : State}

theorem advance (h : s.Recorded) (hs : s.Placed tokens) : s.advance.Recorded := by
  refine ⟨?_, ?_, fun f hf => ?_⟩
  · rw [faults_advance]
    exact h.missing
  · rw [faults_advance]
    exact h.increasing
  · rw [faults_advance] at hf
    exact Nat.le_trans (h.reached f hf) hs.le_advance.1

/-- Past a token no fault is left at the token due next. -/
theorem fresh_advance (h : s.Recorded) (hs : s.Placed tokens) (hahead : s.ahead ≠ []) :
    s.advance.Fresh := by
  intro f hf
  rw [faults_advance] at hf
  exact Nat.lt_of_le_of_lt (h.reached f hf) (hs.start_lt_advance hahead)

/-- One more operand is missing, where none has been missed. -/
theorem record (h : s.Recorded) (hfresh : s.Fresh) :
    Recorded { s with faults := s.faults ++ [⟨.expectedExpression, s.current.site⟩] } := by
  refine ⟨?_, ?_, ?_⟩
  · exact List.forall_mem_append.2 ⟨h.missing, List.forall_mem_singleton.2 rfl⟩
  · rw [List.pairwise_append]
    refine ⟨h.increasing, List.pairwise_singleton _ _, fun f hf g hg => ?_⟩
    rw [List.mem_singleton.1 hg]
    exact hfresh f hf
  · exact List.forall_mem_append.2 ⟨h.reached, List.forall_mem_singleton.2 (Nat.le_refl _)⟩

end Recorded

end State

/-! ## What has been laid out -/

/-- The nodes lie over tokens between the two offsets, one behind the other, and
so do the nodes inside them. -/
structure Laid (tokens : List Token) (start stop : Nat) (l : List Outline) : Prop where
  fits : ∀ o ∈ l, o.Everywhere (Outline.Fits tokens)
  inside : ∀ o ∈ l, start ≤ o.span.start ∧ o.span.stop ≤ stop
  apart : l.Pairwise fun o o' => o.span.stop ≤ o'.span.start

namespace Laid

variable {tokens : List Token} {start stop start' stop' : Nat} {l l' : List Outline}

theorem nil : Laid tokens start stop [] :=
  ⟨List.forall_mem_nil _, List.forall_mem_nil _, .nil⟩

theorem mono (h : Laid tokens start stop l) (hstart : start' ≤ start) (hstop : stop ≤ stop') :
    Laid tokens start' stop' l :=
  ⟨h.fits, fun o ho => ⟨Nat.le_trans hstart (h.inside o ho).1,
    Nat.le_trans (h.inside o ho).2 hstop⟩, h.apart⟩

/-- Two rows, the one behind the other. -/
theorem append (h : Laid tokens start stop l) (h' : Laid tokens start' stop' l')
    (hstart : start ≤ start') (hmiddle : stop ≤ start') (hstop : stop ≤ stop') :
    Laid tokens start stop' (l ++ l') := by
  refine ⟨List.forall_mem_append.2 ⟨h.fits, h'.fits⟩, List.forall_mem_append.2
    ⟨(h.mono (Nat.le_refl _) hstop).inside, (h'.mono hstart (Nat.le_refl _)).inside⟩, ?_⟩
  refine List.pairwise_append.2 ⟨h.apart, h'.apart, fun o ho o' ho' => ?_⟩
  exact Nat.le_trans (h.inside o ho).2 (Nat.le_trans hmiddle (h'.inside o' ho').1)

/-- The nodes of a row become the parts of one node, which begins and ends where
tokens do. -/
theorem node (h : Laid tokens start' stop' l) {span : Span} (hbytes : span.start < span.stop)
    (hfirst : ∃ t ∈ tokens, t.span.start = span.start)
    (hlast : ∃ t ∈ tokens, t.span.stop = span.stop)
    (hinside : ∀ o ∈ l, span.start ≤ o.span.start ∧ o.span.stop ≤ span.stop)
    (hstart : start ≤ span.start) (hstop : span.stop ≤ stop) :
    Laid tokens start stop [.node span l] :=
  ⟨List.forall_mem_singleton.2 ⟨⟨hbytes, hfirst, hlast, hinside, h.apart⟩, h.fits⟩,
    List.forall_mem_singleton.2 ⟨hstart, hstop⟩, List.pairwise_singleton _ _⟩

end Laid

/-! ## A stretch of reading -/

/-- The stretch of reading from the one state to the other has made these nodes. -/
structure Since (tokens : List Token) (begun fresh : Bool) (s₀ : State) (l : List Outline)
    (s : State) : Prop where
  origin : s₀.Placed tokens
  placed : s.Placed tokens
  recorded : s.Recorded
  start_le : s₀.current.span.start ≤ s.current.span.start
  edge_le : s₀.edge ≤ s.edge
  /-- Each fault that was got over left a hole where it was found. -/
  holes : ∃ new, s.faults = s₀.faults ++ new
    ∧ new.map (fun f => f.site.span.start) = (Outline.holesOf l).map Span.start
  /-- Without faults, the nodes lie over the tokens that have been read. -/
  laid : s.faults = [] → Laid tokens s₀.current.span.start s.edge l
  /-- A token has been consumed, if it is known. -/
  begun : begun = true → s₀.current.span.start < s.edge
  fresh : fresh = true → s.Fresh

namespace Since

variable {tokens : List Token} {b f b' f' : Bool} {s₀ s s' : State} {l l' : List Outline}

/-- Before anything is read. -/
theorem nothing (hs : s.Placed tokens) (hrecorded : s.Recorded) (hfresh : f = true → s.Fresh) :
    Since tokens false f s [] s where
  origin := hs
  placed := hs
  recorded := hrecorded
  start_le := Nat.le_refl _
  edge_le := Nat.le_refl _
  holes := ⟨[], (List.append_nil _).symm, rfl⟩
  laid _ := .nil
  begun hb := by cases hb
  fresh := hfresh

/-- A new stretch begins here. -/
theorem restart (h : Since tokens b f s₀ l s) : Since tokens false f s [] s :=
  nothing h.placed h.recorded h.fresh

theorem mono (h : Since tokens b f s₀ l s) (hb : b' = true → b = true)
    (hf : f' = true → f = true) : Since tokens b' f' s₀ l s :=
  { h with begun := fun hb' => h.begun (hb hb'), fresh := fun hf' => h.fresh (hf hf') }

/-- What is behind the stretch need not know how it began, or where it ended. -/
theorem forget (h : Since tokens b f s₀ l s) : Since tokens false false s₀ l s :=
  h.mono (fun hb => by cases hb) fun hf => by cases hf

theorem of_eq (h : Since tokens b f s₀ l s) (hl : l = l') : Since tokens b f s₀ l' s := hl ▸ h

/-- Two stretches, the one behind the other. -/
theorem trans (h : Since tokens b f s₀ l s) (h' : Since tokens b' f' s l' s') :
    Since tokens (b || b') f' s₀ (l ++ l') s' := by
  obtain ⟨new, hnew, hholes⟩ := h.holes
  obtain ⟨new', hnew', hholes'⟩ := h'.holes
  refine ⟨h.origin, h'.placed, h'.recorded, Nat.le_trans h.start_le h'.start_le,
    Nat.le_trans h.edge_le h'.edge_le, ⟨new ++ new', ?_, ?_⟩, fun hclean => ?_, fun hb => ?_,
    h'.fresh⟩
  · rw [hnew', hnew, List.append_assoc]
  · rw [List.map_append, hholes, hholes', Outline.holesOf_append, List.map_append]
  · have hbefore : s.faults = [] := by
      rw [hnew'] at hclean
      exact (List.append_eq_nil_iff.1 hclean).1
    exact (h.laid hbefore).append (h'.laid hclean) h.start_le h.placed.edge_le h'.edge_le
  · rcases (Bool.or_eq_true _ _).mp hb with hb | hb
    · exact Nat.lt_of_lt_of_le (h.begun hb) h'.edge_le
    · exact Nat.lt_of_le_of_lt h.start_le (h'.begun hb)

/-- The token due next is consumed, if there is one. -/
theorem skip (h : Since tokens b f s₀ l s) : Since tokens b false s₀ l s.advance := by
  obtain ⟨new, hnew, hholes⟩ := h.holes
  obtain ⟨hstart, hedge⟩ := h.placed.le_advance
  refine ⟨h.origin, h.placed.advance, h.recorded.advance h.placed, Nat.le_trans h.start_le hstart,
    Nat.le_trans h.edge_le hedge, ⟨new, ?_, hholes⟩, fun hclean => ?_, fun hb => ?_,
    fun hf => by cases hf⟩
  · rw [State.faults_advance, hnew]
  · rw [State.faults_advance] at hclean
    exact (h.laid hclean).mono (Nat.le_refl _) hedge
  · exact Nat.lt_of_lt_of_le (h.begun hb) hedge

/-- A token is consumed, and what comes next has not been met with. -/
theorem advance (h : Since tokens b f s₀ l s) (hkind : s.current.kind ≠ .eof) :
    Since tokens true true s₀ l s.advance := by
  have hahead := h.placed.ahead_ne_nil hkind
  refine { h.skip with begun := fun _ => ?_, fresh := fun _ => ?_ }
  · exact Nat.lt_of_le_of_lt h.start_le (h.placed.edge_advance hahead).1
  · exact h.recorded.fresh_advance h.placed hahead

/-- The token due next is a node of its own. -/
theorem leaf (h : Since tokens b f s₀ l s) (hkind : s.current.kind ≠ .eof) :
    Since tokens true true s₀ (l ++ [.node s.current.span []]) s.advance := by
  have hahead := h.placed.ahead_ne_nil hkind
  have hmem := h.placed.current_mem hahead
  have hedge := (h.placed.edge_advance hahead).2
  have hlaid : Laid tokens s.current.span.start s.advance.edge [.node s.current.span []] :=
    (Laid.nil : Laid tokens 0 0 []).node (h.placed.apart.nonempty _ hmem) ⟨_, hmem, rfl⟩
      ⟨_, hmem, rfl⟩ (List.forall_mem_nil _) (Nat.le_refl _) (Nat.le_of_eq hedge.symm)
  have hself : Since tokens true true s [.node s.current.span []] s.advance :=
    { h.restart.advance hkind with laid := fun _ => hlaid }
  exact (h.trans hself).mono (fun _ => Bool.or_true _) id

/-- What has been laid out since becomes the parts of one node. -/
theorem enclose (h : Since tokens b f s₀ l s) {span : Span}
    (hspan : Laid tokens s₀.current.span.start s.edge l →
      Laid tokens s₀.current.span.start s.edge [.node span l]) :
    Since tokens b f s₀ [.node span l] s :=
  { h with
    holes := by rw [Outline.holesOf_node]; exact h.holes
    laid := fun hclean => hspan (h.laid hclean) }

/-- The node takes up all bytes read since, which are not none. -/
theorem wrap (h : Since tokens b f s₀ l s) (hbytes : b = true ∨ l ≠ []) :
    Since tokens b f s₀
      [.node ⟨s₀.current.span.start, max s.stop s₀.current.span.start⟩ l] s := by
  refine h.enclose fun hlaid => ?_
  have hlt : s₀.current.span.start < s.edge := by
    rcases hbytes with hb | hne
    · exact h.begun hb
    · obtain ⟨o, os, rfl⟩ := List.exists_cons_of_ne_nil hne
      obtain ⟨hstart, hstop⟩ := hlaid.inside o List.mem_cons_self
      have hbytes := (hlaid.fits o List.mem_cons_self).here.nonempty
      omega
  obtain ⟨t, ht, hstop, hsame⟩ := h.placed.exists_edge (Nat.zero_lt_of_lt hlt)
  have hmem := h.origin.current_mem (h.origin.ahead_ne_nil_of_lt h.placed hlt)
  have hmax : max s.stop s₀.current.span.start = s.edge := by
    rw [hsame]
    exact Nat.max_eq_left (Nat.le_of_lt hlt)
  rw [hmax]
  exact hlaid.node hlt ⟨_, hmem, rfl⟩ ⟨t, ht, hstop⟩ hlaid.inside (Nat.le_refl _) (Nat.le_refl _)

/-- As `wrap`, where a token has been consumed. -/
theorem close (h : Since tokens true f s₀ l s) :
    Since tokens false false s₀
      [.node ⟨s₀.current.span.start, max s.stop s₀.current.span.start⟩ l] s :=
  (h.wrap (.inl rfl)).forget

/-- The node starts with its first part and takes up all bytes read since. -/
theorem wrapFirst {o : Outline} (h : Since tokens b f s₀ (o :: l) s) {stop : Nat}
    (hstop : o.span.start < s.edge → stop = s.edge) :
    Since tokens b f s₀ [.node ⟨o.span.start, stop⟩ (o :: l)] s := by
  refine h.enclose fun hlaid => ?_
  have hfits := (hlaid.fits o List.mem_cons_self).here
  have hbytes := hfits.nonempty
  obtain ⟨hfirst, hlast⟩ := hlaid.inside o List.mem_cons_self
  have hlt : o.span.start < s.edge := Nat.lt_of_lt_of_le hbytes hlast
  obtain ⟨t, ht, hedge, -⟩ := h.placed.exists_edge (Nat.zero_lt_of_lt hlt)
  rw [hstop hlt]
  refine hlaid.node hlt hfits.start ⟨t, ht, hedge⟩ (fun c hc => ⟨?_, (hlaid.inside c hc).2⟩)
    hfirst (Nat.le_refl _)
  -- The other parts lie behind the first.
  rcases List.mem_cons.1 hc with rfl | hmem
  · exact Nat.le_refl _
  · have hbehind := (List.pairwise_cons.1 hlaid.apart).1 c hmem
    show o.span.start ≤ c.span.start
    omega

/-- The node goes from its first part to its last. -/
theorem wrapBoth {o o' : Outline} (h : Since tokens b f s₀ [o, o'] s) {stop : Nat}
    (hstop : o.span.start < o'.span.stop → stop = o'.span.stop) :
    Since tokens b f s₀ [.node ⟨o.span.start, stop⟩ [o, o']] s := by
  refine h.enclose fun hlaid => ?_
  have hmem : o' ∈ [o, o'] := List.mem_cons_of_mem _ List.mem_cons_self
  have hfits := (hlaid.fits o List.mem_cons_self).here
  have hfits' := (hlaid.fits o' hmem).here
  have hbytes := hfits.nonempty
  have hbytes' := hfits'.nonempty
  have hbetween : o.span.stop ≤ o'.span.start :=
    (List.pairwise_cons.1 hlaid.apart).1 o' List.mem_cons_self
  have hlt : o.span.start < o'.span.stop := by omega
  rw [hstop hlt]
  refine hlaid.node hlt hfits.start hfits'.stop ?_ (hlaid.inside o List.mem_cons_self).1
    (hlaid.inside o' hmem).2
  rw [List.forall_mem_cons, List.forall_mem_singleton]
  exact ⟨⟨Nat.le_refl _, by show o.span.stop ≤ o'.span.stop; omega⟩,
    by show o.span.start ≤ o'.span.start; omega, Nat.le_refl _⟩

/-- The node takes up the same bytes as its only part. -/
theorem wrapSame {o : Outline} (h : Since tokens b f s₀ [o] s) :
    Since tokens b f s₀ [.node o.span [o]] s := by
  refine h.enclose fun hlaid => ?_
  have hfits := (hlaid.fits o List.mem_cons_self).here
  obtain ⟨hfirst, hlast⟩ := hlaid.inside o List.mem_cons_self
  exact hlaid.node hfits.nonempty hfits.start hfits.stop
    (List.forall_mem_singleton.2 ⟨Nat.le_refl _, Nat.le_refl _⟩) hfirst hlast

/-- The node starts where the stretch does, with a token, and goes to its only part. -/
theorem wrapLast {o : Outline} (h : Since tokens b f s₀ [o] s) (hb : b = true) :
    Since tokens b f s₀ [.node ⟨s₀.current.span.start, o.span.stop⟩ [o]] s := by
  refine h.enclose fun hlaid => ?_
  have hfits := (hlaid.fits o List.mem_cons_self).here
  have hbytes := hfits.nonempty
  obtain ⟨hfirst, hlast⟩ := hlaid.inside o List.mem_cons_self
  have hmem := h.origin.current_mem (h.origin.ahead_ne_nil_of_lt h.placed (h.begun hb))
  exact hlaid.node (by show s₀.current.span.start < o.span.stop; omega) ⟨_, hmem, rfl⟩ hfits.stop
    (List.forall_mem_singleton.2 ⟨hfirst, Nat.le_refl _⟩) (Nat.le_refl _) hlast

/-- An operand is missing: a fault is put on record, and a hole over what comes next. -/
theorem record (h : Since tokens b true s₀ l s) (stop : Nat) :
    Since tokens b false s₀ (l ++ [.hole ⟨s.current.span.start, stop⟩])
      { s with faults := s.faults ++ [⟨.expectedExpression, s.current.site⟩] } := by
  obtain ⟨new, hnew, hholes⟩ := h.holes
  refine ⟨h.origin, ⟨h.placed.apart, h.placed.ahead, h.placed.ended, h.placed.stop_le⟩,
    h.recorded.record (h.fresh rfl), h.start_le, h.edge_le,
    ⟨new ++ [⟨.expectedExpression, s.current.site⟩], ?_, ?_⟩, fun hclean => ?_, h.begun,
    fun hf => by cases hf⟩
  · show s.faults ++ _ = _
    rw [hnew, List.append_assoc]
  · rw [List.map_append, hholes, Outline.holesOf_append, List.map_append]
    rfl
  · exact absurd hclean (List.append_ne_nil_of_right_ne_nil _ (List.cons_ne_nil _ _))

theorem skipBy (n : Nat) (h : Since tokens b false s₀ l s) :
    Since tokens b false s₀ l (s.advanceBy n) := by
  induction n generalizing s with
  | zero => exact h
  | succ n ih => exact ih h.skip

/-- How deep the reading is nested does not matter. -/
theorem atDepth (h : Since tokens b f s₀ l s) (n n₀ : Nat) :
    Since tokens b f { s₀ with depth := n₀ } l { s with depth := n } where
  origin := ⟨h.origin.apart, h.origin.ahead, h.origin.ended, h.origin.stop_le⟩
  placed := ⟨h.placed.apart, h.placed.ahead, h.placed.ended, h.placed.stop_le⟩
  recorded := ⟨h.recorded.missing, h.recorded.increasing, h.recorded.reached⟩
  start_le := h.start_le
  edge_le := h.edge_le
  holes := h.holes
  laid := h.laid
  begun := h.begun
  fresh := h.fresh

end Since

end Grammar

end Cypher
