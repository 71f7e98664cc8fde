import Cypher.Proofs.Derived.Sound

/-!
# The grammar of paths belongs to what is read

In front of tokens that are written for some part, its parser takes these tokens
and answers what they are written for, unless a number stops it.

A part that is missing has to be told from the one that follows it. The parts of
a node and of a relationship stand in a fixed order, and each starts with a kind
of token of its own; so it is enough to know how far on in that order the next
token stands. The loop over the steps of a path goes by the tokens that a
relationship starts with.
-/

namespace Cypher

open Token (Kind)

/-- How far on a token of the kind stands in a node or in a detail. -/
def Token.Kind.place : Kind → Nat
  | .identifier _ => 0
  | .punctuation .colon => 1
  | .operator .pipe => 2
  | .operator .star => 3
  | .integer _ => 4
  | .operator .dotDot => 5
  | .parameter _ | .punctuation .lbrace => 6
  | _ => 7

namespace Derived

variable {α : Type} {D : List Token → α → Prop} {kind : Kind} {ts us rest : List Token} {n : Nat}

/-- A token stands in front that is further on than this. -/
def Beyond (n : Nat) (ts : List Token) : Prop := ∃ t us, ts = t :: us ∧ n < t.kind.place

theorem Beyond.cons {t : Token} (hdue : t.kind = kind) (h : n < kind.place) :
    Beyond n (t :: us) := ⟨t, us, rfl, hdue ▸ h⟩

/-- No part of the kind itself stands there. -/
theorem Beyond.exists_ne (h : Beyond n ts) (hkind : kind.place ≤ n) :
    ∃ t us, ts = t :: us ∧ t.kind ≠ kind := by
  obtain ⟨t, us, hts, ht⟩ := h
  refine ⟨t, us, hts, fun heq => ?_⟩
  rw [heq] at ht
  exact Nat.not_lt_of_le hkind ht

theorem Beyond.mono {m : Nat} (h : Beyond n ts) (hle : m ≤ n) : Beyond m ts := by
  obtain ⟨t, us, hts, ht⟩ := h
  exact ⟨t, us, hts, Nat.lt_of_le_of_lt hle ht⟩

theorem Behind.beyond {a : α} (h : Behind kind D ts a) (hkind : n < kind.place) :
    Beyond n (ts ++ rest) := by
  cases h with
  | mk due part => exact .cons due hkind

theorem Optional.beyond {o : Option α} (h : Optional D ts o)
    (hpart : ∀ {a}, D ts a → Beyond n (ts ++ rest)) (hrest : Beyond n rest) :
    Beyond n (ts ++ rest) := by
  cases h with
  | absent => exact hrest
  | present part => exact hpart part

theorem Repeated.beyond {as : List α} (h : Repeated D ts as)
    (hpart : ∀ {ts a rest}, D ts a → Beyond n (ts ++ rest)) (hrest : Beyond n rest) :
    Beyond n (ts ++ rest) := by
  cases h with
  | nil => exact hrest
  | cons first others =>
    rw [List.append_assoc]
    exact hpart first

theorem Parameter.beyond {p : Properties} (h : Parameter ts p) (hn : n < 6) :
    Beyond n (ts ++ rest) := by
  cases h with
  | mk due => exact .cons due hn

theorem Bound.beyond {fits : Nat → Prop} {bound : Nat} (h : Bound fits ts bound) (hn : n < 4) :
    Beyond n (ts ++ rest) := by
  cases h with
  | mk due => exact .cons due hn

theorem Types.beyond {names : List String} (h : Types ts names) (hn : n < 1)
    (hrest : Beyond n rest) : Beyond n (ts ++ rest) := by
  cases h with
  | none => exact hrest
  | some first others =>
    rw [List.append_assoc]
    exact first.beyond hn

end Derived

namespace Grammar

open Derived

variable {α β γ : Type} {E : Fault → Prop}

/-- The run answers what `Q` says and leaves `rest`, or it stops with a fault of which `E`
holds. -/
def Arrives (E : Fault → Prop) (p : Parser α) (s : State) (rest : List Token) (Q : α → Prop) :
    Prop :=
  (∃ a s', p s = .ok a s' ∧ s'.ahead = rest ∧ Q a) ∨ ∃ fault s', p s = .error fault s' ∧ E fault

namespace State

variable {s : State} {t : Token} {us : List Token}

theorem current_of_ahead (hs : s.ahead = t :: us) : s.current = t := by
  unfold State.current
  rw [hs]
  rfl

theorem advance_of_ahead (hs : s.ahead = t :: us) : s.advance.ahead = us := by
  unfold State.advance
  rw [hs]

end State

namespace Arrives

variable {p : Parser α} {f : α → Parser β} {s : State} {t : Token} {us mid rest : List Token}
  {Q Q' : α → Prop} {R : β → Prop} {kind : Kind}

theorem bind (hp : Arrives E p s mid Q)
    (hf : ∀ a s', s'.ahead = mid → Q a → Arrives E (f a) s' rest R) :
    Arrives E (p >>= f) s rest R := by
  rcases hp with ⟨a, s', hrun, hmid, hQ⟩ | ⟨fault, s', hrun, hE⟩
  · unfold Arrives
    rw [bind_ok hrun]
    exact hf a s' hmid hQ
  · exact .inr ⟨fault, s', bind_error hrun, hE⟩

theorem mono (hp : Arrives E p s rest Q) (h : ∀ a, Q a → Q' a) : Arrives E p s rest Q' := by
  rcases hp with ⟨a, s', hrun, hrest, hQ⟩ | herror
  · exact .inl ⟨a, s', hrun, hrest, h a hQ⟩
  · exact .inr herror

theorem ok {a : α} {s' : State} (hrun : p s = .ok a s') (hrest : s'.ahead = rest) (hQ : Q a) :
    Arrives E p s rest Q := .inl ⟨a, s', hrun, hrest, hQ⟩

theorem pure {a : α} (hs : s.ahead = rest) (hQ : Q a) : Arrives E (pure a) s rest Q :=
  ok rfl hs hQ

theorem start {f : Nat → Parser β} (h : ∀ begin, Arrives E (f begin) s rest R) :
    Arrives E (start >>= f) s rest R := h _

theorem spanFrom {f : Span → Parser β} {begin : Nat} (h : ∀ span, Arrives E (f span) s rest R) :
    Arrives E (spanFrom begin >>= f) s rest R := h _

theorem lookAhead {f : List Token → Parser β} (h : Arrives E (f s.ahead) s rest R) :
    Arrives E (lookAhead >>= f) s rest R := h

theorem current {f : Token → Parser β} (hs : s.ahead = t :: us) (h : Arrives E (f t) s rest R) :
    Arrives E (current >>= f) s rest R := by
  rw [← State.current_of_ahead hs] at h
  exact h

theorem advance {f : Unit → Parser β} (hs : s.ahead = t :: us)
    (h : ∀ s', s'.ahead = us → Arrives E (f ()) s' rest R) :
    Arrives E (advance >>= f) s rest R := h _ (State.advance_of_ahead hs)

theorem expect {f : Unit → Parser β} (hs : s.ahead = t :: us) (hdue : t.kind = kind)
    (h : ∀ s', s'.ahead = us → Arrives E (f ()) s' rest R) :
    Arrives E (expect kind >>= f) s rest R := by
  have hrun : Grammar.expect kind s = .ok () s.advance := by
    unfold Grammar.expect
    rw [State.current_of_ahead hs, if_pos hdue]
  unfold Arrives
  rw [bind_ok hrun]
  exact h _ (State.advance_of_ahead hs)

theorem consume {f : Bool → Parser β} (hs : s.ahead = t :: us) (hdue : t.kind = kind)
    (h : ∀ s', s'.ahead = us → Arrives E (f true) s' rest R) :
    Arrives E (consume kind >>= f) s rest R := by
  have hrun : Grammar.consume kind s = .ok true s.advance := by
    unfold Grammar.consume
    rw [State.current_of_ahead hs, if_pos hdue]
  unfold Arrives
  rw [bind_ok hrun]
  exact h _ (State.advance_of_ahead hs)

theorem pass {f : Bool → Parser β} (hs : s.ahead = rest)
    (hrest : ∃ t us, rest = t :: us ∧ t.kind ≠ kind) (h : Arrives E (f false) s mid R) :
    Arrives E (Grammar.consume kind >>= f) s mid R := by
  obtain ⟨t, us, rfl, hne⟩ := hrest
  have hrun : Grammar.consume kind s = .ok false s := by
    unfold Grammar.consume
    rw [State.current_of_ahead hs, if_neg hne]
  unfold Arrives
  rw [bind_ok hrun]
  exact h

end Arrives

/-! ## What grammars are made of -/

section Parts

variable {D : List Token → β → Prop} {item : Parser α} {step : Parser (Option α)} {view : α → β}
  {kind : Kind} {s : State} {ts rest : List Token}

/-- Where the token in front is due, the part behind it is read. -/
theorem arrives_behindDue {b : β} (h : Behind kind D ts b)
    (hitem : ∀ {ts b s}, D ts b → s.ahead = ts ++ rest → Arrives E item s rest (view · = b))
    (hs : s.ahead = ts ++ rest) : Arrives E (behind kind item) s rest (·.map view = some b) := by
  cases h with
  | mk due part =>
    refine .consume hs due fun s' hs' => (hitem part hs').bind fun a s'' hs'' ha => ?_
    exact .pure hs'' (congrArg some ha)

variable (view) in
theorem arrives_behind {o : Option β} (h : Optional (Behind kind D) ts o)
    (hitem : ∀ {ts b s}, D ts b → s.ahead = ts ++ rest → Arrives E item s rest (view · = b))
    (hs : s.ahead = ts ++ rest) (hrest : Beyond kind.place rest) :
    Arrives E (behind kind item) s rest (·.map view = o) := by
  cases h with
  | absent => exact .pass hs (hrest.exists_ne (Nat.le_refl _)) (.pure hs rfl)
  | present part => exact arrives_behindDue part hitem hs

theorem arrives_many {bs : List β} (h : Repeated D ts bs)
    (hstep : ∀ {ts b rest s}, D ts b → s.ahead = ts ++ rest →
      Arrives E step s rest (·.map view = some b))
    (hne : ∀ {ts b}, D ts b → ts ≠ [])
    (hstop : ∀ {s}, s.ahead = rest → Arrives E step s rest (· = none))
    (hs : s.ahead = ts ++ rest) :
    Arrives E (many step) s rest (·.map view = bs) := by
  -- A step takes at least one token, so there are rounds enough.
  have hrounds (n : Nat) (hn : ts.length < n) :
      Arrives E (manyUpTo step n) s rest (·.map view = bs) := by
    induction h generalizing s n with
    | nil =>
      obtain ⟨n, rfl⟩ : ∃ k, n = k + 1 := ⟨n - 1, by omega⟩
      refine (hstop hs).bind fun r s' hs' hr => ?_
      rw [hr]
      exact .pure hs' rfl
    | cons first others ih =>
      obtain ⟨n, rfl⟩ : ∃ k, n = k + 1 := ⟨n - 1, by omega⟩
      rw [List.append_assoc] at hs
      have hlength := List.length_pos_of_ne_nil (hne first)
      rw [List.length_append] at hn
      refine (hstep first hs).bind fun r s' hs' hr => ?_
      obtain ⟨a, rfl, ha⟩ := Option.map_eq_some_iff.1 hr
      refine (ih hs' n (by omega)).bind fun as s'' hs'' has => .pure hs'' ?_
      rw [List.map_cons, ha, has]
  refine hrounds _ ?_
  rw [hs, List.length_append]
  omega

variable (view) in
/-- Parts behind tokens of one kind. -/
theorem arrives_manyBehind {bs : List β} (h : Repeated (Behind kind D) ts bs)
    (hitem : ∀ {ts b rest s}, D ts b → s.ahead = ts ++ rest → Arrives E item s rest (view · = b))
    (hs : s.ahead = ts ++ rest) (hrest : Beyond kind.place rest) :
    Arrives E (many (behind kind item)) s rest (·.map view = bs) := by
  refine arrives_many h (fun hpart hs => arrives_behindDue hpart hitem hs) (fun hpart => ?_)
    (fun hs => .pass hs (hrest.exists_ne (Nat.le_refl _)) (.pure hs rfl)) hs
  cases hpart with
  | mk due part => exact List.cons_ne_nil _ _

end Parts

variable {expr : Parser Expression} {s : State} {ts rest : List Token}

theorem arrives_optionalVariable {name : Option String} (h : Optional Variable ts name)
    (hs : s.ahead = ts ++ rest) (hrest : Beyond 0 rest) :
    Arrives E optionalVariable s rest (· = name) := by
  cases h with
  | absent =>
    obtain ⟨t, us, rfl, ht⟩ := hrest
    have hrun : optionalVariable s = .ok none s := by
      unfold optionalVariable
      rw [State.current_of_ahead hs]
      split
      · next hkind =>
        rw [hkind] at ht
        exact absurd ht (Nat.lt_irrefl _)
      · rfl
    exact .ok hrun hs rfl
  | present part =>
    cases part with
    | mk due =>
      refine .ok ?_ (State.advance_of_ahead hs) rfl
      unfold optionalVariable
      rw [State.current_of_ahead hs, due]

theorem arrives_symbolicName {role : NameRole} {name : String} (h : Name ts name)
    (hs : s.ahead = ts ++ rest) : Arrives E (symbolicName role) s rest (· = name) := by
  cases h with
  | mk due =>
    refine .ok ?_ (State.advance_of_ahead hs) rfl
    unfold symbolicName
    rw [State.current_of_ahead hs, due]

/-! ## Nodes -/

theorem arrives_optionalLabels {labels : List String}
    (h : Repeated (Behind (.punctuation .colon) Name) ts labels) (hs : s.ahead = ts ++ rest)
    (hrest : Beyond 1 rest) : Arrives E optionalLabels s rest (· = labels) := by
  cases h with
  | nil =>
    obtain ⟨t, us, rfl, hne⟩ := hrest.exists_ne (by decide : Kind.place (.punctuation .colon) ≤ 1)
    refine .current hs ?_
    rw [if_neg hne]
    exact .pure hs rfl
  | cons first others =>
    have hall := Repeated.cons first others
    cases first with
    | mk due part =>
      refine .current hs ?_
      rw [if_pos due]
      refine (arrives_manyBehind id hall (arrives_symbolicName ·) hs hrest).bind
        fun labels s' hs' hlabels => ?_
      rw [List.map_id] at hlabels
      rw [hlabels]
      exact .pure hs' rfl

theorem arrives_properties {found : Option Properties} (h : Optional Parameter ts found)
    (hs : s.ahead = ts ++ rest) (hrest : Beyond 6 rest) :
    Arrives E (properties expr) s rest (·.map Properties.erase = found) := by
  cases h with
  | absent =>
    obtain ⟨t, us, rfl, ht⟩ := hrest
    refine .current hs ?_
    split
    · next hkind =>
      rw [hkind] at ht
      exact absurd ht (Nat.lt_irrefl _)
    · next hkind =>
      rw [hkind] at ht
      exact absurd ht (Nat.lt_irrefl _)
    · exact .pure hs rfl
  | present part =>
    cases part with
    | mk due =>
      refine .current hs ?_
      rw [due]
      exact .advance hs fun s' hs' => .pure hs' rfl

theorem arrives_nodePattern {n : NodePattern} (h : Node ts n) (hs : s.ahead = ts ++ rest) :
    Arrives E (nodePattern expr) s rest (·.erase = n) := by
  cases h with
  | @mk lparen rparen names labels parameters _ _ _ opened named labelled constrained closed =>
    simp only [List.cons_append, List.append_assoc, List.nil_append] at hs
    have hclosed {n : Nat} (hn : n < 7) : Beyond n (rparen :: rest) := .cons closed hn
    have hparameters {n : Nat} (hn : n < 6) : Beyond n (parameters ++ rparen :: rest) :=
      constrained.beyond (·.beyond hn) (hclosed (by omega))
    have hlabels : Beyond 0 (labels ++ (parameters ++ rparen :: rest)) :=
      labelled.beyond (·.beyond (by decide)) (hparameters (by omega))
    refine .start fun begin => .expect hs opened fun s₁ hs₁ => ?_
    refine (arrives_optionalVariable named hs₁ hlabels).bind fun name s₂ hs₂ hname => ?_
    refine (arrives_optionalLabels labelled hs₂ (hparameters (by omega))).bind
      fun labels s₃ hs₃ hlabels => ?_
    refine (arrives_properties constrained hs₃ (hclosed (by omega))).bind
      fun found s₄ hs₄ hfound => ?_
    refine .expect hs₄ closed fun s₅ hs₅ => .spanFrom fun span => .pure hs₅ ?_
    rw [NodePattern.erase_mk, hname, hlabels, hfound]

/-! ## Relationships -/

/-- Of a number that fits but is too large for a bound, `E` holds once it is reported. -/
def Expects (E : Fault → Prop) (fits : Nat → Prop) : Prop :=
  ∀ ⦃t : Token⦄ ⦃digits⦄, t.kind = .integer digits → fits (placeValue digits) →
    placeValue digits < 2 ^ 32 ∨ E ⟨.boundOutOfRange digits, t.site⟩

variable {fits : Nat → Prop} (expects : Expects E fits)

include expects

theorem arrives_hopBound {bound : Option Nat} (h : Optional (Bound fits) ts bound)
    (hs : s.ahead = ts ++ rest) (hrest : Beyond 4 rest) :
    Arrives E hopBound s rest (· = bound) := by
  cases h with
  | absent =>
    obtain ⟨t, us, rfl, ht⟩ := hrest
    refine .current hs ?_
    split
    · next hkind =>
      rw [hkind] at ht
      exact absurd ht (Nat.lt_irrefl _)
    · exact .pure hs rfl
  | present part =>
    cases part with
    | @mk t digits due fit =>
      refine .current hs ?_
      rw [due]
      show Arrives E (if Grammar.decimalValue digits < hopLimit then _ else _) s rest _
      rw [decimalValue_eq]
      split
      · exact .advance hs fun s' hs' => .pure hs' rfl
      · next hlarge =>
        refine .inr ⟨_, s, rfl, ?_⟩
        rw [State.current_of_ahead hs]
        exact (expects due fit).resolve_left hlarge

theorem arrives_hopRange {range : HopRange} (h : Range fits ts range)
    (hs : s.ahead = ts ++ rest) (hrest : Beyond 5 rest) :
    Arrives E hopRange s rest (· = range) := by
  cases h with
  | single bound =>
    refine (arrives_hopBound expects bound hs (hrest.mono (by decide))).bind
      fun min s₁ hs₁ hmin => ?_
    refine .pass hs₁ (hrest.exists_ne (by decide)) (.pure hs₁ ?_)
    rw [hmin]
  | range lower due upper =>
    rw [List.append_assoc, List.cons_append] at hs
    refine (arrives_hopBound expects lower hs (.cons due (by decide))).bind
      fun min s₁ hs₁ hmin => ?_
    refine .consume hs₁ due fun s₂ hs₂ => ?_
    refine (arrives_hopBound expects upper hs₂ (hrest.mono (by decide))).bind
      fun max s₃ hs₃ hmax => .pure hs₃ ?_
    rw [hmin, hmax]

omit expects in
theorem arrives_otherType {name : String} (h : OtherType ts name) (hs : s.ahead = ts ++ rest) :
    Arrives E (behind (.operator .pipe) anotherType) s rest (·.map id = some name) := by
  cases h with
  | plain part =>
    refine arrives_behindDue part (fun hname hs => ?_) hs
    refine .pass hs ?_ (arrives_symbolicName hname hs)
    cases hname with
    | @mk t _ due =>
      refine ⟨t, rest, rfl, fun hcolon => ?_⟩
      unfold Token.symbolicName? at due
      rw [hcolon] at due
      cases due
  | colon part =>
    refine arrives_behindDue part (fun hname hs => ?_) hs
    cases hname with
    | mk due part => exact .consume hs due fun s' hs' => arrives_symbolicName part hs'

omit expects in
theorem arrives_relationshipTypes {types : List String} (h : Types ts types)
    (hs : s.ahead = ts ++ rest) (hrest : Beyond 2 rest) :
    Arrives E relationshipTypes s rest (· = types) := by
  cases h with
  | none => exact .pass hs (hrest.exists_ne (by decide)) (.pure hs rfl)
  | some first others =>
    rw [List.append_assoc] at hs
    cases first with
    | mk due name =>
      refine .consume hs due fun s₁ hs₁ => ?_
      refine (arrives_symbolicName name hs₁).bind fun first s₂ hs₂ hfirst => ?_
      have hothers := arrives_many (E := E) others arrives_otherType (fun hpart => ?_)
        (fun hs => .pass hs (hrest.exists_ne (by decide)) (.pure hs rfl)) hs₂
      · refine hothers.bind fun others s₃ hs₃ hothers => .pure hs₃ ?_
        rw [List.map_id] at hothers
        rw [hfirst, hothers]
      · cases hpart with
        | plain part => cases part with | mk => exact List.cons_ne_nil _ _
        | colon part => cases part with | mk => exact List.cons_ne_nil _ _

theorem arrives_detail {d : Detail} (h : Derived.Detail fits ts d) (hs : s.ahead = ts ++ rest)
    (hrest : Beyond 6 rest) : Arrives E (detail expr) s rest (·.erase = d) := by
  cases h with
  | @mk names types hops parameters _ _ _ _ named typed bounded constrained =>
    simp only [List.append_assoc] at hs
    have hparameters {n : Nat} (hn : n < 6) : Beyond n (parameters ++ rest) :=
      constrained.beyond (·.beyond hn) (hrest.mono (Nat.le_of_lt hn))
    have hhops {n : Nat} (hn : n < 3) : Beyond n (hops ++ (parameters ++ rest)) :=
      bounded.beyond (·.beyond hn) (hparameters (by omega))
    have htypes : Beyond 0 (types ++ (hops ++ (parameters ++ rest))) :=
      typed.beyond (by decide) (hhops (by decide))
    refine (arrives_optionalVariable named hs htypes).bind fun name s₁ hs₁ hname => ?_
    refine (arrives_relationshipTypes typed hs₁ (hhops (by decide))).bind
      fun types s₂ hs₂ htypes => ?_
    refine (arrives_behind id bounded
      (fun hrange hs => arrives_hopRange expects hrange hs (hparameters (by decide))) hs₂
      (hparameters (by decide))).bind fun hops s₃ hs₃ hhops => ?_
    refine (arrives_properties constrained hs₃ hrest).bind fun found s₄ hs₄ hfound => .pure hs₄ ?_
    rw [Option.map_id] at hhops
    rw [Detail.erase, hname, htypes, hfound, ← hhops]
    rfl

theorem arrives_bracketedDetail {d : Detail} (h : Bracketed fits ts d)
    (hs : s.ahead = ts ++ rest)
    (hrest : ∃ t us, rest = t :: us ∧ t.kind ≠ .punctuation .lbracket) :
    Arrives E (bracketedDetail expr) s rest (·.erase = d) := by
  cases h with
  | absent => exact .pass hs hrest (.pure hs rfl)
  | present opened inner closed =>
    simp only [List.cons_append, List.append_assoc, List.nil_append] at hs
    refine .consume hs opened fun s₁ hs₁ => ?_
    refine (arrives_detail expects inner hs₁ (.cons closed (by decide))).bind
      fun found s₂ hs₂ hfound => ?_
    exact .expect hs₂ closed fun s₃ hs₃ => .pure hs₃ hfound

/-- A relationship behind its near head, if it has one. -/
theorem arrives_arrow {incoming : Bool} {direction : Direction} {begin : Nat} {d : Detail}
    {near far : Token} (opened : near.kind = .operator .minus) (inner : Bracketed fits ts d)
    (closed : far.kind = .operator .arrow ∧ incoming = false ∧ direction = .outgoing
      ∨ far.kind = .operator .minus ∧ direction = if incoming then .incoming else .undirected)
    (hs : s.ahead = near :: (ts ++ far :: rest)) :
    Arrives E (expect (.operator .minus) >>= fun _ => bracketedDetail expr >>= fun found =>
      farEnd incoming >>= fun direction => spanFrom begin >>= fun span =>
        pure (⟨direction, found.name, found.types, found.hops, found.properties, span⟩ :
          RelationshipPattern)) s rest (·.erase = relationship direction d) := by
  have hopen : far.kind ≠ .punctuation .lbracket := by
    rcases closed with ⟨hfar, -, -⟩ | ⟨hfar, -⟩ <;> rw [hfar] <;> exact nofun
  refine .expect hs opened fun s₁ hs₁ => ?_
  refine (arrives_bracketedDetail expects inner hs₁ ⟨far, rest, rfl, hopen⟩).bind
    fun found s₂ hs₂ hfound => ?_
  have hend : Arrives E (farEnd incoming) s₂ rest (· = direction) := by
    refine .current hs₂ ?_
    rcases closed with ⟨hfar, rfl, rfl⟩ | ⟨hfar, rfl⟩
    · rw [if_pos hfar]
      exact .advance hs₂ fun s' hs' => .pure hs' rfl
    · rw [if_neg (by rw [hfar]; exact nofun)]
      exact .expect hs₂ hfar fun s' hs' => .pure hs' rfl
  refine hend.bind fun direction s₃ hs₃ hdirection => .spanFrom fun span => .pure hs₃ ?_
  rw [RelationshipPattern.erase_mk, hdirection, ← hfound]
  rfl

theorem arrives_relationshipPattern {r : RelationshipPattern} (h : Relationship fits ts r)
    (hs : s.ahead = ts ++ rest) :
    Arrives E (relationshipPattern expr) s rest (·.erase = r) := by
  refine .start fun begin => ?_
  cases h with
  | undirected opened inner closed =>
    simp only [List.cons_append, List.append_assoc, List.nil_append] at hs
    refine .pass hs ⟨_, _, rfl, by rw [opened]; exact nofun⟩ ?_
    exact arrives_arrow expects opened inner (.inr ⟨closed, rfl⟩) hs
  | outgoing opened inner closed =>
    simp only [List.cons_append, List.append_assoc, List.nil_append] at hs
    refine .pass hs ⟨_, _, rfl, by rw [opened]; exact nofun⟩ ?_
    exact arrives_arrow expects opened inner (.inl ⟨closed, rfl, rfl⟩) hs
  | incoming headed opened inner closed =>
    simp only [List.cons_append, List.append_assoc, List.nil_append] at hs
    refine .consume hs headed fun s₁ hs₁ => ?_
    exact arrives_arrow expects opened inner (.inr ⟨closed, rfl⟩) hs₁

/-! ## Paths -/

omit expects in
/-- The loop over the steps of a path goes on where a relationship is written. -/
theorem relationshipAhead_of_derived {r : RelationshipPattern} (h : Relationship fits ts r) :
    relationshipAhead (ts ++ rest) = true := by
  cases h with
  | undirected opened inner closed =>
    cases inner <;> simp [relationshipAhead, kindAt, goesOnAsRelationship, *]
  | outgoing opened inner closed =>
    cases inner <;> simp [relationshipAhead, kindAt, goesOnAsRelationship, *]
  | incoming headed opened inner closed =>
    cases inner <;> simp [relationshipAhead, kindAt, goesOnAsRelationship, *]

theorem arrives_link {l : Link} (h : Step fits ts l) (hs : s.ahead = ts ++ rest) :
    Arrives E (link expr) s rest (·.map Link.erase = some l) := by
  cases h with
  | mk crossed reached =>
    rw [List.append_assoc] at hs
    refine .lookAhead ?_
    rw [hs, if_pos (relationshipAhead_of_derived crossed)]
    refine (arrives_relationshipPattern expects crossed hs).bind fun r s₁ hs₁ hr => ?_
    refine (arrives_nodePattern reached hs₁).bind fun n s₂ hs₂ hn => .pure hs₂ ?_
    rw [Option.map_some, Link.erase_mk, hr, hn]

theorem arrives_patternChain {name : Option String} {begin : Nat} {first : NodePattern}
    {chain : List Link} {us : List Token} (start : Node ts first)
    (steps : Repeated (Step fits) us chain) (hs : s.ahead = ts ++ us) :
    Arrives E (patternChain expr name begin) s []
      (·.erase = ⟨name, first, chain, .nowhere⟩) := by
  have hstop {s : State} (hs : s.ahead = []) : Arrives E (link expr) s [] (· = none) := by
    refine .lookAhead ?_
    rw [hs]
    exact .pure hs rfl
  have hne {ts : List Token} {l : Link} (h : Step fits ts l) : ts ≠ [] := by
    cases h with
    | mk crossed reached => cases crossed <;> exact List.cons_ne_nil _ _
  refine (arrives_nodePattern start hs).bind fun found s₁ hs₁ hfirst => ?_
  refine (arrives_many steps (arrives_link expects) hne hstop
    (hs₁.trans (List.append_nil us).symm)).bind fun links s₂ hs₂ hlinks => ?_
  refine .spanFrom fun span => .pure hs₂ ?_
  rw [Pattern.erase_mk, hfirst, hlinks]

omit expects in
theorem arrives_noPathName {first : NodePattern} (h : Node ts first) (hs : s.ahead = ts ++ rest) :
    Arrives E pathName s (ts ++ rest) (· = none) := by
  refine .lookAhead ?_
  split
  · next hname _ =>
    cases h with
    | mk opened named labelled constrained closed =>
      rw [hs, kindAt, List.cons_append, List.getElem?_cons_zero, Option.map_some, opened] at hname
      cases hname
  · exact .pure hs rfl

omit expects in
theorem arrives_pathName {t equals : Token} {name : String} (due : t.kind = .identifier name)
    (bound : equals.kind = .operator .eq) (hs : s.ahead = t :: equals :: rest) :
    Arrives E pathName s rest (· = some name) := by
  have hname : kindAt s.ahead 0 = some (.identifier name) := by rw [hs, ← due]; rfl
  have hequals : kindAt s.ahead 1 = some (.operator .eq) := by rw [hs, ← bound]; rfl
  refine .lookAhead ?_
  rw [hname, hequals]
  exact .advance hs fun s₁ hs₁ => .advance hs₁ fun s₂ hs₂ => .pure hs₂ rfl

variable (expr) in
/-- A text that is written for a path is read as that path, unless a number is too large. -/
theorem arrives_pattern {p : Pattern} (h : Path fits s.ahead p) :
    Arrives E (pattern expr) s [] (·.erase = p) := by
  generalize hs : s.ahead = ts at h
  refine .start fun begin => ?_
  cases h with
  | plain start steps =>
    refine (arrives_noPathName start hs).bind fun name s₁ hs₁ hname => ?_
    rw [hname]
    exact arrives_patternChain expects start steps hs₁
  | named due bound start steps =>
    refine (arrives_pathName due bound hs).bind fun name s₁ hs₁ hname => ?_
    rw [hname]
    exact arrives_patternChain expects start steps hs₁

end Grammar

end Cypher
