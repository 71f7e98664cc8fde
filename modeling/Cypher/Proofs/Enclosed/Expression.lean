import Cypher.Proofs.Continued.Query
import Cypher.Proofs.Enclosed.List
import Cypher.Proofs.Enclosed.Operators
import Cypher.Proofs.Reading.Operators

/-!
# Operands in parentheses

An operand is put in parentheses: one stands in front of it, one behind. The
tokens of the operand are read in both texts, and in the other one as the only
operand of an expression. So the parenthesis in front is gone over by looking at
what the one behind does to that expression, which is inside of nothing else.

Which runs of tokens are operands is told by what is read when the run is
refused as an operand: if it is one, nothing.
-/

namespace Cypher.Grammar

open Token (Kind)

/-! ## Refused operands -/

/-- An operand, but not the one whose tokens are `op` in front of `rest`. The expressions inside of
that one are read by `inner`. -/
def operandRefusing (op rest : List Token) (config : Config) (inner refusing : Parser Expression) :
    Parser Operand := do
  if (← lookAhead) = op ++ rest then
    let x ← operand config inner
    if (← lookAhead) = rest then fail .expectedExpression else return x
  else operand config refusing

/-- An expression that may nest `room` levels deep, in which the operand with these tokens is
refused wherever it stands. -/
def expressionRefusing (op rest : List Token) (config : Config) : Nat → Parser Expression
  | 0, s => tooDeep config s
  | room + 1, s =>
    nested config (operators config (operandRefusing op rest config (expressionWithin config room)
      (expressionRefusing op rest config room))) s

/-! ## Parentheses that close what they open -/

/-- A run of tokens that closes each parenthesis it opens is passed over. -/
theorem afterGroup_of_nest {n k m : Nat} {ts : List Token} (h : nest k ts = some m)
    (us : List Token) : afterGroup (n + 1 + k) (ts ++ us) = afterGroup (n + 1 + m) us := by
  induction ts generalizing k with
  | nil =>
    cases h
    rfl
  | cons t ts ih =>
    obtain ⟨l, hl, hrest⟩ := Option.bind_eq_some_iff.1 h
    rw [List.cons_append, afterGroup]
    unfold Token.Kind.nest at hl
    split
    · next hkind =>
      rw [hkind] at hl
      cases hl
      exact ih hrest
    · next hkind =>
      rw [hkind] at hl
      simp only [Option.ite_none_left_eq_some, Option.some.injEq] at hl
      obtain ⟨hk, rfl⟩ := hl
      rw [if_neg (by omega), ← ih hrest]
      congr 1
      omega
    · next hopen hclose =>
      have hkl : l = k := by split at hl <;> simp_all
      exact ih (hkl ▸ hrest)

/-- An operand among the tokens of a text. -/
structure Enclosure where
  front : List Token
  /-- The tokens of the operand. -/
  op : List Token
  rest : List Token
  eof : Token
  /-- How deep the text may nest without the parentheses. -/
  limit : Nat

namespace Enclosure

variable (ε : Enclosure)

/-- The parenthesis put in front. It is where the operand starts, and takes up no room. -/
def opening : Token where
  kind := .punctuation .lparen
  span := ⟨((ε.op ++ ε.rest).headD ε.eof).span.start,
    (ε.front.getLast?.getD ((ε.op ++ ε.rest).headD ε.eof)).span.stop⟩
  line := 0
  text := "("

/-- The parenthesis put behind, where the operand ends. -/
def closing : Token where
  kind := .punctuation .rparen
  span := ⟨(ε.rest.headD ε.eof).span.start,
    ((ε.front ++ ε.op).getLast?.getD (ε.rest.headD ε.eof)).span.stop⟩
  line := 0
  text := ")"

/-- The run of tokens has the looks of an operand. -/
structure Operable : Prop where
  mode : (({} : Scan).passAll ε.front (ε.op ++ ε.rest)).mode = .value
  starts : ∃ t ts, ε.op = t :: ts ∧ startsAtom t.kind = true
  closed : nest 0 ε.op = some 0
  settled : ∀ t ∈ ε.op.getLast?, t.kind.awaits = false

/-- The parenthesis in front is put in, and the one behind with it. -/
def before : Insertion where
  front := ε.front
  seam := ε.op ++ ε.rest
  paren := ε.opening
  behind := ε.op ++ ε.closing :: ε.rest
  eof := ε.eof
  opens := true
  limit := ε.limit
  apt := ε.Operable

/-- The parenthesis behind is put in alone. -/
def behind : Insertion where
  front := ε.front ++ ε.op
  seam := ε.rest
  paren := ε.closing
  behind := ε.rest
  eof := ε.eof
  opens := false
  limit := ε.limit
  apt := True

/-- The tokens are those of a text, and no relationship follows the operand. -/
structure Lawful : Prop where
  nonempty : ε.op ≠ []
  proper : ∀ t ∈ ε.op ++ ε.rest, t.kind ≠ .eof
  ended : ε.eof.kind = .eof
  parted : relationshipAhead ε.rest = false

variable {ε}

theorem Lawful.behind (h : ε.Lawful) : ε.behind.Lawful where
  kind := rfl
  start := rfl
  longer := Nat.le_refl _
  proper t ht := h.proper t (List.mem_append_right _ ht)
  ended := h.ended
  opening := nofun

theorem Lawful.before (h : ε.Lawful) : ε.before.Lawful where
  kind := rfl
  start := rfl
  longer := by
    show (ε.op ++ ε.rest).length ≤ (ε.op ++ ε.closing :: ε.rest).length
    simp
  proper t ht := by
    rcases List.mem_append.1 ht with ht | ht
    · exact h.proper t (List.mem_append_left _ ht)
    · rcases List.mem_cons.1 ht with rfl | ht
      · exact nofun
      · exact h.proper t (List.mem_append_right _ ht)
  ended := h.ended
  opening _ hop := by
    have hclosed (n : Nat) (ts : List Token) :
        afterGroup (n + 1) (ε.op ++ ts) = afterGroup (n + 1) ts := afterGroup_of_nest hop.closed ts
    have hgroup (n : Nat) : afterGroup n (ε.opening :: (ε.op ++ ε.closing :: ε.rest))
        = if n = 0 then some ε.rest else afterGroup n ε.rest := by
      show afterGroup (n + 1) (ε.op ++ ε.closing :: ε.rest) = _
      rw [hclosed]
      rfl
    refine ⟨hop.mode, ?_, fun n => ?_, fun rest hrest => ?_⟩
    · obtain ⟨t, ts, hts, hstarts⟩ := hop.starts
      exact ⟨t, ts ++ ε.rest, by rw [Enclosure.before, hts]; rfl, hstarts⟩
    · show afterGroup (n + 1) (ε.opening :: (ε.op ++ ε.closing :: ε.rest))
        = afterGroup (n + 1) (ε.op ++ ε.rest)
      rw [hgroup, hclosed, if_neg (Nat.succ_ne_zero n)]
    · have hrest : afterGroup 0 (ε.opening :: (ε.op ++ ε.closing :: ε.rest)) = some rest := hrest
      rw [hgroup, if_pos rfl] at hrest
      cases hrest
      exact h.parted

end Enclosure

/-! ## Where an operand ends -/

section Ends

variable {config : Config} {expr : Parser Expression} {s : State} {x : Operand}

/-- Whether a suffix stands here does not depend on what it would be added to. -/
def State.Ends (s : State) : Prop :=
  ∀ {config : Config} {expr : Parser Expression} {x : Operand} {t : State}, t.ahead = s.ahead →
    t.eof = s.eof → suffix config expr x t = .ok (.done x) t

/-- A suffix has been added, within the limit. -/
def Grown (config : Config) (r : ForInStep Operand) : Prop :=
  ∃ x, r = .yield x ∧ x.height ≤ config.maxDepth

theorem leads_grownWithin {tree : Expression} {inner : Nat} :
    Leads (grown config x tree inner) s fun r _ => Grown config r := by
  intro r s' hrun
  obtain ⟨_, s₁, hheight, hlast⟩ := bind_eq_ok hrun
  cases hlast
  refine ⟨_, rfl, ?_⟩
  by_contra hhigh
  unfold checkHeight at hheight
  rw [if_neg hhigh] at hheight
  cases hheight

theorem leads_sliceTailWithin {lower : Option Expression} :
    Leads (sliceTail config expr x lower) s fun r _ => Grown config r :=
  Leads.expect fun _ => Leads.behind fun _ _ => Leads.expect fun _ => Leads.behind fun _ _ =>
    leads_grownWithin

/-- A suffix is added, or none stands here. -/
theorem leads_suffixEnds : Leads (suffix config expr x) s fun r s' =>
    Grown config r ∨ r = .done x ∧ s' = s ∧ s.Ends := by
  have hcurrent {t : State} (hahead : t.ahead = s.ahead) (heof : t.eof = s.eof) :
      t.current = s.current := by rw [State.current, State.current, hahead, heof]
  refine Leads.current ?_
  split
  · refine Leads.advance (Leads.behind fun _ _ => Leads.behind fun _ _ => ?_)
    exact leads_grownWithin.mono fun _ _ h => .inl h
  · refine Leads.mono (Q := fun r _ => Grown config r) ?_ fun _ _ h => .inl h
    refine Leads.expect fun _ => Leads.behind fun lower _ => Leads.current ?_
    cases lower with
    | none => exact leads_sliceTailWithin
    | some position =>
      dsimp only
      split
      · exact leads_sliceTailWithin
      · exact Leads.expect fun _ => Leads.behind fun _ _ => leads_grownWithin
  · next hcolon =>
    refine Leads.lookAhead ?_
    split
    · refine Leads.behind fun _ _ => Leads.behind fun _ _ => ?_
      exact leads_grownWithin.mono fun _ _ h => .inl h
    · next hname =>
      refine Leads.pure (.inr ⟨rfl, rfl, fun {_ _ _ t} hahead heof => ?_⟩)
      unfold suffix
      rw [bind_ok (p := current) (s := t) rfl, hcurrent hahead heof, hcolon]
      refine (bind_ok (p := lookAhead) (s := t) rfl).trans ?_
      rw [hahead, if_neg hname]
      rfl
  · next hdot hbracket hcolon =>
    refine Leads.pure (.inr ⟨rfl, rfl, fun {_ _ _ t} hahead heof => ?_⟩)
    unfold suffix
    rw [bind_ok (p := current) (s := t) rfl, hcurrent hahead heof]
    refine congrFun (g := (pure (.done _) : Parser (ForInStep Operand))) ?_ t
    split
    · next hkind => exact absurd hkind hdot
    · next hkind => exact absurd hkind hbracket
    · next hkind => exact absurd hkind hcolon
    · rfl

/-- An operand is within the limit, and no suffix stands behind it. -/
theorem leads_operandEnds (hexpr : Coincides (fun _ => False) expr expr) (hs : s.Ended) :
    Leads (operand config expr) s fun x s' => x.height ≤ config.maxDepth ∧ s'.Ends := by
  have closed := closed_moves config
  intro x s' hrun
  obtain ⟨tree, s₁, hatom, hrest⟩ := bind_eq_ok hrun
  obtain ⟨_, s₂, hheight, hloop⟩ := bind_eq_ok hrest
  have hlow : tree.height ≤ config.maxDepth ∧ s₂ = s₁ := by
    unfold checkHeight at hheight
    split at hheight
    · next hlow =>
      cases hheight
      exact ⟨hlow, rfl⟩
    · cases hheight
  obtain ⟨hlow, rfl⟩ := hlow
  have hended := ((Moves.of (closed.atom hexpr)).proceeds _ _ _ hatom).ended hs
  have hsuffix (y : Operand) : Proceeds (suffix config expr y) :=
    (Moves.of (closed.suffix hexpr)).proceeds
  obtain ⟨y, s₃, hy, hlast⟩ := (folds_iterate hsuffix (consumes_suffix hexpr) hended _).last hloop
    (P := fun y _ => y.height ≤ config.maxDepth) hlow fun y s z s' hy hround => by
      rcases leads_suffixEnds _ _ hround with ⟨_, hyield, hz⟩ | ⟨hdone, -⟩
      · cases hyield
        exact hz
      · cases hdone
  rcases leads_suffixEnds _ _ hlast with ⟨_, hyield, -⟩ | ⟨hdone, rfl, hends⟩
  · cases hyield
  · cases hdone
    exact ⟨hy, hends⟩

end Ends

/-! ## Behind the operand -/

section Reading

variable {κ : Insertion} {config config' : Config} {ε : Enclosure} {o : Outlook} {read : List Leaf}
  {brackets : List Bracket} {s s' : State} {d r r' : Nat}

theorem coincides_expression (config : Config) (room : Nat) :
    Coincides (fun _ => False) (expressionWithin config room) (expressionWithin config room) :=
  .of_moves (coincides_expressionWithin config room).moves

theorem takes_operand (hrecover : config.recover = false) (room : Nat) :
    Takes (operand config (expressionWithin config room)) :=
  fun s hs _ _ hrun =>
    have hsettles : Settles (Sequel.union s.eof.span) (operand config (expressionWithin config room)) :=
      settles_operand hrecover (settles_expressionWithin hrecover room)
    hsettles.length_lt ⟨hs, rfl⟩ hrun

theorem shadowedValues_of (law : κ.Lawful) (room : κ.Roomier config config')
    {refusing : Parser Expression} (hsame : κ.opens = false → refusing = expressionWithin config r)
    (hshadowed : ∀ {brackets : List Bracket}, brackets.head? ≠ some .detail →
      Shadowed κ 0 (expressionWithin config r) refusing (expressionWithin config' r') brackets
        [.value]) :
    ShadowedValues κ (expressionWithin config r) refusing (expressionWithin config' r') where
  law := law
  covers := coversValues_expressionWithin room.recover r
  covers_other := coversValues_expressionWithin room.recover_other r'
  coincides := coincides_expression config r
  settles _ := settles_expressionWithin room.recover r
  same := hsame
  shadowed := hshadowed
  foreseen hs hrun hahead := list_foreseen room.recover_other hs hrun hahead

/-- One level further in, if the operands there are read side by side. -/
theorem shadowed_level (law : κ.Lawful) (room : κ.Roomier config config')
    (hbrackets : brackets.head? ≠ some .detail) {refusing : Parser Operand}
    (hoperand : Shadowed κ 0 (operand config (expressionWithin config r)) refusing
      (operand config' (expressionWithin config' r')) brackets [.value]) :
    Shadowed κ 0 (expressionWithin config (r + 1)) (nested config (operators config refusing))
      (expressionWithin config' (r' + 1)) brackets [.value] := by
  have closed := closed_moves config
  have hcovers := covers_operand room.recover (coversValues_expressionWithin room.recover r) hbrackets
  have hmoves : Coincides (fun _ => False) (operand config (expressionWithin config r))
      (operand config (expressionWithin config r)) := closed.operand (coincides_expression config r)
  intro o read s hfits h
  refine .nested room (.of (closed.operators Coincides.checkChain hmoves)) ?_
  exact shadowed_operators law room hcovers hoperand hmoves.moves hfits
    ⟨h.scan, h.closing, h.proper, h.ended, h.room⟩

/-- Where nothing is refused, an operand at the seam has gone over it. -/
theorem shadowedValues_unrefused (law : κ.Lawful)
    (room : κ.Roomier config config') (hr : r ≤ r') :
    ShadowedValues κ (expressionWithin config r) (expressionWithin config r)
      (expressionWithin config' r') := by
  refine shadowedValues_of law room (fun _ => rfl) ?_
  induction r generalizing r' with
  | zero => exact fun _ _ _ _ _ _ => .fail
  | succ r ih =>
    obtain ⟨k, rfl⟩ : ∃ k, r' = k + 1 := ⟨r' - 1, by omega⟩
    intro brackets hbrackets
    have hexpr : ShadowedValues κ (expressionWithin config r) (expressionWithin config r)
        (expressionWithin config' k) :=
      shadowedValues_of law room (fun _ => rfl) (ih (Nat.le_of_succ_le_succ hr))
    refine shadowed_level law room hbrackets fun o read s hfits h => ?_
    by_cases hs : s.ahead = κ.seam
    · exact .strays hs (.takes hs h.ended (takes_operand room.recover r))
    · exact shadows_operand room hexpr hbrackets hfits hs h

/-- An expression of one operand, in front of a token that ends it. -/
theorem operators_of_operand {p : Parser Operand} {x : Operand}
    (hstarts : startsAtom s.current.kind = true) (hrun : p s = .ok x s')
    (hends : endsExpression s'.current.kind = true) :
    operators config p s = .ok x.tree s' := by
  have hstart : iterate shiftPrefix {} s = .ok {} s :=
    iterate_of_done (shiftPrefix_none (lookup_startsAtom hstarts))
  have hrounds : iterate (round config p) {} s = .ok (({} : Stacks).pushOperand x) s' :=
    iterate_of_done (round_of_endsExpression hstart hrun hends)
  unfold operators
  rw [bind_ok hrounds]
  rfl

/-- So is one that is a level further in. -/
theorem expressionWithin_of_operand {x : Operand} (hdepth : s.depth < config.maxDepth)
    (hstarts : startsAtom s.current.kind = true)
    (hrun : operand config (expressionWithin config r) { s with depth := s.depth + 1 } = .ok x s')
    (hends : endsExpression s'.current.kind = true) :
    expressionWithin config (r + 1) s = .ok x.tree { s' with depth := s'.depth - 1 } :=
  nested_eq_ok.2 ⟨hdepth, s', operators_of_operand hstarts hrun hends, rfl⟩

section Group

variable {expr : Parser Expression} {e : Expression}

theorem parenthesized_of_ok (hopens : s.current.kind = .punctuation .lparen)
    (hrun : expr s.advance = .ok e s') (hcloses : s'.current.kind = .punctuation .rparen) :
    parenthesized expr s = .ok e s'.advance := by
  have hopen : expect (.punctuation .lparen) s = .ok () s.advance := if_pos hopens
  have hclose : expect (.punctuation .rparen) s' = .ok () s'.advance := if_pos hcloses
  unfold parenthesized
  rw [bind_ok hopen, bind_ok hrun, bind_ok hclose]
  rfl

/-- Parentheses that start no path are a group, and one that no suffix follows is an operand. -/
theorem operand_of_parenthesized (hopens : s.current.kind = .punctuation .lparen)
    (hpath : patternPredicateAhead s.ahead = false) (hrun : parenthesized expr s = .ok e s')
    (hlow : e.height ≤ config.maxDepth)
    (hends : suffix config expr ⟨e, e.height⟩ s' = .ok (.done ⟨e, e.height⟩) s') :
    operand config expr s = .ok ⟨e, e.height⟩ s' := by
  have hatom : atom config expr s = .ok e s' := by
    rw [atom_of_lparen hopens]
    unfold group
    rw [bind_ok (p := lookAhead) (s := s) rfl, hpath, if_neg Bool.false_ne_true]
    exact hrun
  have hcheck : checkHeight config e.height s' = .ok () s' := by
    unfold checkHeight
    rw [if_pos hlow]
    rfl
  unfold operand
  rw [bind_ok hatom, bind_ok hcheck]
  exact iterate_of_done hends

end Group

/-! ## Through the parentheses -/

section Crossing

variable (law : ε.Lawful) (room : ε.before.Roomier config config')

/-- Inside of the parentheses, in front of the operand. -/
theorem Enclosure.facing_behind (hs : ε.before.Facing s s') (hseam : s.ahead = ε.before.seam) :
    ε.behind.Facing s { s'.advance with depth := s'.advance.depth + 1 } := by
  have hahead' : s'.ahead = ε.opening :: (ε.op ++ ε.closing :: ε.rest) := hs.ahead_of_seam hseam
  have hadvance : s'.advance
      = { s' with previous := some ε.opening, ahead := ε.op ++ ε.closing :: ε.rest } := by
    unfold State.advance
    rw [hahead']
  rw [hadvance]
  refine ⟨⟨hs.eof, hs.eof_other, ?_, ?_, hs.limit, hs.faults, ?_⟩, trivial, ε.op, hseam, rfl⟩
  · show ε.opening.span.stop = s.stop
    have hpassed : ε.before.front ++ ε.before.seam = ε.front ++ s.ahead := by rw [hseam]; rfl
    rw [hs.stop_eq hpassed, State.current, hseam, hs.eof]
    rfl
  · show s'.depth + 1 = s.depth + 1
    rw [hs.depth]
    rfl
  · obtain ⟨passed, htokens, hprevious⟩ := hs.place
    exact ⟨passed, (List.append_assoc _ _ _).trans htokens, hprevious⟩

include law

/-- Behind the parentheses both readings go on alike. -/
theorem Enclosure.Lawful.past_before {s₁ t : State} (hs : ε.behind.Facing s₁ t)
    (hseam : s₁.ahead = ε.behind.seam) :
    ε.before.Past s₁ { t with depth := t.depth - 1 }.advance := by
  have hahead : t.ahead = ε.closing :: ε.rest := hs.ahead_of_seam hseam
  have hadvance : { t with depth := t.depth - 1 }.advance
      = { t with previous := some ε.closing, ahead := ε.rest, depth := t.depth - 1 } := by
    unfold State.advance
    rw [hahead]
  rw [hadvance]
  refine ⟨⟨hs.eof, hs.eof_other, ?_, ?_, hs.limit, hs.faults, ?_⟩, rfl, hseam.symm, ?_⟩
  · show ε.closing.span.stop = s₁.stop
    have hpassed : ε.behind.front ++ ε.behind.seam = (ε.front ++ ε.op) ++ s₁.ahead := by
      rw [hseam]
      rfl
    rw [hs.stop_eq hpassed, State.current, hseam, hs.eof]
    rfl
  · have hdepth : t.depth = s₁.depth + 1 := hs.depth
    show t.depth - 1 = s₁.depth
    omega
  · obtain ⟨passed, htokens, hprevious⟩ := hs.place
    exact ⟨passed, (List.append_assoc _ _ _).symm.trans htokens, hprevious⟩
  · rw [hseam]
    show ε.rest.length < (ε.op ++ ε.rest).length
    have hpos := List.length_pos_iff.2 law.nonempty
    rw [List.length_append]
    omega

include room

/-- Inside of the parentheses the operand is read as it is without them. -/
theorem Enclosure.Lawful.reads_inside (hr : r ≤ r') (hbrackets : brackets.head? ≠ some .detail)
    (htokens : o.tokens = ε.front ++ (ε.op ++ ε.rest)) (h : At o read brackets [.value] s)
    (hs : ε.behind.Facing s s') (hseam : s.ahead = ε.before.seam) {x : Operand} {s₁ : State}
    (hrun : operand config (expressionWithin config r) s = .ok x s₁)
    (hend : s₁.ahead = ε.behind.seam) :
    ∃ t, operand config' (expressionWithin config' r') s' = .ok x t ∧ ε.behind.Facing s₁ t := by
  have room_behind : ε.behind.Roomier config config' :=
    ⟨room.recover, room.recover_other, room.limit, room.room⟩
  have hcovers := covers_operand room.recover (coversValues_expressionWithin room.recover r) hbrackets
  have hfits : ε.behind.Fits 0 o brackets := by
    have htokens : o.tokens = ε.behind.front ++ ε.behind.seam :=
      htokens.trans (List.append_assoc _ _ _).symm
    obtain ⟨m, -, -, hmet⟩ := (hcovers h x s₁ hrun).scan
    rw [hend] at hmet
    refine ⟨htokens, fun _ => ?_⟩
    rw [hmet.scan_of_seam htokens]
    exact Nat.le_refl _
  have hne : s.ahead ≠ ε.behind.seam := by
    rw [hseam]
    exact fun heq => law.nonempty (List.append_left_eq_self.1 heq)
  have hshadows := shadows_operand room_behind (shadowedValues_unrefused law.behind room_behind hr)
    hbrackets hfits hne h
  cases hshadows.facing _ hs x s₁ hrun with
  | astray _ hastray =>
    rcases hastray with hshort | hnot
    · rw [hend] at hshort
      exact absurd hshort (Nat.lt_irrefl _)
    · exact absurd trivial hnot
  | past _ _ hpast => cases hpast.opens
  | facing _ hinner ht => exact ⟨_, hinner, ht⟩

/-- The operand is read as a group of the one operand. -/
theorem Enclosure.Lawful.crosses (hr : r ≤ r') (hbrackets : brackets.head? ≠ some .detail)
    (htokens : o.tokens = ε.front ++ (ε.op ++ ε.rest)) (h : At o read brackets [.value] s)
    (hs : ε.before.Facing s s') (hseam : s.ahead = ε.before.seam) {x : Operand} {s₁ : State}
    (hrun : operand config (expressionWithin config r) s = .ok x s₁)
    (hend : s₁.ahead = ε.behind.seam) :
    ∃ s₁', operand config' (expressionWithin config' (r' + 1)) s' = .ok x s₁'
      ∧ ε.before.Past s₁ s₁' := by
  have hfacing := Enclosure.facing_behind hs hseam
  obtain ⟨t, hinner, ht⟩ := law.reads_inside room hr hbrackets htokens h hfacing hseam hrun hend
  obtain ⟨hheight, hends⟩ := leads_operandEnds (coincides_expression config r) h.ended x s₁ hrun
  obtain ⟨tree, height⟩ := x
  obtain rfl : height = tree.height := weighed_operand _ s₁ hrun
  have hahead' : s'.ahead = ε.opening :: (ε.op ++ ε.closing :: ε.rest) := hs.ahead_of_seam hseam
  have hopens : s'.current.kind = .punctuation .lparen := by
    rw [show s'.current = ε.opening from hs.current_of_seam hseam]
    rfl
  have hcloses : t.current.kind = .punctuation .rparen := by
    rw [show t.current = ε.closing from ht.current_of_seam hend]
    rfl
  have hpast := law.past_before ht hend
  have hroom := room.room
  have hgroup : parenthesized (expressionWithin config' (r' + 1)) s'
      = .ok tree { t with depth := t.depth - 1 }.advance := by
    refine parenthesized_of_ok hopens (expressionWithin_of_operand ?_ ?_ hinner ?_) hcloses
    · have hdepth : s'.advance.depth = s.depth + 1 - 1 := congrArg (· - 1) hfacing.depth
      have hlimit : s.depth ≤ config.maxDepth := room.limit ▸ hs.limit
      omega
    · obtain ⟨u, us, hop, hstarts⟩ := hs.apt.starts
      rw [State.current, State.ahead_advance_eq_tail, hahead', List.tail_cons, hop]
      exact hstarts
    · rw [hcloses]
      rfl
  have hpath : patternPredicateAhead s'.ahead = false := by
    have hclosed : afterGroup 0 s'.ahead = some { t with depth := t.depth - 1 }.advance.ahead :=
      leads_closedGroup (coversValues_expressionWithin room.recover_other (r' + 1))
        (hs.bounded_other law.before h.bounded) _ _ hgroup
    have hseam₁ : s₁.ahead = ε.rest := hend
    rw [hpast.ahead, hseam₁] at hclosed
    unfold patternPredicateAhead
    rw [hclosed]
    exact Bool.and_eq_false_imp.2 fun _ => law.parted
  exact ⟨_, operand_of_parenthesized hopens hpath hgroup
    (Nat.le_trans hheight (Nat.le_of_lt hroom))
    (hends hpast.ahead (hpast.eof_other.trans hpast.eof.symm)), hpast⟩

end Crossing

/-! ## Around the operand -/

section Around

variable (law : ε.Lawful) (room : ε.before.Roomier config config')

include law room

/-- What an operand is read from looks like one. -/
theorem Enclosure.Lawful.operable (hfits : ε.before.Fits d o brackets)
    (h : At o read brackets [.value] s) (hseam : s.ahead = ε.before.seam) {x : Operand} {s₁ : State}
    (hrun : operand config (expressionWithin config r) s = .ok x s₁) (hend : s₁.ahead = ε.rest) :
    ε.Operable := by
  have hahead : s.ahead = ε.op ++ ε.rest := hseam
  have hsettles : Settles (Sequel.union s.eof.span) (operand config (expressionWithin config r)) :=
    settles_operand room.recover (settles_expressionWithin room.recover r)
  have hbefore : Along s.ahead 0 false s := ⟨⟨[], rfl, rfl, nofun⟩, h.ended⟩
  obtain ⟨-, hsettled, -⟩ := hsettles hbefore ⟨h.ended, rfl⟩ x s₁ hrun
  obtain ⟨passed, hwhole, hnest, hlast⟩ := hsettled.read
  rw [hahead, hend] at hwhole
  obtain rfl : ε.op = passed := List.append_cancel_right hwhole
  refine ⟨List.mem_singleton.1 (h.scan_of_seam hfits hseam).2, ?_, hnest, hlast rfl⟩
  · obtain ⟨t, ts, hop⟩ := List.exists_cons_of_ne_nil law.nonempty
    refine ⟨t, ts, hop, ?_⟩
    have hcurrent : s.current = t := by rw [State.current, hahead, hop]; rfl
    cases hstarts : startsAtom t.kind with
    | true => rfl
    | false =>
      obtain ⟨_, _, hatom, -⟩ := bind_eq_ok hrun
      rw [atom_eq_recoverExpression (by rw [hcurrent, hstarts]), recoverExpression,
        if_neg (by simp [room.recover])] at hatom
      cases hatom

/-- The operand is refused and the group is read in its place, or both readings
go over the seam. -/
theorem shadows_operandRefusing {refusing : Parser Expression} (hr : r ≤ r')
    (hbrackets : brackets.head? ≠ some .detail) (hfits : ε.before.Fits d o brackets)
    (h : At o read brackets [.value] s) (hseam : s.ahead = ε.before.seam) :
    Shadows ε.before (operand config (expressionWithin config r))
      (operandRefusing ε.op ε.rest config (expressionWithin config r) refusing)
      (operand config' (expressionWithin config' (r' + 1))) s := by
  have hread {x : Operand} {s₁ : State}
      (hrun : operand config (expressionWithin config r) s = .ok x s₁) :
      operandRefusing ε.op ε.rest config (expressionWithin config r) refusing s
        = if s₁.ahead = ε.rest then fail .expectedExpression s₁ else .ok x s₁ := by
    have hhere : s.ahead = ε.op ++ ε.rest := hseam
    unfold operandRefusing
    rw [bind_ok (p := lookAhead) (s := s) rfl, if_pos hhere, bind_ok hrun,
      bind_ok (p := lookAhead) (s := s₁) rfl]
    split <;> rfl
  refine ⟨fun hastray x s₁ hrun => ?_,
    fun s' hs => absurd hs.short (by rw [hseam]; exact Nat.lt_irrefl _), fun s' hs x s₁ hrun => ?_⟩
  · have hnot : ¬ ε.Operable := by
      rcases hastray with hshort | hnot
      · rw [hseam] at hshort
        exact absurd hshort (Nat.lt_irrefl _)
      · exact hnot
    refine ⟨?_, .inr hnot⟩
    rw [hread hrun, if_neg fun hend => hnot (law.operable room hfits h hseam hrun hend)]
  · by_cases hend : s₁.ahead = ε.rest
    · obtain ⟨s₁', hother, hpast⟩ :=
        law.crosses room hr hbrackets hfits.tokens h hs hseam hrun hend
      refine .past (fun y s₂ hrefused => ?_) hother hpast
      rw [hread hrun, if_pos hend] at hrefused
      cases hrefused
    · refine .astray ?_ (.inl ?_)
      · rw [hread hrun, if_neg hend]
      · rw [← hseam]
        exact takes_operand room.recover r s h.ended x s₁ hrun

/-- With one level more, the text with the parentheses is read as the other one. -/
theorem shadowedValues_refusing (hr : r < r') :
    ShadowedValues ε.before (expressionWithin config r)
      (expressionRefusing ε.op ε.rest config r) (expressionWithin config' r') := by
  refine shadowedValues_of law.before room nofun ?_
  induction r generalizing r' with
  | zero => exact fun _ _ _ _ _ _ => .fail
  | succ r ih =>
    obtain ⟨k, rfl⟩ : ∃ k, r' = k + 2 := ⟨r' - 2, by omega⟩
    intro brackets hbrackets
    have hexpr : ShadowedValues ε.before (expressionWithin config r)
        (expressionRefusing ε.op ε.rest config r) (expressionWithin config' (k + 1)) :=
      shadowedValues_of law.before room nofun (ih (Nat.lt_of_succ_lt_succ hr))
    refine shadowed_level law.before room hbrackets fun o read s hfits h => ?_
    by_cases hs : s.ahead = ε.before.seam
    · exact shadows_operandRefusing law room (by omega) hbrackets hfits h hs
    · have hread : operandRefusing ε.op ε.rest config (expressionWithin config r)
          (expressionRefusing ε.op ε.rest config r) s
            = operand config (expressionRefusing ε.op ε.rest config r) s :=
        (bind_ok (p := lookAhead) (s := s) rfl).trans (congrFun (if_neg hs) s)
      exact (shadows_operand room hexpr hbrackets hfits hs h).of_eq rfl hread (fun _ _ => rfl)
        fun _ _ => rfl

end Around

end Reading

end Cypher.Grammar
