import Cypher.Grammar.Expression
import Cypher.Proofs.Compared.Operand

/-!
# Comparing expressions

The stacks of two runs hold the same operands and operators once recast.
Where the second run has more room a reduction may be refused to the first
one only; then the first run stops before anything else is read.
-/

namespace Cypher

/-! ## Stacks -/

section Stacks

variable {r : Recasting} {text : String → String}

/-- The operator with what it takes from the text recast. -/
def Pending.recast (r : Recasting) (text : String → String) (p : Pending) : Pending :=
  ⟨p.role, p.binding, text p.text, p.span.recast r⟩

/-- The stacks with all that they hold recast. -/
def Stacks.recast (r : Recasting) (text : String → String) (s : Stacks) : Stacks :=
  ⟨s.operands.map (Operand.recast r), s.pending.map (Pending.recast r text), s.tooDeep⟩

theorem Span.recast_join (hmono : Monotone r.offset) {s s' t t' : Span}
    (hs : s.recast r = s'.recast r) (ht : t.recast r = t'.recast r) :
    (s.join t).recast r = (s'.join t').recast r := by
  obtain ⟨hstart, hstop⟩ := Span.mk.inj hs
  obtain ⟨hstart', hstop'⟩ := Span.mk.inj ht
  simp only [Span.join, Span.recast, hmono.map_max, hstart, hstop']

/-- An operator makes the same node of the same operands, and needs the same
number of them. -/
theorem Pending.apply_recast (hmono : Monotone r.offset) {p p' : Pending}
    {operands operands' : List Operand} (hp : p.recast r text = p'.recast r text)
    (h : operands.map (Operand.recast r) = operands'.map (Operand.recast r)) :
    (p.apply operands).map (Prod.map (Operand.recast r) (List.map (Operand.recast r)))
      = (p'.apply operands').map
          (Prod.map (Operand.recast r) (List.map (Operand.recast r))) := by
  obtain ⟨hrole, -, -, hspan⟩ := Pending.mk.inj hp
  have hstart : r.offset p.span.start = r.offset p'.span.start := congrArg Span.start hspan
  cases operands with
  | nil =>
    rw [List.map_nil, eq_comm, List.map_eq_nil_iff] at h
    rw [h]
    rfl
  | cons right rest =>
    rw [List.map_cons, eq_comm, List.map_eq_cons_iff] at h
    obtain ⟨right', rest', rfl, hright, hrest⟩ := h
    have htree := Operand.tree_eq hright.symm
    have hheight := Operand.height_eq hright.symm
    have hspanRight := congrArg Expression.span htree
    rw [Expression.span_recast, Expression.span_recast] at hspanRight
    unfold Pending.apply
    rw [hrole]
    cases p'.role with
    | prefixed op =>
      have hstop : r.offset right.tree.span.stop = r.offset right'.tree.span.stop :=
        congrArg Span.stop hspanRight
      simp only [Option.map_some, Prod.map, Operand.recast, Expression.recast, Span.recast,
        htree, hheight, hrest, hstart, hstop]
    | infixed op =>
      cases rest with
      | nil =>
        rw [List.map_nil, List.map_eq_nil_iff] at hrest
        rw [hrest]
      | cons left rest =>
        rw [List.map_cons, List.map_eq_cons_iff] at hrest
        obtain ⟨left', rest', rfl, hleft, hrest⟩ := hrest
        have htreeLeft := Operand.tree_eq hleft.symm
        have hheightLeft := Operand.height_eq hleft.symm
        have hspanLeft := congrArg Expression.span htreeLeft
        rw [Expression.span_recast, Expression.span_recast] at hspanLeft
        have hjoin := Span.recast_join hmono hspanLeft hspanRight
        simp only [Option.map_some, Prod.map, Operand.recast, Expression.recast,
          htree, htreeLeft, hheight, hheightLeft, hrest, hjoin]

/-- The stacks are the same once recast; or a reduction has been refused to
the first, and to the second as well if it has no more room. -/
inductive Stacks.Abreast (r : Recasting) (text : String → String) (limit limit' : Nat)
    (l l' : Stacks) : Prop
  | same (left : l.tooDeep = false) (right : l'.tooDeep = false)
    (alike : l.recast r text = l'.recast r text)
  | refused (left : l.tooDeep = true) (right : limit = limit' → l'.tooDeep = true)

namespace Stacks

variable {limit limit' : Nat}

theorem abreast_settle (hmono : Monotone r.offset) (hlimit : limit ≤ limit')
    {due : Pending → Bool} (hdue : ∀ p p' : Pending, p.binding = p'.binding → due p = due p')
    {operands operands' : List Operand} {pending pending' : List Pending}
    (hoperands : operands.map (Operand.recast r) = operands'.map (Operand.recast r))
    (hpending : pending.map (Pending.recast r text) = pending'.map (Pending.recast r text)) :
    Abreast r text limit limit' (settle limit due operands pending)
      (settle limit' due operands' pending') := by
  induction pending generalizing operands operands' pending' with
  | nil =>
    cases pending' with
    | cons top' pending' => cases hpending
    | nil =>
      refine .same rfl rfl ?_
      simp only [settle, recast, hoperands]
  | cons top pending ih =>
    cases pending' with
    | nil => cases hpending
    | cons top' pending' =>
      obtain ⟨htop, hrest⟩ := List.cons.inj hpending
      obtain ⟨-, hbinding, -, -⟩ := Pending.mk.inj htop
      unfold settle
      rw [hdue top top' hbinding]
      split
      · have happly := Pending.apply_recast hmono htop hoperands
        cases hl : top.apply operands with
        | none =>
          rw [hl, Option.map_none, eq_comm, Option.map_eq_none_iff] at happly
          rw [happly]
          refine .same rfl rfl ?_
          simp only [recast, hrest]
        | some found =>
          rw [hl, Option.map_some, eq_comm, Option.map_eq_some_iff] at happly
          obtain ⟨found', hr, heq⟩ := happly
          rw [hr]
          obtain ⟨node, rest⟩ := found
          obtain ⟨node', rest'⟩ := found'
          obtain ⟨hnode, hleft⟩ := Prod.mk.inj heq
          have hheight := Operand.height_eq hnode
          simp only
          by_cases hroom : node.height ≤ limit
          · rw [if_pos hroom, if_pos (by omega : node'.height ≤ limit')]
            apply ih _ hrest
            rw [List.map_cons, List.map_cons, hnode, hleft]
          · rw [if_neg hroom]
            refine .refused rfl fun heq => ?_
            rw [if_neg (by omega : ¬ node'.height ≤ limit')]
      · refine .same rfl rfl ?_
        simp only [recast, hoperands, hpending]

variable {s s' : Stacks}

theorem abreast_reduceAbove (hmono : Monotone r.offset) (hlimit : limit ≤ limit')
    (h : s.recast r text = s'.recast r text) (binding : Nat) (assoc : Assoc) :
    Abreast r text limit limit' (s.reduceAbove limit binding assoc)
      (s'.reduceAbove limit' binding assoc) := by
  obtain ⟨hoperands, hpending, -⟩ := Stacks.mk.inj h
  refine abreast_settle hmono hlimit (fun p p' hp => ?_) hoperands hpending
  rw [hp]

theorem abreast_reduceAll (hmono : Monotone r.offset) (hlimit : limit ≤ limit')
    (h : s.recast r text = s'.recast r text) :
    Abreast r text limit limit' (s.reduceAll limit) (s'.reduceAll limit') := by
  obtain ⟨hoperands, hpending, -⟩ := Stacks.mk.inj h
  exact abreast_settle hmono hlimit (fun _ _ _ => rfl) hoperands hpending

/-- A null check keeps the flag of a refused reduction. -/
theorem tooDeep_nullCheck {negated : Bool} {stop : Nat} (h : s.tooDeep = true) :
    (s.nullCheck limit negated stop).tooDeep = true := by
  unfold nullCheck
  split
  · exact h
  · split
    · rfl
    · exact h

theorem abreast_nullCheck (hlimit : limit ≤ limit') (h : Abreast r text limit limit' s s')
    (negated : Bool) {stop stop' : Nat} (hstop : r.offset stop = r.offset stop') :
    Abreast r text limit limit' (s.nullCheck limit negated stop)
      (s'.nullCheck limit' negated stop') := by
  cases h with
  | refused left right =>
    exact .refused (tooDeep_nullCheck left) fun heq => tooDeep_nullCheck (right heq)
  | same left right alike =>
    obtain ⟨hoperands, hpending, -⟩ := Stacks.mk.inj alike
    unfold nullCheck
    cases hl : s.operands with
    | nil =>
      rw [hl, List.map_nil, eq_comm, List.map_eq_nil_iff] at hoperands
      rw [hoperands]
      exact .same left right alike
    | cons top rest =>
      rw [hl, List.map_cons, eq_comm, List.map_eq_cons_iff] at hoperands
      obtain ⟨top', rest', hr, htop, hrest⟩ := hoperands
      have htree := Operand.tree_eq htop.symm
      have hheight := Operand.height_eq htop.symm
      have hspan := congrArg Expression.span htree
      rw [Expression.span_recast, Expression.span_recast] at hspan
      have hstart : r.offset top.tree.span.start = r.offset top'.tree.span.start :=
        congrArg Span.start hspan
      rw [hr]
      simp only
      by_cases hroom : limit ≤ top.height
      · rw [if_pos hroom]
        refine .refused rfl fun heq => ?_
        rw [if_pos (by omega : limit' ≤ top'.height)]
      · rw [if_neg hroom]
        by_cases hroom' : limit' ≤ top'.height
        · omega
        · rw [if_neg hroom']
          refine .same left right ?_
          simp only [recast, List.map_cons, Operand.recast, Expression.recast, Span.recast,
            htree, hheight, hstart, hstop, hrest, hpending, left, right]

end Stacks

end Stacks

namespace Grammar.Comparison.Agrees

variable {c : Comparison} {config config' : Config} (law : c.Lawful config config')

include law

/-! ## Rounds -/

/-- A test of the stacks. What is done behind it may rest on its having
been passed. -/
theorem checkStacks {l l' : Stacks}
    (h : Stacks.Abreast c.view c.text config.maxDepth config'.maxDepth l l')
    {α β : Type} {k k' : Unit → Parser α} {g : α → β}
    (hk : l.recast c.view c.text = l'.recast c.view c.text → c.Agrees (k ()) (k' ()) g)
    (hgrows : Grows (k' ())) :
    c.Agrees (checkStacks config l >>= k) (checkStacks config' l' >>= k') g := by
  unfold Grammar.checkStacks
  cases h with
  | same left right alike =>
    rw [left, right]
    exact (pure (f := id) rfl).bind fun _ _ _ => hk alike
  | refused left right =>
    rw [left, if_pos rfl]
    rcases law.limit.eq_or_lt with heq | hlt
    · rw [right heq, if_pos rfl]
      exact show c.Agrees (Grammar.tooDeep config) (Grammar.tooDeep config') g from tooDeep law
    · have hright : Grows ((if l'.tooDeep = true then Grammar.tooDeep config' else Pure.pure ())
          >>= k') := by
        apply Grows.bind
        · split
          · exact .fail _
          · exact .pure ()
        · exact fun _ => hgrows
      exact ⟨fun hstep => .cut (law.refused hlt hstep (hright _)), hright⟩

theorem shift {role : Pending.Role} {level : Level} {s s' : Stacks}
    (h : s.recast c.view c.text = s'.recast c.view c.text) :
    c.Agrees (shift role level s) (shift role level s') (Stacks.recast c.view c.text) := by
  obtain ⟨hoperands, hpending, hdeep⟩ := Stacks.mk.inj h
  apply (current law).bind
  intro t t' ht
  apply (advance law).map
  intro _ _ _
  simp only [Stacks.recast, Stacks.pushPending, List.map_cons, Pending.recast, text_eq ht,
    span_eq ht, hoperands, hpending, hdeep]

theorem shiftPrefix {s s' : Stacks}
    (h : s.recast c.view c.text = s'.recast c.view c.text) :
    c.Agrees (shiftPrefix s) (shiftPrefix s') (roundView (Stacks.recast c.view c.text)) := by
  apply (current law).bind
  intro t t' ht
  rw [kind_eq ht]
  split
  · exact (shift law h).map fun _ _ hs => congrArg ForInStep.yield hs
  · exact pure (congrArg ForInStep.done h)

theorem applyNullCheck {s s' : Stacks}
    (h : s.recast c.view c.text = s'.recast c.view c.text) :
    c.Agrees (applyNullCheck config s) (applyNullCheck config' s')
      (roundView (Stacks.recast c.view c.text)) := by
  apply (current law).bind
  intro t t' ht
  rw [kind_eq ht]
  split
  · apply checkStacks law
    · apply Stacks.abreast_nullCheck law.limit _ _ (stop_eq ht)
      exact Stacks.abreast_reduceAbove law.mono law.limit h _ _
    · intro hchecked
      exact (advance law).map fun _ _ _ => congrArg ForInStep.yield hchecked
    · exact Grows.advance.bind fun _ => .pure _
  · exact pure (congrArg ForInStep.done h)

omit law in
theorem grows_checkChain (level : Level) (s : Stacks) : Grows (checkChain level s) := by
  unfold Grammar.checkChain
  split
  · exact .pure ()
  · split
    · exact .fail _
    · exact .pure ()

omit law in
theorem grows_shift (role : Pending.Role) (level : Level) (s : Stacks) :
    Grows (Grammar.shift role level s) := by
  have hcurrent : Grows Grammar.current := fun s => List.prefix_refl s.faults
  exact hcurrent.bind fun _ => Grows.advance.bind fun _ => .pure _

theorem checkChain {level : Level} {s s' : Stacks}
    (h : s.recast c.view c.text = s'.recast c.view c.text) :
    c.Agrees (checkChain level s) (checkChain level s') id := by
  obtain ⟨-, hpending, -⟩ := Stacks.mk.inj h
  unfold Grammar.checkChain
  cases hl : s.pending with
  | nil =>
    rw [hl, List.map_nil, eq_comm, List.map_eq_nil_iff] at hpending
    rw [hpending]
    exact pure rfl
  | cons top rest =>
    rw [hl, List.map_cons, eq_comm, List.map_eq_cons_iff] at hpending
    obtain ⟨top', rest', hr, htop, -⟩ := hpending
    obtain ⟨-, hbinding, htext, hspan⟩ := Pending.mk.inj htop
    rw [hr]
    simp only [hbinding]
    split
    · have hcause : (Cause.chainedComparison top.text top.span).recast c.view c.text
          = (Cause.chainedComparison top'.text top'.span).recast c.view c.text := by
        simp only [Cause.recast, htext, hspan]
      exact fail law trivial trivial hcause
    · exact pure rfl

theorem shiftInfix {s s' : Stacks}
    (h : s.recast c.view c.text = s'.recast c.view c.text) :
    c.Agrees (shiftInfix config s) (shiftInfix config' s')
      (roundView (Stacks.recast c.view c.text)) := by
  apply (current law).bind
  intro t t' ht
  rw [kind_eq ht]
  split
  · apply checkStacks law (Stacks.abreast_reduceAbove law.mono law.limit h _ _)
    · intro hreduced
      apply (checkChain law hreduced).bind
      intro _ _ _
      exact (shift law hreduced).map fun _ _ hs => congrArg ForInStep.yield hs
    · exact (grows_checkChain _ _).bind fun _ => (grows_shift _ _ _).bind fun _ => .pure _
  · exact pure (congrArg ForInStep.done h)

section Operand

variable {operand operand' : Parser Operand}
  (hoperand : c.Agrees operand operand' (Operand.recast c.view))

include hoperand

theorem round {s s' : Stacks}
    (h : s.recast c.view c.text = s'.recast c.view c.text) :
    c.Agrees (round config operand s) (round config' operand' s')
      (roundView (Stacks.recast c.view c.text)) := by
  apply (iterate law (fun s s' h => shiftPrefix law h) h).bind
  intro shifted shifted' hshifted
  apply hoperand.bind
  intro found found' hfound
  have hpushed : (shifted.pushOperand found).recast c.view c.text
      = (shifted'.pushOperand found').recast c.view c.text := by
    obtain ⟨hoperands, hpending, hdeep⟩ := Stacks.mk.inj hshifted
    simp only [Stacks.recast, Stacks.pushOperand, List.map_cons, hfound, hoperands, hpending,
      hdeep]
  apply (iterate law (fun s s' h => applyNullCheck law h) hpushed).bind
  intro checked checked' hchecked
  exact shiftInfix law hchecked

omit hoperand in
/-- What is answered in the end forgets no fault, whether or not an operand is left. -/
theorem grows_top (o : List Operand) : Grows (match o with
    | top :: _ => (Pure.pure top.tree : Parser Expression)
    | [] => recoverExpression config') := by
  cases o with
  | nil => exact law.recover.grows
  | cons top rest => exact .pure _

/-- A run of operands and operators makes the same tree on both sides. -/
theorem operators :
    c.Agrees (operators config operand) (operators config' operand')
      (Expression.recast c.view) := by
  apply (iterate law (fun s s' h => round law hoperand h) rfl).bind
  intro reached reached' hreached
  apply checkStacks law (Stacks.abreast_reduceAll law.mono law.limit hreached)
  · intro hreduced
    obtain ⟨hoperands, -, -⟩ := Stacks.mk.inj hreduced
    cases hl : (reached.reduceAll config.maxDepth).operands with
    | nil =>
      rw [hl, List.map_nil, eq_comm, List.map_eq_nil_iff] at hoperands
      rw [hoperands]
      exact law.recover
    | cons top rest =>
      rw [hl, List.map_cons, eq_comm, List.map_eq_cons_iff] at hoperands
      obtain ⟨top', rest', hr, htop, -⟩ := hoperands
      rw [hr]
      exact pure (Operand.tree_eq htop.symm)
  · exact grows_top law _

end Operand

/-- The first run may have less room, as long as the second one forgets no
fault where the first has none left. -/
theorem expressionWithin (hgrows : config.maxDepth < config'.maxDepth →
    ∀ room, Grows (expressionWithin config' room)) {room room' : Nat}
    (hle : room ≤ room') (heq : config.maxDepth = config'.maxDepth → room = room') :
    c.Agrees (expressionWithin config room) (expressionWithin config' room')
      (Expression.recast c.view) := by
  induction room generalizing room' with
  | zero =>
    cases room' with
    | zero => exact tooDeep law
    | succ room' =>
      have hlt : config.maxDepth < config'.maxDepth := by
        have := law.limit
        omega
      have hright := hgrows hlt (room' + 1)
      exact ⟨fun hstep => .cut (law.refused hlt hstep (hright _)), hright⟩
  | succ room ih =>
    cases room' with
    | zero => omega
    | succ room' =>
      apply nested law
      apply operators law
      apply Agrees.operand law
      exact ih (by omega) fun h => Nat.succ.inj (heq h)

theorem expression (hgrows : config.maxDepth < config'.maxDepth →
    ∀ room, Grows (Grammar.expressionWithin config' room)) :
    c.Agrees (expression config) (expression config') (Expression.recast c.view) :=
  expressionWithin law hgrows law.limit id

end Grammar.Comparison.Agrees

end Cypher
