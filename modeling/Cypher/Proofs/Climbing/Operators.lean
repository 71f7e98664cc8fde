import Cypher.Proofs.Climbing.Stacks
import Cypher.Token.Stream

/-!
# Stacks and climbs read alike

Whatever waits on the stacks, the rounds that are still to come read what the
waiting climbs would read: the same tree, up to the same token, or the same
fault. The one exception is a tree that grows too high, of which a climb takes
no notice.
-/

namespace Cypher.Grammar

/-! ## Runs that are not too deep -/

/-- The first run is the second, or has been refused for the height of a
tree. -/
def Refines (config : Config) (r r' : EStateM.Result Fault State Expression) : Prop :=
  r = r' ∨ ∃ s : State, r = .error ⟨.nestingTooDeep config.maxDepth, s.current.site⟩ s

section Rounds

variable {config : Config} {operand : Parser Operand}

/-- What is done once the rounds are over. -/
def finish (config : Config) (reached : Stacks) : Parser Expression := do
  let reduced := reached.reduceAll config.maxDepth
  checkStacks config reduced
  match reduced.operands with
  | top :: _ => return top.tree
  | [] => recoverExpression config

/-- All rounds from these stacks on. -/
def rounds (config : Config) (operand : Parser Operand) (s : Stacks) : Parser Expression :=
  iterate (round config operand) s >>= finish config

/-- The rounds from behind an operand on. -/
def roundsBehind (config : Config) (operand : Parser Operand) (s : Stacks) :
    Parser Expression :=
  iterate (applyNullCheck config) s >>= fun checked =>
    shiftInfix config checked >>= afterRound (finish config) (rounds config operand)

/-- The rounds from before an operand on. -/
def roundsBefore (config : Config) (operand : Parser Operand) (s : Stacks) :
    Parser Expression :=
  iterate shiftPrefix s >>= fun shifted =>
    operand >>= fun found => roundsBehind config operand (shifted.pushOperand found)

/-! ## Progress -/

theorem proceeds_checkStacks (s : Stacks) : Proceeds (checkStacks config s) := by
  unfold checkStacks
  split
  · exact .fail _
  · exact .pure _

/-- The stacks are checked for the operator on top, a climb for its last one. -/
theorem checkChain_eq (level : Level) (s : Stacks) :
    checkChain level s = checkLast level s.pending.head? := by
  unfold checkChain checkLast
  cases s.pending <;> rfl

theorem proceeds_shift (role : Pending.Role) (level : Level) (s : Stacks) :
    Proceeds (shift role level s) :=
  Proceeds.current.bind fun _ => Proceeds.advance.bind fun _ => .pure _

theorem proceeds_shiftPrefix (s : Stacks) : Proceeds (shiftPrefix s) := by
  apply Proceeds.current.bind
  intro t
  split
  · exact (proceeds_shift _ _ _).bind fun _ => .pure _
  · exact .pure _

theorem proceeds_applyNullCheck (s : Stacks) : Proceeds (applyNullCheck config s) := by
  apply Proceeds.current.bind
  intro t
  split
  · exact (proceeds_checkStacks _).bind fun _ => Proceeds.advance.bind fun _ => .pure _
  · exact .pure _

theorem proceeds_shiftInfix (s : Stacks) : Proceeds (shiftInfix config s) := by
  apply Proceeds.current.bind
  intro t
  split
  · apply (proceeds_checkStacks _).bind
    intro _
    rw [checkChain_eq]
    apply (proceeds_checkLast _ _).bind
    exact fun _ => (proceeds_shift _ _ _).bind fun _ => .pure _
  · exact .pure _

theorem proceeds_round (hoperand : Proceeds operand) (s : Stacks) :
    Proceeds (round config operand s) := by
  apply (Proceeds.iterate proceeds_shiftPrefix s).bind
  intro shifted
  apply hoperand.bind
  intro found
  exact (Proceeds.iterate proceeds_applyNullCheck _).bind fun _ => proceeds_shiftInfix _

/-! ## Steps -/

variable {s : State} {st : Stacks} {level : Level}

theorem checkStacks_ok (h : st.tooDeep = false) : checkStacks config st s = .ok () s := by
  unfold checkStacks
  rw [h]
  rfl

theorem checkStacks_tooDeep (h : st.tooDeep = true) :
    checkStacks config st s = .error ⟨.nestingTooDeep config.maxDepth, s.current.site⟩ s := by
  unfold checkStacks
  rw [h]
  rfl

theorem shiftPrefix_some {op : PrefixOperator}
    (hlevel : Level.lookup s.current.kind .before = some level)
    (hop : PrefixOperator.ofKind? s.current.kind = some op) :
    shiftPrefix st s = .ok (.yield (st.pushPending
      ⟨.prefixed op, level.binding, s.current.text, s.current.span⟩)) s.advance := by
  have hcurrent : current s = .ok s.current s := rfl
  unfold shiftPrefix
  rw [bind_ok hcurrent, hlevel, hop]
  rfl

theorem shiftPrefix_none (h : Level.lookup s.current.kind .before = none) :
    shiftPrefix st s = .ok (.done st) s := by
  have hcurrent : current s = .ok s.current s := rfl
  unfold shiftPrefix
  rw [bind_ok hcurrent, h]
  rfl

theorem applyNullCheck_some (hlevel : Level.lookup s.current.kind .after = some level) :
    applyNullCheck config st s
      = (checkStacks config ((st.reduceAbove config.maxDepth level.binding level.assoc).nullCheck
          config.maxDepth (s.current.kind = .operator .isNotNull) s.current.span.stop)
        >>= fun _ => advance >>= fun _ => pure (.yield
          ((st.reduceAbove config.maxDepth level.binding level.assoc).nullCheck
            config.maxDepth (s.current.kind = .operator .isNotNull) s.current.span.stop))) s := by
  have hcurrent : current s = .ok s.current s := rfl
  unfold applyNullCheck
  rw [bind_ok hcurrent, hlevel]

theorem applyNullCheck_none (h : Level.lookup s.current.kind .after = none) :
    applyNullCheck config st s = .ok (.done st) s := by
  have hcurrent : current s = .ok s.current s := rfl
  unfold applyNullCheck
  rw [bind_ok hcurrent, h]
  rfl

theorem shiftInfix_some {op : InfixOperator}
    (hlevel : Level.lookup s.current.kind .between = some level)
    (hop : InfixOperator.ofKind? s.current.kind = some op) :
    shiftInfix config st s
      = (checkStacks config (st.reduceAbove config.maxDepth level.binding level.assoc)
        >>= fun _ => checkChain level (st.reduceAbove config.maxDepth level.binding level.assoc)
        >>= fun _ => shift (.infixed op) level
          (st.reduceAbove config.maxDepth level.binding level.assoc)
        >>= fun shifted => pure (.yield shifted)) s := by
  have hcurrent : current s = .ok s.current s := rfl
  unfold shiftInfix
  rw [bind_ok hcurrent, hlevel, hop]

theorem shiftInfix_none (h : Level.lookup s.current.kind .between = none) :
    shiftInfix config st s = .ok (.done st) s := by
  have hcurrent : current s = .ok s.current s := rfl
  unfold shiftInfix
  rw [bind_ok hcurrent, h]
  rfl

theorem consumes_shiftPrefix : Consumes shiftPrefix := by
  intro s st b s' hs h
  cases hlevel : Level.lookup s.current.kind .before with
  | none =>
    rw [shiftPrefix_none hlevel] at h
    cases h
  | some level =>
    obtain ⟨op, hop⟩ := exists_prefixOperator hlevel
    rw [shiftPrefix_some hlevel hop] at h
    cases h
    exact s.length_advance hs (Level.ne_eof_of_lookup hlevel)

theorem state_of_checkStacks {u : Unit} {s' : State} (h : checkStacks config st s = .ok u s') :
    s' = s := by
  cases hdeep : st.tooDeep with
  | true =>
    rw [checkStacks_tooDeep hdeep] at h
    cases h
  | false =>
    rw [checkStacks_ok hdeep] at h
    cases h
    rfl

theorem consumes_applyNullCheck : Consumes (applyNullCheck config) := by
  intro s st b s' hs h
  cases hlevel : Level.lookup s.current.kind .after with
  | none =>
    rw [applyNullCheck_none hlevel] at h
    cases h
  | some level =>
    rw [applyNullCheck_some hlevel] at h
    obtain ⟨_, s₁, hcheck, hbehind⟩ := bind_eq_ok h
    obtain ⟨_, s₂, hadvance, hbuilt⟩ := bind_eq_ok hbehind
    have hstay := state_of_checkStacks hcheck
    cases hadvance
    cases hbuilt
    rw [hstay]
    exact s.length_advance hs (Level.ne_eof_of_lookup hlevel)

theorem consumes_shiftInfix : Consumes (shiftInfix config) := by
  intro s st b s' hs h
  cases hlevel : Level.lookup s.current.kind .between with
  | none =>
    rw [shiftInfix_none hlevel] at h
    cases h
  | some level =>
    obtain ⟨op, hop⟩ := exists_infixOperator hlevel
    rw [shiftInfix_some hlevel hop] at h
    obtain ⟨_, s₁, hcheck, hbehind⟩ := bind_eq_ok h
    obtain ⟨_, s₂, hchain, hbehind⟩ := bind_eq_ok hbehind
    obtain ⟨shifted, s₃, hshift, hbuilt⟩ := bind_eq_ok hbehind
    have hstay := state_of_checkStacks hcheck
    rw [checkChain_eq] at hchain
    have hstay' := state_of_checkLast hchain
    cases hshift
    cases hbuilt
    rw [hstay', hstay]
    exact s.length_advance hs (Level.ne_eof_of_lookup hlevel)

theorem consumes_round (hoperand : Proceeds operand) : Consumes (round config operand) := by
  intro s st b s' hs h
  obtain ⟨shifted, s₁, hshift, hbehind⟩ := bind_eq_ok h
  obtain ⟨found, s₂, hfound, hbehind⟩ := bind_eq_ok hbehind
  obtain ⟨checked, s₃, hcheck, hinfix⟩ := bind_eq_ok hbehind
  have hreaches : s.Reaches s₃ := by
    have hfirst := Proceeds.iterate proceeds_shiftPrefix st _ _ _ hshift
    have hthird := Proceeds.iterate proceeds_applyNullCheck _ _ _ _ hcheck
    exact (hfirst.trans (hoperand _ _ _ hfound)).trans hthird
  have hlt := consumes_shiftInfix _ _ _ _ (hreaches.ended hs) hinfix
  exact Nat.lt_of_lt_of_le hlt hreaches.length

/-! ## Side by side -/

variable (hoperand : Proceeds operand)

include hoperand

theorem rounds_eq (hs : s.Ended) (st : Stacks) :
    rounds config operand st s = roundsBefore config operand st s := by
  have hloop : rounds config operand st s = _ :=
    iterate_bind (proceeds_round hoperand) (consumes_round hoperand) hs st (finish config)
  refine hloop.trans ?_
  unfold round roundsBefore roundsBehind
  simp only [bind_assoc]
  rfl

/-- An incoming operator reduces what no climb passes it on to. -/
theorem reduceAbove_frames (hs : s.Ended) (limit : Nat) (hlevel : level ∈ Level.table)
    (hbefore : level.fixity ≠ .before)
    (hstop : ∀ least c, level.binding < least →
      climbNext (climbs operand) least c s = .ok (.done c) s)
    {fs : List Frame} (hfs : Fit fs) {o : Operand} {c : Climb} (hc : c.tree = o.tree)
    (hlast : c.last = none) :
    ((⟨o :: lefts fs, waiting fs, false⟩ : Stacks).reduceAbove limit level.binding
        level.assoc).tooDeep = true
      ∨ ∃ o' c' fs', (⟨o :: lefts fs, waiting fs, false⟩ : Stacks).reduceAbove limit
            level.binding level.assoc = ⟨o' :: lefts fs', waiting fs', false⟩
        ∧ Fit fs' ∧ (∀ f ∈ fs'.head?, level.reduces f.pending = false) ∧ c'.tree = o'.tree
        ∧ (∀ p ∈ c'.last, level.reduces p = true)
        ∧ resume operand fs c s = resume operand fs' c' s := by
  have hframes := settle_frames hoperand hs limit level.reduces
    (fun f least c hfits hdue => hstop _ c (f.lt_demand_of_reduces hfits hlevel hbefore hdue))
    hfs hc
  rcases hframes with hdeep | ⟨o', c', fs', hsame, hfs', hhead, htree, hlast', hresume⟩
  · exact .inl hdeep
  · refine .inr ⟨o', c', fs', hsame, hfs', hhead, htree, fun p hp => ?_, hresume⟩
    rcases hlast' p hp with hnone | hreduces
    · rw [hlast] at hnone
      cases hnone
    · exact hreduces

omit hoperand in
/-- The climb on top takes the operator, unless it does not group with the one
that the climb waits for. -/
theorem demand_le (hlevel : level ∈ Level.table) {fs : List Frame} (hfs : Fit fs)
    (hhead : ∀ f ∈ fs.head?, level.reduces f.pending = false)
    (hchain : ∀ f ∈ fs.head?, ¬ (level.assoc = .nonAssoc ∧ f.pending.binding = level.binding)) :
    demand fs ≤ level.binding := by
  cases fs with
  | nil => exact Level.one_le_binding hlevel
  | cons f fs =>
    exact f.demand_le_of_not_reduces hfs.1 hlevel (hhead f rfl) (hchain f rfl)

/-- Where no operator is due, the waiting ones are all reduced, and all climbs
come to their end. -/
theorem finish_refines (hs : s.Ended) (hafter : Level.lookup s.current.kind .after = none)
    (hbetween : Level.lookup s.current.kind .between = none) {fs : List Frame} (hfs : Fit fs)
    {o : Operand} {c : Climb} (hc : c.tree = o.tree) :
    Refines config (finish config ⟨o :: lefts fs, waiting fs, false⟩ s)
      (resume operand fs c s) := by
  have hframes := settle_frames hoperand hs config.maxDepth (fun _ => true)
    (fun f least c _ _ => climbNext_done hafter hbetween) hfs hc
  unfold finish
  rcases hframes with hdeep | ⟨o', c', fs', hsame, hfs', hhead, htree, -, hresume⟩
  · exact .inr ⟨s, bind_error (checkStacks_tooDeep hdeep)⟩
  · have hnone : fs' = [] := by
      cases fs' with
      | nil => rfl
      | cons f fs' => cases hhead f rfl
    subst hnone
    have hreduced : (⟨o :: lefts fs, waiting fs, false⟩ : Stacks).reduceAll config.maxDepth
        = ⟨[o'], [], false⟩ := hsame
    have hstop : climbsOn operand 1 c' s = .ok c'.tree s := by
      rw [climbsOn_eq hoperand hs, bind_ok (climbNext_done hafter hbetween)]
      rfl
    left
    rw [hresume, hreduced, bind_ok (checkStacks_ok rfl)]
    unfold resume
    rw [bind_ok (show climbsOn operand (demand []) c' s = .ok c'.tree s from hstop), htree]
    rfl

omit hoperand in
theorem checkLast_ok {last : Option Pending}
    (h : ∀ p ∈ last, ¬ (level.assoc = .nonAssoc ∧ p.binding = level.binding)) :
    checkLast level last s = .ok () s := by
  cases last with
  | none => rfl
  | some p =>
    rw [checkLast, if_neg (h p rfl)]
    rfl

/-- Runs from further on are alike. -/
def Further (config : Config) (operand : Parser Operand) (bound : Nat) : Prop :=
  ∀ s : State, s.Ended → s.ahead.length < bound → ∀ fs, Fit fs →
    Refines config (rounds config operand ⟨lefts fs, waiting fs, false⟩ s)
      ((climbs operand (demand fs) >>= unwind operand fs) s)

/-- Where an operator between two operands is due, it is shifted, and a climb
for its right side starts. -/
theorem shiftInfix_refines {bound : Nat} (hfurther : Further config operand bound)
    (hs : s.Ended) (hbound : s.ahead.length ≤ bound)
    (hafter : Level.lookup s.current.kind .after = none)
    (hbetween : Level.lookup s.current.kind .between = some level) {fs : List Frame}
    (hfs : Fit fs) {o : Operand} {c : Climb} (hc : c.tree = o.tree) (hlast : c.last = none) :
    Refines config ((shiftInfix config ⟨o :: lefts fs, waiting fs, false⟩
      >>= afterRound (finish config) (rounds config operand)) s) (resume operand fs c s) := by
  obtain ⟨hlevel, hfixity⟩ := Level.mem_table_of_lookup hbetween
  have hbefore : level.fixity ≠ .before := by
    rw [hfixity]
    decide
  obtain ⟨op, hop⟩ := exists_infixOperator hbetween
  have hstop (least : Nat) (c : Climb) (h : level.binding < least) :
      climbNext (climbs operand) least c s = .ok (.done c) s := by
    rw [climbNext_between hafter hbetween hop, if_neg (Nat.not_le.2 h)]
  rw [bind_congr_left (shiftInfix_some hbetween hop)]
  rcases reduceAbove_frames hoperand hs config.maxDepth hlevel hbefore hstop hfs hc hlast with
    hdeep | ⟨o', c', fs', hsame, hfs', hhead, htree, hlast', hresume⟩
  · exact .inr ⟨s, bind_error (bind_error (checkStacks_tooDeep hdeep))⟩
  rw [hresume, hsame]
  have hroom : checkStacks config ⟨o' :: lefts fs', waiting fs', false⟩ s = .ok () s :=
    checkStacks_ok rfl
  by_cases hchain : ∀ f ∈ fs'.head?, ¬ (level.assoc = .nonAssoc ∧ f.pending.binding = level.binding)
  · -- The operator is shifted, and the climb on top starts another for its right side.
    have hdemand := demand_le hlevel hfs' hhead hchain
    have hpending : checkChain level ⟨o' :: lefts fs', waiting fs', false⟩ s = .ok () s := by
      rw [checkChain_eq]
      apply checkLast_ok
      intro p hp
      obtain ⟨f, hf, rfl⟩ : ∃ f ∈ fs'.head?, f.pending = p := by
        rwa [waiting, List.head?_map, Option.mem_def, Option.map_eq_some_iff] at hp
      exact hchain f hf
    have hchecked : checkLast level c'.last s = .ok () s := by
      apply checkLast_ok
      rintro p hp ⟨hassoc, hbinding⟩
      rcases Level.reduces_iff.1 (hlast' p hp) with hlt | ⟨-, hleft⟩
      · omega
      · rw [hassoc] at hleft
        cases hleft
    have hfits : Fit (.infixed o' op level s.current :: fs') := by
      refine ⟨⟨?_, hdemand⟩, hfs'⟩
      rw [InfixOperator.kind_of_ofKind? hop, hbetween]
    have hclimb : resume operand fs' c' s
        = (climbs operand (demand (.infixed o' op level s.current :: fs'))
          >>= unwind operand (.infixed o' op level s.current :: fs')) s.advance := by
      have hadvance : advance s = .ok () s.advance := rfl
      have hnext : climbNext (climbs operand) (demand fs') c' s
          = (climbs operand level.right >>= fun right =>
            pure (.yield (Frame.close (.infixed o' op level s.current) right))) s.advance := by
        rw [climbNext_between hafter hbetween hop, if_pos hdemand, bind_ok hchecked,
          bind_ok hadvance, htree]
        rfl
      unfold resume
      rw [bind_congr_left (climbsOn_eq hoperand hs _ c'), bind_assoc, bind_congr_left hnext]
      simp only [bind_assoc, pure_bind]
      rfl
    have hshift : (checkStacks config ⟨o' :: lefts fs', waiting fs', false⟩ >>= fun _ =>
        checkChain level ⟨o' :: lefts fs', waiting fs', false⟩ >>= fun _ =>
          shift (.infixed op) level ⟨o' :: lefts fs', waiting fs', false⟩ >>= fun shifted =>
            pure (ForInStep.yield shifted)) s
        = .ok (ForInStep.yield ⟨lefts (.infixed o' op level s.current :: fs'),
          waiting (.infixed o' op level s.current :: fs'), false⟩) s.advance := by
      rw [bind_ok hroom, bind_ok hpending]
      rfl
    rw [bind_ok hshift, hclimb]
    have hlt := s.length_advance hs (Level.ne_eof_of_lookup hbetween)
    exact hfurther s.advance ((State.Reaches.advance s).ended hs) (by omega) _ hfits
  · -- Both stop: the climb that takes the operator has just taken its like.
    simp only [not_forall, not_not] at hchain
    obtain ⟨f, hf, hassoc, hbinding⟩ := hchain
    obtain ⟨fs'', rfl⟩ := List.head?_eq_some_iff.1 hf
    obtain ⟨hlt, hle, hclose⟩ := f.of_chained hfs'.1 hlevel hbefore hassoc hbinding
    have hfail : checkLast level (some f.pending) s
        = .error ⟨.chainedComparison f.pending.text f.pending.span, s.current.site⟩ s := by
      rw [checkLast, if_pos ⟨hassoc, hbinding⟩]
      rfl
    have hpending : checkChain level ⟨o' :: lefts (f :: fs''), waiting (f :: fs''), false⟩ s
        = .error ⟨.chainedComparison f.pending.text f.pending.span, s.current.site⟩ s := by
      rw [checkChain_eq]
      exact hfail
    have hnext : climbNext (climbs operand) (demand fs'') (f.close c'.tree) s
        = .error ⟨.chainedComparison f.pending.text f.pending.span, s.current.site⟩ s := by
      rw [climbNext_between hafter hbetween hop, if_pos hle, hclose]
      exact bind_error hfail
    have hshift : (checkStacks config ⟨o' :: lefts (f :: fs''), waiting (f :: fs''), false⟩
        >>= fun _ => checkChain level ⟨o' :: lefts (f :: fs''), waiting (f :: fs''), false⟩
        >>= fun _ => shift (.infixed op) level ⟨o' :: lefts (f :: fs''), waiting (f :: fs''), false⟩
        >>= fun shifted => pure (ForInStep.yield shifted)) s
        = .error ⟨.chainedComparison f.pending.text f.pending.span, s.current.site⟩ s := by
      rw [bind_ok hroom, bind_error hpending]
    left
    rw [resume_done hoperand hs (hstop f.demand c' hlt), bind_error hshift]
    unfold resume
    rw [bind_congr_left (climbsOn_eq hoperand hs _ _), bind_assoc, bind_error hnext]

omit hoperand in
theorem nullCheck_cons (limit : Nat) (o : Operand) (os : List Operand) (ps : List Pending)
    (negated : Bool) (stop : Nat) :
    (⟨o :: os, ps, false⟩ : Stacks).nullCheck limit negated stop
      = if limit ≤ o.height then ⟨os, ps, true⟩
        else ⟨⟨.nullCheck negated o.tree ⟨o.tree.span.start, stop⟩, o.height + 1⟩ :: os, ps,
          false⟩ := rfl

variable (config) in
/-- Where a null check is due it is applied, and the climb on top takes it. -/
theorem applyNullCheck_refines (hs : s.Ended)
    (hafter : Level.lookup s.current.kind .after = some level) {fs : List Frame} (hfs : Fit fs)
    {o : Operand} {c : Climb} (hc : c.tree = o.tree) (hlast : c.last = none) :
    applyNullCheck config ⟨o :: lefts fs, waiting fs, false⟩ s
        = .error ⟨.nestingTooDeep config.maxDepth, s.current.site⟩ s
      ∨ ∃ o' c' fs', applyNullCheck config ⟨o :: lefts fs, waiting fs, false⟩ s
          = .ok (.yield ⟨o' :: lefts fs', waiting fs', false⟩) s.advance
        ∧ Fit fs' ∧ c'.tree = o'.tree ∧ c'.last = none
        ∧ resume operand fs c s = resume operand fs' c' s.advance := by
  obtain ⟨hlevel, hfixity⟩ := Level.mem_table_of_lookup hafter
  have hbefore : level.fixity ≠ .before := by
    rw [hfixity]
    decide
  have hstop (least : Nat) (c : Climb) (h : level.binding < least) :
      climbNext (climbs operand) least c s = .ok (.done c) s := by
    rw [climbNext_after hafter, if_neg (Nat.not_le.2 h)]
  rw [applyNullCheck_some hafter]
  rcases reduceAbove_frames hoperand hs config.maxDepth hlevel hbefore hstop hfs hc hlast with
    hdeep | ⟨o', c', fs', hsame, hfs', hhead, htree, -, hresume⟩
  · exact .inl (bind_error (checkStacks_tooDeep (Stacks.tooDeep_nullCheck hdeep)))
  rw [hresume, hsame, nullCheck_cons]
  by_cases hheight : config.maxDepth ≤ o'.height
  · rw [if_pos hheight]
    exact .inl (bind_error (checkStacks_tooDeep rfl))
  · have hdemand : demand fs' ≤ level.binding := by
      apply demand_le hlevel hfs' hhead
      rintro f - ⟨hassoc, -⟩
      rw [Level.assoc_after hafter] at hassoc
      cases hassoc
    have hnext : climbNext (climbs operand) (demand fs') c' s = _ := climbNext_after hafter
    rw [if_pos hdemand, htree] at hnext
    have hadvance : advance s = .ok () s.advance := rfl
    rw [if_neg hheight, bind_ok (checkStacks_ok rfl), bind_ok hadvance]
    refine .inr ⟨_, ⟨_, none⟩, fs', rfl, hfs', rfl, rfl, ?_⟩
    unfold resume
    rw [bind_congr_left (climbsOn_eq hoperand hs _ c'), bind_assoc, bind_ok hnext]
    rfl

/-- A run from behind an operand, if all runs from further on are alike. -/
theorem roundsBehind_refines {bound : Nat} (hfurther : Further config operand bound)
    (hs : s.Ended) (hbound : s.ahead.length ≤ bound) {fs : List Frame} (hfs : Fit fs)
    {o : Operand} {c : Climb} (hc : c.tree = o.tree) (hlast : c.last = none) :
    Refines config (roundsBehind config operand ⟨o :: lefts fs, waiting fs, false⟩ s)
      (resume operand fs c s) := by
  -- The induction is on the null checks: each consumes a token.
  induction hlen : s.ahead.length using Nat.strong_induction_on generalizing s fs o c with
  | h n ih =>
  have hloop : roundsBehind config operand ⟨o :: lefts fs, waiting fs, false⟩ s = _ :=
    iterate_bind proceeds_applyNullCheck consumes_applyNullCheck hs
      ⟨o :: lefts fs, waiting fs, false⟩ fun checked =>
        shiftInfix config checked >>= afterRound (finish config) (rounds config operand)
  rw [hloop]
  cases hafter : Level.lookup s.current.kind .after with
  | none =>
    rw [bind_ok (applyNullCheck_none hafter)]
    cases hbetween : Level.lookup s.current.kind .between with
    | none =>
      show Refines config ((shiftInfix config ⟨o :: lefts fs, waiting fs, false⟩
        >>= afterRound (finish config) (rounds config operand)) s) _
      rw [bind_ok (shiftInfix_none hbetween)]
      exact finish_refines hoperand hs hafter hbetween hfs hc
    | some level =>
      exact shiftInfix_refines hoperand hfurther hs hbound hafter hbetween hfs hc hlast
  | some level =>
    rcases applyNullCheck_refines config hoperand hs hafter hfs hc hlast with
      hdeep | ⟨o', c', fs', hchecked, hfs', htree, hlast', hresume⟩
    · exact .inr ⟨s, bind_error hdeep⟩
    · have hlt := s.length_advance hs (Level.ne_eof_of_lookup hafter)
      rw [bind_ok hchecked, hresume]
      exact ih s.advance.ahead.length (by omega) ((State.Reaches.advance s).ended hs) (by omega)
        hfs' htree hlast' rfl

/-- Whatever waits, the rounds to come read what the waiting climbs would. -/
theorem rounds_refines (hs : s.Ended) {fs : List Frame} (hfs : Fit fs) :
    Refines config (rounds config operand ⟨lefts fs, waiting fs, false⟩ s)
      ((climbs operand (demand fs) >>= unwind operand fs) s) := by
  induction hlen : s.ahead.length using Nat.strong_induction_on generalizing s fs with
  | h n ih =>
  have hfurther : Further config operand s.ahead.length :=
    fun s' hs' hlt fs' hfs' => ih s'.ahead.length (hlen ▸ hlt) hs' hfs' rfl
  have hloop := iterate_bind proceeds_shiftPrefix consumes_shiftPrefix hs
    ⟨lefts fs, waiting fs, false⟩ fun shifted =>
      operand >>= fun found => roundsBehind config operand (shifted.pushOperand found)
  have hunfold : roundsBefore config operand ⟨lefts fs, waiting fs, false⟩ s = _ := hloop
  rw [rounds_eq hoperand hs, hunfold, bind_congr_left (climbs_eq hoperand hs _), bind_assoc]
  cases hlevel : Level.lookup s.current.kind .before with
  | some level =>
    -- A climb for the operand of the operator starts.
    obtain ⟨op, hop⟩ := exists_prefixOperator hlevel
    have hlt := s.length_advance hs (Level.ne_eof_of_lookup hlevel)
    have hs' := (State.Reaches.advance s).ended hs
    have hfits : Fit (.prefixed op level s.current :: fs) := by
      refine ⟨?_, hfs⟩
      show Level.lookup op.kind .before = some level
      rw [PrefixOperator.kind_of_ofKind? hop, hlevel]
    have hnext := hfurther s.advance hs' hlt _ hfits
    rw [rounds_eq hoperand hs'] at hnext
    rw [bind_ok (shiftPrefix_some hlevel hop),
      bind_congr_left (climbFirst_before hlevel hop), bind_assoc]
    simp only [pure_bind]
    exact hnext
  | none =>
    rw [bind_ok (shiftPrefix_none hlevel), bind_congr_left (climbFirst_operand hlevel), bind_assoc]
    show Refines config ((operand >>= fun found => roundsBehind config operand
      ⟨found :: lefts fs, waiting fs, false⟩) s) _
    cases hfound : operand s with
    | error fault s' =>
      rw [bind_error hfound, bind_error hfound]
      exact .inl rfl
    | ok found s' =>
      have hreaches := hoperand _ _ _ hfound
      rw [bind_ok hfound, bind_ok hfound, pure_bind]
      exact roundsBehind_refines hoperand hfurther (hreaches.ended hs) hreaches.length hfs rfl rfl

end Rounds

/-! ## Operands -/

/-- A run compared with itself that only reads on. -/
def progress (s₀ : State) : Comparison where
  view := .same
  text := id
  inStep s s' := s = s' ∧ s₀.Reaches s
  stops fault s fault' s' := fault = fault' ∧ s.faults = s'.faults
  cut _ _ _ := False
  cut_mono h _ := h

theorem progress_lawful (s₀ : State) (config : Config) :
    (progress s₀).Lawful config config where
  mono := monotone_id
  ahead h := by rw [h.1]
  current h := by rw [h.1]
  stop h := by rw [h.1]
  depth h := by rw [h.1]
  advance h := ⟨congrArg State.advance h.1, h.2.trans (.advance _)⟩
  enter h n := ⟨by rw [h.1], h.2.length, h.2.eof⟩
  leave h _ _ := h
  fail {s s' cause cause'} h _ _ hcause := by
    obtain ⟨rfl, -⟩ := h
    have heq : cause = cause' := by cases cause <;> cases cause' <;> exact hcause
    exact ⟨by rw [heq], rfl⟩
  recover := by
    unfold recoverExpression
    by_cases hrecover : config.recover = true
    · rw [if_pos hrecover]
      refine ⟨fun {s s'} h => ?_, fun s => ?_⟩
      · obtain ⟨rfl, hreaches⟩ := h
        have hrecord (faults : List Fault) : s₀.Reaches { s with faults } :=
          ⟨hreaches.length, hreaches.eof⟩
        exact .ok rfl ⟨rfl, (hrecord _).trans (.advanceBy _ _)⟩
      · rw [reported_skipOperand]
        exact List.prefix_append _ _
    · rw [if_neg hrecover]
      refine ⟨fun {s s'} h => ?_, .fail _⟩
      obtain ⟨rfl, -⟩ := h
      exact .error ⟨rfl, rfl⟩
  limit := Nat.le_refl _
  refused h := absurd h (Nat.lt_irrefl _)

/-- Reading an operand only reads on. -/
theorem proceeds_operand (config : Config) (room : Nat) :
    Proceeds (operand config (expressionWithin config room)) := by
  intro s o s' h
  have hlaw := progress_lawful s config
  have hexpr := Comparison.Agrees.expressionWithin hlaw
    (fun h => absurd h (Nat.lt_irrefl _)) (Nat.le_refl room) fun _ => rfl
  have hstart : (progress s).inStep s s := ⟨rfl, .refl s⟩
  have hmeets := (Comparison.Agrees.operand hlaw hexpr).meets hstart
  rw [h] at hmeets
  cases hmeets with
  | ok answer states => exact states.2

/-! ## The two readings -/

/-- With nothing waiting, the rounds read what one climb over all operators does. -/
theorem operators_refines (config : Config) (room : Nat) {s : State} (hs : s.Ended) :
    Refines config (operators config (operand config (expressionWithin config room)) s)
      (climbs (operand config (expressionWithin config room)) 1 s) := by
  have hfit : Fit [] := trivial
  have hrounds : Refines config _ _ := rounds_refines (proceeds_operand config room) hs hfit
  have hunwind : unwind (operand config (expressionWithin config room)) [] = pure := rfl
  rwa [hunwind, bind_pure] at hrounds

/-- The stacks read what precedence climbing reads. As long as no limit is hit,
an expression of operators is the climb over all of them: the same tree, up to
the same token, or the same fault. In particular two operators in a row are
refused where a climb finds that the second does not group with the first, and
nowhere else. -/
theorem operators_eq_climb {config : Config} {room : Nat} {s : State} (hs : s.Ended)
    (hlimit : ∀ fault s', operators config (operand config (expressionWithin config room)) s
      = .error fault s' → fault.cause ≠ .nestingTooDeep config.maxDepth) :
    operators config (operand config (expressionWithin config room)) s
      = climb (operand config (expressionWithin config room)) (s.ahead.length + 1) 1 s := by
  rcases operators_refines config room hs with heq | ⟨s', hdeep⟩
  · exact heq
  · exact absurd rfl (hlimit _ _ hdeep)

/-- `a + b = NOT -c IS NULL`, where a loose operator waits on a tighter one. -/
private def looseInside : State :=
  { ahead := (TokenStream.ofText "a + b = NOT -c IS NULL").tokens
    eof := (TokenStream.ofText "a + b = NOT -c IS NULL").eof }

theorem operators_eq_climb_looseInside :
    operators {} (operand {} (expressionWithin {} 8)) looseInside
      = climb (operand {} (expressionWithin {} 8)) (looseInside.ahead.length + 1) 1 looseInside := by
  have hended : looseInside.Ended := rfl
  apply operators_eq_climb hended
  intro fault s' hrun
  have hread : (match operators {} (operand {} (expressionWithin {} 8)) looseInside with
      | .ok _ _ => true
      | .error _ _ => false) = true := by decide +kernel
  rw [hrun] at hread
  cases hread

end Cypher.Grammar
