import Cypher.Proofs.Terminating.Loops

/-!
# What the stacks hold

While operands and operators are read, the two stacks hold between them all that
has been shifted, in the order in which it was read. One operand waits for each
operator that waits between two, and behind an operand there is one more. So a
reduction never misses an operand, and the only thing that it can be refused for
is the height of the node that it makes.

A refused reduction has taken its operands off the stack. Nothing is claimed of
the stacks then: the run stops at the next check.
-/

namespace Cypher

/-! ## Rows of operands and operators -/

/-- A part of an expression of operators. -/
inductive Item
  | operand (tree : Expression)
  | prefixed (op : PrefixOperator)
  | infixed (op : InfixOperator)
  | nullCheck (negated : Bool)

/-- Whether the part is an operand. -/
def Item.isOperand : Item → Bool
  | .operand _ => true
  | _ => false

/-- The operators of a tree with what they are written between, from left to right. A node of
another kind is an operand, with all that is inside it. -/
def Expression.items : Expression → List Item
  | .prefixed op operand _ => .prefixed op :: operand.items
  | .infixed op left right _ => left.items ++ .infixed op :: right.items
  | .nullCheck negated operand _ => operand.items ++ [.nullCheck negated]
  | e => [.operand e]

/-- Whether the operator waits between two operands. -/
def Pending.isInfixed (p : Pending) : Bool :=
  match p.role with
  | .infixed _ => true
  | .prefixed _ => false

namespace Stacks

/-- The number of operators that wait between two operands. -/
def infixes (s : Stacks) : Nat := s.pending.countP Pending.isInfixed

theorem infixes_pushInfixed (s : Stacks) {p : Pending} (h : p.isInfixed = true) :
    (s.pushPending p).infixes = s.infixes + 1 := List.countP_cons_of_pos h

/-- Waiting operators, the topmost last, each behind the operand that waits for it if it is
written between two. -/
def row : List Pending → List Operand → List Item
  | [], operands => operands.reverse.flatMap (·.tree.items)
  | p :: pending, operands =>
    match p.role, operands with
    | .prefixed op, operands => row pending operands ++ [.prefixed op]
    | .infixed op, left :: rest => row pending rest ++ left.tree.items ++ [.infixed op]
    | .infixed op, [] => row pending [] ++ [.infixed op]

theorem row_prefixed (op : PrefixOperator) (binding : Nat) (text : String) (span : Span)
    (pending : List Pending) (operands : List Operand) :
    row (⟨.prefixed op, binding, text, span⟩ :: pending) operands
      = row pending operands ++ [.prefixed op] := rfl

theorem row_infixed (op : InfixOperator) (binding : Nat) (text : String) (span : Span)
    (pending : List Pending) (left : Operand) (rest : List Operand) :
    row (⟨.infixed op, binding, text, span⟩ :: pending) (left :: rest)
      = row pending rest ++ left.tree.items ++ [.infixed op] := rfl

/-- Where a run has come to: an operand is due, or has just been read. -/
inductive Place
  | before | behind

/-- The number of operands that no operator between two waits for. -/
def Place.spare : Place → Nat
  | before => 0
  | behind => 1

/-- All that is on the stacks, from left to right. -/
def listed (s : Stacks) (place : Place) : List Item :=
  row s.pending (s.operands.drop place.spare)
    ++ (s.operands.take place.spare).flatMap (·.tree.items)

/-- The operands carry the heights of their trees. -/
def Weighed (operands : List Operand) : Prop := ∀ o ∈ operands, o.height = o.tree.height

/-- The stacks hold these items. No reduction has been refused. -/
structure Stores (place : Place) (items : List Item) (s : Stacks) : Prop where
  counted : s.operands.length = s.infixes + place.spare
  ordered : s.listed place = items
  weighed : Weighed s.operands
  running : s.tooDeep = false

/-! ## Reductions -/

/-- Reducing the operators on top for as long as they are due leads from the one to the other.
Each reduction finds its operands, makes a node that stands where they stood with the operator,
and is refused if the node is higher than the limit, which ends it, and for nothing else. -/
inductive Reduces (limit : Nat) (due : Pending → Bool) : Stacks → Stacks → Prop
  | done {operands : List Operand} {pending : List Pending}
    (hdone : ∀ top ∈ pending.head?, due top = false) :
    Reduces limit due ⟨operands, pending, false⟩ ⟨operands, pending, false⟩
  | refused {operands rest : List Operand} {top : Pending} {pending : List Pending}
    {node : Operand} (hdue : due top = true) (hfound : top.apply operands = some (node, rest))
    (hhigh : limit < node.tree.height) :
    Reduces limit due ⟨operands, top :: pending, false⟩ ⟨rest, pending, true⟩
  | reduced {operands rest : List Operand} {top : Pending} {pending : List Pending}
    {node : Operand} {s : Stacks} (hdue : due top = true)
    (hfound : top.apply operands = some (node, rest)) (hlow : node.tree.height ≤ limit)
    (hsame : listed ⟨node :: rest, pending, false⟩ .behind
      = listed ⟨operands, top :: pending, false⟩ .behind)
    (more : Reduces limit due ⟨node :: rest, pending, false⟩ s) :
    Reduces limit due ⟨operands, top :: pending, false⟩ s

section Reducing

variable {limit : Nat} {due : Pending → Bool} {items : List Item} {operands : List Operand}
  {pending : List Pending} {top : Pending} {s : Stacks}

theorem listed_behind (o : Operand) (rest : List Operand) (pending : List Pending) (b : Bool) :
    listed ⟨o :: rest, pending, b⟩ .behind = row pending rest ++ o.tree.items := by
  simp [listed, Place.spare]

theorem listed_before (s : Stacks) : s.listed .before = row s.pending s.operands := by
  simp [listed, Place.spare]

/-- Behind an operand a waiting operator has all that it takes. -/
theorem Stores.apply (h : Stores .behind items ⟨operands, top :: pending, false⟩) :
    ∃ node rest, top.apply operands = some (node, rest)
      ∧ Stores .behind items ⟨node :: rest, pending, false⟩ := by
  obtain ⟨hcounted, hordered, hweighed, -⟩ := h
  obtain ⟨right, rest, rfl⟩ := List.exists_cons_of_length_eq_add_one hcounted
  rw [listed_behind] at hordered
  have hright : right.height = right.tree.height := hweighed right List.mem_cons_self
  have hrest : Weighed rest := fun o ho => hweighed o (List.mem_cons_of_mem _ ho)
  obtain ⟨role, binding, text, span⟩ := top
  cases role with
  | prefixed op =>
    refine ⟨_, rest, rfl, ?_, ?_, List.forall_mem_cons.2 ⟨?_, hrest⟩, rfl⟩
    · exact hcounted
    · rw [listed_behind, ← hordered, row_prefixed, Expression.items, List.append_assoc]
      rfl
    · rw [Expression.height, hright]
  | infixed op =>
    have hlength : rest.length = pending.countP Pending.isInfixed + 1 := by
      have hpushed := infixes_pushInfixed ⟨right :: rest, pending, false⟩
        (p := ⟨.infixed op, binding, text, span⟩) rfl
      exact Nat.succ.inj (hcounted.trans (congrArg (· + 1) hpushed))
    obtain ⟨left, rest, rfl⟩ := List.exists_cons_of_length_eq_add_one hlength
    obtain ⟨hleft, hothers⟩ := List.forall_mem_cons.1 hrest
    refine ⟨_, rest, rfl, ?_, ?_, List.forall_mem_cons.2 ⟨?_, hothers⟩, rfl⟩
    · exact hlength
    · rw [listed_behind, ← hordered, row_infixed, Expression.items]
      simp
    · rw [Expression.height, hright, hleft]

/-- Reducing does what it should, and what is held stays in its order unless a reduction is
refused. -/
theorem Stores.settle (h : Stores .behind items ⟨operands, pending, false⟩) :
    Reduces limit due ⟨operands, pending, false⟩ (settle limit due operands pending)
      ∧ ((Stacks.settle limit due operands pending).tooDeep = true
        ∨ Stores .behind items (Stacks.settle limit due operands pending)
          ∧ ∀ top ∈ (Stacks.settle limit due operands pending).pending.head?, due top = false) := by
  induction pending generalizing operands with
  | nil => exact ⟨.done (by simp), .inr ⟨h, by simp [Stacks.settle]⟩⟩
  | cons top pending ih =>
    obtain ⟨node, rest, hfound, hnode⟩ := h.apply
    have hheight : node.height = node.tree.height := hnode.weighed node List.mem_cons_self
    unfold Stacks.settle
    by_cases hdue : due top = true
    · rw [if_pos hdue, hfound]
      dsimp only
      by_cases hlow : node.height ≤ limit
      · rw [if_pos hlow]
        obtain ⟨hreduces, hheld⟩ := ih hnode
        exact ⟨.reduced hdue hfound (hheight ▸ hlow) (hnode.ordered.trans h.ordered.symm) hreduces,
          hheld⟩
      · rw [if_neg hlow]
        exact ⟨.refused hdue hfound (hheight ▸ Nat.lt_of_not_le hlow), .inl rfl⟩
    · rw [if_neg hdue]
      have hdone : ∀ p ∈ (top :: pending).head?, due p = false := by
        rintro p ⟨⟩
        exact Bool.eq_false_iff.2 hdue
      exact ⟨.done hdone, .inr ⟨h, hdone⟩⟩

/-- A null check finds its operand, and is refused for the height of the node alone. -/
theorem Stores.nullCheck (h : Stores .behind items s) (limit : Nat) (negated : Bool) (stop : Nat) :
    ∃ top rest, s.operands = top :: rest
      ∧ ((s.nullCheck limit negated stop).tooDeep = true
        ↔ limit < (Expression.nullCheck negated top.tree ⟨top.tree.span.start, stop⟩).height)
      ∧ ((s.nullCheck limit negated stop).tooDeep = false →
        Stores .behind (items ++ [.nullCheck negated]) (s.nullCheck limit negated stop)) := by
  obtain ⟨operands, pending, tooDeep⟩ := s
  obtain ⟨hcounted, hordered, hweighed, hrunning⟩ := h
  obtain rfl : tooDeep = false := hrunning
  obtain ⟨top, rest, rfl⟩ := List.exists_cons_of_length_eq_add_one hcounted
  rw [listed_behind] at hordered
  obtain ⟨htop, hrest⟩ := List.forall_mem_cons.1 hweighed
  refine ⟨top, rest, rfl, ?_, fun hdeep => ?_⟩
  · unfold Stacks.nullCheck
    rw [Expression.height, ← htop]
    by_cases hhigh : limit ≤ top.height
    · simp [hhigh, Nat.lt_succ_of_le hhigh]
    · simp only [if_neg hhigh, Bool.false_eq_true, false_iff]
      omega
  · unfold Stacks.nullCheck at hdeep ⊢
    by_cases hhigh : limit ≤ top.height
    · simp [hhigh] at hdeep
    · simp only [if_neg hhigh]
      refine ⟨hcounted, ?_, List.forall_mem_cons.2 ⟨?_, hrest⟩, rfl⟩
      · rw [listed_behind, ← hordered, List.append_assoc, Expression.items]
      · rw [Expression.height, htop]

/-- A null check does not take a refusal back. -/
theorem running_of_nullCheck {negated : Bool} {stop : Nat}
    (h : (s.nullCheck limit negated stop).tooDeep = false) : s.tooDeep = false := by
  unfold Stacks.nullCheck at h
  split at h
  · exact h
  · split at h
    · cases h
    · exact h

/-- As long as no reduction is refused, what is held stays, up to the first operator that is not
due. -/
theorem Stores.of_settle (h : Stores .behind items s)
    (hrunning : (Stacks.settle limit due s.operands s.pending).tooDeep = false) :
    Stores .behind items (Stacks.settle limit due s.operands s.pending)
      ∧ ∀ top ∈ (Stacks.settle limit due s.operands s.pending).pending.head?,
        due top = false := by
  obtain ⟨operands, pending, tooDeep⟩ := s
  obtain rfl : tooDeep = false := h.running
  have hsettled : Reduces limit due ⟨operands, pending, false⟩ _ ∧ _ := h.settle
  rcases hsettled.2 with hdeep | hheld
  · rw [hdeep] at hrunning
    cases hrunning
  · exact hheld

/-- With nothing left to reduce there is one operand. -/
theorem Stores.eq_of_pending_nil (h : Stores .behind items s) (hnone : s.pending = []) :
    ∃ o, s = ⟨[o], [], false⟩ ∧ o.tree.items = items ∧ o.height = o.tree.height := by
  obtain ⟨operands, pending, tooDeep⟩ := s
  obtain ⟨hcounted, hordered, hweighed, hrunning⟩ := h
  obtain rfl : pending = [] := hnone
  obtain rfl : tooDeep = false := hrunning
  obtain ⟨o, rfl⟩ := List.length_eq_one_iff.1 hcounted
  refine ⟨o, rfl, ?_, hweighed o List.mem_cons_self⟩
  rw [← hordered, listed_behind]
  rfl

/-- Reducing all operators leaves one operand, unless a reduction is refused. -/
theorem Stores.reduceAll (h : Stores .behind items s) :
    (s.reduceAll limit).tooDeep = true
      ∨ ∃ o, s.reduceAll limit = ⟨[o], [], false⟩ ∧ o.tree.items = items
        ∧ o.height = o.tree.height := by
  cases hdeep : (s.reduceAll limit).tooDeep with
  | true => exact .inl rfl
  | false =>
    obtain ⟨hheld, hnone⟩ := h.of_settle hdeep
    refine .inr (hheld.eq_of_pending_nil ?_)
    cases hpending : (s.reduceAll limit).pending with
    | nil => exact hpending
    | cons top pending => exact absurd (hnone top (hpending ▸ rfl)) (by simp)

end Reducing

/-! ## Shifting -/

section Shifting

variable {items : List Item} {s : Stacks}

theorem stores_empty : Stores .before [] {} := ⟨rfl, rfl, List.forall_mem_nil _, rfl⟩

theorem Stores.pushPrefix (h : Stores .before items s) (op : PrefixOperator) (binding : Nat)
    (text : String) (span : Span) :
    Stores .before (items ++ [.prefixed op])
      (s.pushPending ⟨.prefixed op, binding, text, span⟩) := by
  refine ⟨h.counted, ?_, h.weighed, h.running⟩
  rw [listed_before, pushPending, row_prefixed, ← h.ordered, listed_before]

/-- An operator between two takes the spare operand. -/
theorem Stores.pushInfix (h : Stores .behind items s) (op : InfixOperator) (binding : Nat)
    (text : String) (span : Span) :
    Stores .before (items ++ [.infixed op]) (s.pushPending ⟨.infixed op, binding, text, span⟩) := by
  obtain ⟨operands, pending, tooDeep⟩ := s
  obtain ⟨hcounted, hordered, hweighed, hrunning⟩ := h
  obtain ⟨left, rest, rfl⟩ := List.exists_cons_of_length_eq_add_one hcounted
  refine ⟨?_, ?_, hweighed, hrunning⟩
  · rw [infixes_pushInfixed _ rfl]
    exact hcounted
  · rw [listed_before, pushPending, row_infixed, ← hordered, listed_behind]

theorem Stores.pushOperand (h : Stores .before items s) {o : Operand}
    (ho : o.height = o.tree.height) :
    Stores .behind (items ++ o.tree.items) (s.pushOperand o) := by
  refine ⟨congrArg (· + 1) h.counted, ?_, List.forall_mem_cons.2 ⟨ho, h.weighed⟩, h.running⟩
  · rw [Stacks.pushOperand, listed_behind, ← h.ordered, listed_before]

end Shifting

end Stacks

namespace Grammar

open Stacks (Place Stores Reduces Weighed)

variable {config : Config}

/-- Whatever a parser answers, so and so holds behind it. -/
theorem Leads.behind {α β : Type} {p : Parser α} {f : α → Parser β} {s : State}
    {R : β → State → Prop} (hf : ∀ a s', Leads (f a) s' R) : Leads (p >>= f) s R :=
  Leads.bind (Q := fun _ _ => True) (fun _ _ _ => trivial) fun a s' _ => hf a s'

/-! ## Heights of operands -/

section Heights

variable {expr : Parser Expression} {o : Operand} {s : State}

theorem weighed_grown {tree : Expression} {inner : Nat}
    (h : tree.height = max o.tree.height inner + 1) (ho : o.height = o.tree.height) :
    Leads (grown config o tree inner) s fun r _ => r.value.height = r.value.tree.height :=
  Leads.checkHeight (Leads.pure ((congrArg (max · inner + 1) ho).trans h.symm))

theorem weighed_sliceTail {lower : Option Expression} (ho : o.height = o.tree.height) :
    Leads (sliceTail config expr o lower) s fun r _ => r.value.height = r.value.tree.height := by
  refine Leads.expect fun _ => ?_
  refine Leads.behind fun upper s => Leads.expect fun _ => Leads.spanHere ?_
  exact weighed_grown (by simp [Expression.height]) ho

/-- A suffix adds its level to the height that is kept, and what is inside it counts. -/
theorem weighed_suffix (ho : o.height = o.tree.height) :
    Leads (suffix config expr o) s fun r _ => r.value.height = r.value.tree.height := by
  refine Leads.current ?_
  split
  · refine Leads.advance (Leads.behind fun key s => Leads.spanHere ?_)
    exact weighed_grown (by simp [Expression.height]) ho
  · refine Leads.expect fun _ => Leads.behind fun lower s => Leads.current ?_
    cases lower with
    | none => exact weighed_sliceTail ho
    | some position =>
      dsimp only
      split
      · exact weighed_sliceTail ho
      · refine Leads.expect fun _ => Leads.spanHere ?_
        exact weighed_grown (by simp [Expression.height]) ho
  · refine Leads.lookAhead ?_
    split
    · refine Leads.behind fun labels s => Leads.spanHere ?_
      exact weighed_grown (by simp [Expression.height]) ho
    · exact Leads.pure ho
  · exact Leads.pure ho

/-- An operand carries the height of its tree, whatever it is an operand of. -/
theorem weighed_operand :
    Leads (operand config expr) s fun o _ => o.height = o.tree.height := by
  refine Leads.behind fun tree s => Leads.checkHeight ?_
  exact Leads.iterate (Q := fun (o : Operand) _ => o.height = o.tree.height) rfl
    fun o s ho => weighed_suffix ho

end Heights

/-! ## Runs -/

/-- A run over operands has come to this place. It has shifted these items, and these are its
stacks and its state. -/
inductive Shifted (config : Config) (operand : Parser Operand) (s₀ : State) :
    Place → List Item → Stacks → State → Prop
  | start : Shifted config operand s₀ .before [] {} s₀
  | prefixed {items : List Item} {st st' : Stacks} {s s' : State} {op : PrefixOperator}
    (before : Shifted config operand s₀ .before items st s)
    (hop : PrefixOperator.ofKind? s.current.kind = some op)
    (step : shiftPrefix st s = .ok (.yield st') s') :
    Shifted config operand s₀ .before (items ++ [.prefixed op]) st' s'
  | found {items : List Item} {st : Stacks} {s s' : State} {o : Operand}
    (before : Shifted config operand s₀ .before items st s)
    (last : shiftPrefix st s = .ok (.done st) s) (step : operand s = .ok o s') :
    Shifted config operand s₀ .behind (items ++ o.tree.items) (st.pushOperand o) s'
  | nullCheck {items : List Item} {st st' : Stacks} {s s' : State}
    (before : Shifted config operand s₀ .behind items st s)
    (step : applyNullCheck config st s = .ok (.yield st') s') :
    Shifted config operand s₀ .behind
      (items ++ [.nullCheck (s.current.kind = .operator .isNotNull)]) st' s'
  | infixed {items : List Item} {st st' : Stacks} {s s' : State} {op : InfixOperator}
    (before : Shifted config operand s₀ .behind items st s)
    (last : applyNullCheck config st s = .ok (.done st) s)
    (hop : InfixOperator.ofKind? s.current.kind = some op)
    (step : shiftInfix config st s = .ok (.yield st') s') :
    Shifted config operand s₀ .before (items ++ [.infixed op]) st' s'

section Steps

variable {items : List Item} {st st' : Stacks} {s s' : State}

theorem running_of_checkStacks {u : Unit} (h : checkStacks config st s = .ok u s') :
    st.tooDeep = false := by
  cases hdeep : st.tooDeep with
  | false => rfl
  | true =>
    rw [checkStacks_tooDeep hdeep] at h
    cases h

/-- A null check that is not refused leaves the stacks with one more item. -/
theorem stores_applyNullCheck (h : Stores .behind items st)
    (hstep : applyNullCheck config st s = .ok (.yield st') s') :
    Stores .behind (items ++ [.nullCheck (s.current.kind = .operator .isNotNull)]) st' := by
  cases hlevel : Level.lookup s.current.kind .after with
  | none =>
    rw [applyNullCheck_none hlevel] at hstep
    cases hstep
  | some level =>
    rw [applyNullCheck_some hlevel] at hstep
    obtain ⟨_, s₁, hcheck, hbehind⟩ := bind_eq_ok hstep
    cases hbehind
    have hrunning := running_of_checkStacks hcheck
    have hreduced := (h.of_settle (Stacks.running_of_nullCheck hrunning)).1
    obtain ⟨_, _, -, -, hheld⟩ := hreduced.nullCheck config.maxDepth _ _
    exact hheld hrunning

theorem stores_shiftPrefix (h : Stores .before items st) {op : PrefixOperator}
    (hop : PrefixOperator.ofKind? s.current.kind = some op)
    (hstep : shiftPrefix st s = .ok (.yield st') s') :
    Stores .before (items ++ [.prefixed op]) st' := by
  cases hlevel : Level.lookup s.current.kind .before with
  | none =>
    rw [shiftPrefix_none hlevel] at hstep
    cases hstep
  | some level =>
    rw [shiftPrefix_some hlevel hop] at hstep
    cases hstep
    exact h.pushPrefix _ _ _ _

theorem stores_shiftInfix (h : Stores .behind items st) {op : InfixOperator}
    (hop : InfixOperator.ofKind? s.current.kind = some op)
    (hstep : shiftInfix config st s = .ok (.yield st') s') :
    Stores .before (items ++ [.infixed op]) st' := by
  cases hlevel : Level.lookup s.current.kind .between with
  | none =>
    rw [shiftInfix_none hlevel] at hstep
    cases hstep
  | some level =>
    rw [shiftInfix_some hlevel hop] at hstep
    obtain ⟨_, s₁, hcheck, hbehind⟩ := bind_eq_ok hstep
    obtain ⟨_, s₂, -, hshift⟩ := bind_eq_ok hbehind
    cases hshift
    exact (h.of_settle (running_of_checkStacks hcheck)).1.pushInfix _ _ _ _

end Steps

/-! ## Whole runs -/

/-- What the rounds of a loop keep is known in its last round, which ends it. -/
theorem Folds.last {α : Type} {step : α → Parser (ForInStep α)} {a b : α} {s s' : State}
    {r : EStateM.Result Fault State α} {P : α → State → Prop} (h : Folds step a s r)
    (hr : r = .ok b s') (hstart : P a s)
    (hround : ∀ a s b s', P a s → step a s = .ok (.yield b) s' → P b s') :
    ∃ a' s₁, P a' s₁ ∧ step a' s₁ = .ok (.done b) s' := by
  induction h with
  | done last =>
    cases hr
    exact ⟨_, _, hstart, last⟩
  | stopped => cases hr
  | more round _ ih => exact ih hr (hround _ _ _ _ hstart round)

section Last

variable {st st' : Stacks} {s s' : State}

theorem shiftPrefix_done (h : shiftPrefix st s = .ok (.done st') s') : st' = st ∧ s' = s := by
  cases hlevel : Level.lookup s.current.kind .before with
  | none =>
    rw [shiftPrefix_none hlevel] at h
    cases h
    exact ⟨rfl, rfl⟩
  | some level =>
    obtain ⟨op, hop⟩ := exists_prefixOperator hlevel
    rw [shiftPrefix_some hlevel hop] at h
    cases h

theorem applyNullCheck_done (h : applyNullCheck config st s = .ok (.done st') s') :
    st' = st ∧ s' = s := by
  cases hlevel : Level.lookup s.current.kind .after with
  | none =>
    rw [applyNullCheck_none hlevel] at h
    cases h
    exact ⟨rfl, rfl⟩
  | some level =>
    rw [applyNullCheck_some hlevel] at h
    obtain ⟨_, s₁, -, hbehind⟩ := bind_eq_ok h
    cases hbehind

theorem shiftInfix_done (h : shiftInfix config st s = .ok (.done st') s') :
    st' = st ∧ s' = s := by
  cases hlevel : Level.lookup s.current.kind .between with
  | none =>
    rw [shiftInfix_none hlevel] at h
    cases h
    exact ⟨rfl, rfl⟩
  | some level =>
    obtain ⟨op, hop⟩ := exists_infixOperator hlevel
    rw [shiftInfix_some hlevel hop] at h
    obtain ⟨_, s₁, -, hbehind⟩ := bind_eq_ok h
    obtain ⟨_, s₂, -, hshift⟩ := bind_eq_ok hbehind
    cases hshift

end Last

/-- As the operators over operands are read, but where the stacks are empty in the end, which
reads `otherwise`. -/
def operatorsOr (otherwise : Parser Expression) (config : Config) (operand : Parser Operand) :
    Parser Expression := do
  let reached ← iterate (round config operand) {}
  let reduced := reached.reduceAll config.maxDepth
  checkStacks config reduced
  match reduced.operands with
  | top :: _ => return top.tree
  | [] => otherwise

/-- What is so in every run over the operands that `operand` reads from `s₀` on. -/
structure Accounted (config : Config) (operand : Parser Operand) (s₀ : State) : Prop where
  /-- The stacks hold what has been shifted, in order. Where an operand is due, there are as many
  operands as operators between two, and behind an operand there is one more; each carries the
  height of its tree. -/
  stores : ∀ {place items st s}, Shifted config operand s₀ place items st s →
    Stores place items st
  /-- Every reduction finds its operands, keeps the order, and is refused for the height of its
  node only. -/
  reduces : ∀ {items st s}, Shifted config operand s₀ .behind items st s → ∀ due,
    Reduces config.maxDepth due st
      (Stacks.settle config.maxDepth due st.operands st.pending)
  /-- So is every null check, unless a reduction in front of it has been refused. -/
  checks : ∀ {items st s level}, Shifted config operand s₀ .behind items st s →
    Level.lookup s.current.kind .after = some level →
    (st.reduceAbove config.maxDepth level.binding level.assoc).tooDeep = true
      ∨ ∀ negated stop, ∃ top rest,
        (st.reduceAbove config.maxDepth level.binding level.assoc).operands = top :: rest
          ∧ (((st.reduceAbove config.maxDepth level.binding level.assoc).nullCheck
              config.maxDepth negated stop).tooDeep = true
            ↔ config.maxDepth
              < (Expression.nullCheck negated top.tree ⟨top.tree.span.start, stop⟩).height)
  /-- Reducing all operators leaves one operand, made of all that has been shifted, unless a
  reduction is refused. -/
  finishes : ∀ {items st s}, Shifted config operand s₀ .behind items st s →
    (st.reduceAll config.maxDepth).tooDeep = true
      ∨ ∃ o, st.reduceAll config.maxDepth = ⟨[o], [], false⟩ ∧ o.tree.items = items
        ∧ o.height = o.tree.height
  /-- The answer is that operand. -/
  answers : ∀ {e s}, operators config operand s₀ = .ok e s →
    ∃ items st, Shifted config operand s₀ .behind items st s ∧ e.items = items
  /-- What is done where no operand is left does not matter. -/
  unreachable : ∀ otherwise, operatorsOr otherwise config operand s₀ = operators config operand s₀

section Runs

variable {operand : Parser Operand} {s₀ s s' : State} {place : Place} {items : List Item}
  {st st' : Stacks}

/-- The stacks of a run hold what it has shifted. -/
theorem Shifted.stores (hweighed : ∀ s, Leads operand s fun o _ => o.height = o.tree.height)
    (h : Shifted config operand s₀ place items st s) : Stores place items st := by
  induction h with
  | start => exact Stacks.stores_empty
  | prefixed _ hop step ih => exact stores_shiftPrefix ih hop step
  | found _ _ step ih => exact ih.pushOperand (hweighed _ _ _ step)
  | nullCheck _ step ih => exact stores_applyNullCheck ih step
  | infixed _ _ hop step ih => exact stores_shiftInfix ih hop step

variable (hoperand : Proceeds operand)

include hoperand

theorem Shifted.reaches (h : Shifted config operand s₀ place items st s) : s₀.Reaches s := by
  induction h with
  | start => exact .refl _
  | prefixed _ _ step ih => exact ih.trans (proceeds_shiftPrefix _ _ _ _ step)
  | found _ _ step ih => exact ih.trans (hoperand _ _ _ step)
  | nullCheck _ step ih => exact ih.trans (proceeds_applyNullCheck _ _ _ _ step)
  | infixed _ _ _ step ih => exact ih.trans (proceeds_shiftInfix _ _ _ _ step)

variable (hs : s₀.Ended)

include hs

/-- A round shifts operators, an operand and null checks, up to an operator between two. -/
theorem Shifted.round (h : Shifted config operand s₀ .before items st s) {r : ForInStep Stacks}
    (hround : Grammar.round config operand st s = .ok r s') :
    ∃ items' st' s₁, Shifted config operand s₀ .behind items' st' s₁
      ∧ applyNullCheck config st' s₁ = .ok (.done st') s₁
      ∧ shiftInfix config st' s₁ = .ok r s' := by
  obtain ⟨shifted, s₁, hprefixes, hround⟩ := bind_eq_ok hround
  obtain ⟨found, s₂, hfound, hround⟩ := bind_eq_ok hround
  obtain ⟨checked, s₃, hchecks, hinfix⟩ := bind_eq_ok hround
  -- The operators in front of the operand.
  have hfolds := folds_iterate proceeds_shiftPrefix consumes_shiftPrefix
    ((h.reaches hoperand).ended hs) st
  obtain ⟨before, s₄, ⟨items₁, hbefore⟩, hlast⟩ := hfolds.last
    (P := fun st s => ∃ items, Shifted config operand s₀ .before items st s)
    hprefixes ⟨items, h⟩ fun st s st' s' ⟨items, h⟩ hstep => by
      cases hlevel : Level.lookup s.current.kind .before with
      | none =>
        rw [shiftPrefix_none hlevel] at hstep
        cases hstep
      | some level =>
        obtain ⟨op, hop⟩ := exists_prefixOperator hlevel
        exact ⟨_, .prefixed h hop hstep⟩
  obtain ⟨rfl, rfl⟩ := shiftPrefix_done hlast
  have hbehind := Shifted.found hbefore hlast hfound
  -- The null checks behind it.
  have hproceeds : ∀ st, Proceeds (applyNullCheck config st) := proceeds_applyNullCheck
  have hfolds := folds_iterate hproceeds
    consumes_applyNullCheck ((hbehind.reaches hoperand).ended hs) (shifted.pushOperand found)
  obtain ⟨behind, s₄, ⟨items₂, hbehind⟩, hlast⟩ := hfolds.last
    (P := fun st s => ∃ items, Shifted config operand s₀ .behind items st s)
    hchecks ⟨_, hbehind⟩ fun st s st' s' ⟨items, h⟩ hstep => ⟨_, .nullCheck h hstep⟩
  obtain ⟨rfl, rfl⟩ := applyNullCheck_done hlast
  exact ⟨items₂, checked, s₃, hbehind, hlast, hinfix⟩

/-- The rounds end behind an operand. -/
theorem Shifted.of_iterate (h : iterate (Grammar.round config operand) {} s₀ = .ok st s) :
    ∃ items, Shifted config operand s₀ .behind items st s := by
  have hproceeds : ∀ st, Proceeds (Grammar.round config operand st) := proceeds_round hoperand
  have hfolds := folds_iterate hproceeds
    (consumes_round hoperand) hs {}
  obtain ⟨before, s₁, ⟨items, hbefore⟩, hlast⟩ := hfolds.last
    (P := fun st s => ∃ items, Shifted config operand s₀ .before items st s)
    h ⟨[], .start⟩ fun st s st' s' ⟨items, h⟩ hstep => by
      obtain ⟨items', behind, s₁, hbehind, hnone, hinfix⟩ := h.round hoperand hs hstep
      cases hlevel : Level.lookup s₁.current.kind .between with
      | none =>
        rw [shiftInfix_none hlevel] at hinfix
        cases hinfix
      | some level =>
        obtain ⟨op, hop⟩ := exists_infixOperator hlevel
        exact ⟨_, .infixed hbehind hnone hop hinfix⟩
  obtain ⟨items', behind, s₂, hbehind, -, hinfix⟩ := hbefore.round hoperand hs hlast
  obtain ⟨rfl, rfl⟩ := shiftInfix_done hinfix
  exact ⟨items', hbehind⟩

/-- As long as operands carry the heights of their trees, everything is accounted for. -/
theorem accounted_of_weighed (hweighed : ∀ s, Leads operand s fun o _ => o.height = o.tree.height) :
    Accounted config operand s₀ where
  stores h := h.stores hweighed
  reduces {items st s} h due := by
    have hheld := h.stores hweighed
    obtain ⟨operands, pending, tooDeep⟩ := st
    obtain rfl : tooDeep = false := hheld.running
    exact hheld.settle.1
  checks {items st s level} h _ := by
    cases hdeep : (st.reduceAbove config.maxDepth level.binding level.assoc).tooDeep with
    | true => exact .inl rfl
    | false =>
      refine .inr fun negated stop => ?_
      obtain ⟨top, rest, htop, hrefused, -⟩ :=
        ((h.stores hweighed).of_settle hdeep).1.nullCheck config.maxDepth negated stop
      exact ⟨top, rest, htop, hrefused⟩
  finishes h := (h.stores hweighed).reduceAll
  answers {e s} h := by
    obtain ⟨reached, s₁, hrounds, hend⟩ := bind_eq_ok h
    obtain ⟨items, hshifted⟩ := Shifted.of_iterate hoperand hs hrounds
    obtain ⟨_, s₂, hcheck, hend⟩ := bind_eq_ok hend
    have hrunning := running_of_checkStacks hcheck
    obtain rfl := state_of_checkStacks hcheck
    rcases (hshifted.stores hweighed).reduceAll with hdeep | ⟨o, hone, hitems, -⟩
    · rw [hdeep] at hrunning
      cases hrunning
    · rw [hone] at hend
      cases hend
      exact ⟨items, reached, hshifted, hitems⟩
  unreachable otherwise := by
    unfold operatorsOr operators
    cases hrounds : iterate (Grammar.round config operand) {} s₀ with
    | error fault s => rw [bind_error hrounds, bind_error hrounds]
    | ok reached s =>
      rw [bind_ok hrounds, bind_ok hrounds]
      obtain ⟨items, hshifted⟩ := Shifted.of_iterate hoperand hs hrounds
      rcases (hshifted.stores hweighed).reduceAll with hdeep | ⟨o, hone, -, -⟩
      · rw [bind_error (checkStacks_tooDeep hdeep), bind_error (checkStacks_tooDeep hdeep)]
      · rw [hone]

end Runs

/-- The stacks never lose an operand, and no operator is ever left without one: in every run
over the operands of an expression, up to the end of any text, all is accounted for. -/
theorem accounted_operators (config : Config) (room : Nat) {s₀ : State} (hs : s₀.Ended) :
    Accounted config (operand config (expressionWithin config room)) s₀ :=
  accounted_of_weighed (proceeds_operand config room) hs fun _ => weighed_operand

/-- `a - b = NOT - c . k [ 0 ] IS NULL OR d`, where loose operators wait below tighter ones. -/
private def looseBelowTight : State :=
  { ahead := (TokenStream.ofText "a - b = NOT -c.k[0] IS NULL OR d").tokens
    eof := (TokenStream.ofText "a - b = NOT -c.k[0] IS NULL OR d").eof }

theorem accounted_operators_looseBelowTight :
    ∃ e s items st, operators {} (operand {} (expressionWithin {} 8)) looseBelowTight = .ok e s
      ∧ Shifted {} (operand {} (expressionWithin {} 8)) looseBelowTight .behind items st s
      ∧ e.items = items
      ∧ items.map Item.isOperand
        = [true, false, true, false, false, false, true, false, false, true] := by
  have hended : looseBelowTight.Ended := rfl
  have hread : (match operators {} (operand {} (expressionWithin {} 8)) looseBelowTight with
      | .ok e _ => decide (e.items.map Item.isOperand
        = [true, false, true, false, false, false, true, false, false, true])
      | .error _ _ => false) = true := by decide +kernel
  cases hrun : operators {} (operand {} (expressionWithin {} 8)) looseBelowTight with
  | error fault s =>
    rw [hrun] at hread
    cases hread
  | ok e s =>
    rw [hrun] at hread
    obtain ⟨items, st, hshifted, rfl⟩ := (accounted_operators {} 8 hended).answers hrun
    exact ⟨e, s, e.items, st, rfl, hshifted, rfl, of_decide_eq_true hread⟩

end Grammar

end Cypher
