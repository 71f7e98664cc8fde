import Cypher.Proofs.Leaves.Query
import Cypher.Proofs.Reading.Lookahead

/-!
# Paths are foreseen

The productions do not go back. Whether a path starts at a parenthesis, or a
comprehension over paths at a bracket, is settled before either is read, from
three tokens and a count of parentheses.

The answer is never no where a path can be read. What is read as a node has the
shape of one, and its properties, whatever stands in them, close each
parenthesis that they open; so the count stops where the node does, and the
arrow that the loop over the links goes on with is the one that was looked for.
-/

namespace Cypher.Grammar

open Token (Kind)

/-- The state is at a token of a text, or at its end: the end is behind the tokens ahead, and
none of them is one. -/
structure State.Bounded (s : State) : Prop where
  ended : s.Ended
  proper : ∀ t ∈ s.ahead, t.kind ≠ .eof

namespace State.Bounded

variable {s : State}

theorem advance (h : s.Bounded) : s.advance.Bounded where
  ended := (Reaches.advance s).ended h.ended
  proper t ht := by
    unfold State.advance at ht
    split at ht
    · exact h.proper t ht
    · next hahead => exact h.proper t (hahead ▸ List.mem_cons_of_mem _ ht)

/-- A scan may start anywhere. -/
theorem scanned (h : s.Bounded) :
    At
      { tokens := s.ahead
        leaves := Scan.leaves {} s.ahead
        closing := fun n => afterGroup (n + 1) s.ahead
        room := s.ahead.length + 1 }
      [] [] [.value] s where
  scan := ⟨.value, List.mem_singleton_self _, rfl, [], rfl, rfl⟩
  closing _ := rfl
  proper := h.proper
  ended := h.ended
  room := Nat.lt_succ_self _

end State.Bounded

theorem State.ahead_advance_eq_tail (s : State) : s.advance.ahead = s.ahead.tail := by
  unfold State.advance
  cases hahead : s.ahead with
  | nil => rw [hahead]; rfl
  | cons t rest => rfl

variable {config : Config} {expr : Parser Expression} {s s' : State} {p : Pattern}

/-! ## Links -/

/-- Links are read where a relationship starts and nowhere else. -/
theorem leads_linksAhead : Leads (many (link expr)) s fun chain s' =>
    (chain ≠ [] ↔ relationshipAhead s.ahead = true) ∧ (chain = [] → s' = s) := by
  intro chain s' hrun
  have hrun : manyUpTo (link expr) (s.ahead.length + 1) s = .ok chain s' := hrun
  unfold manyUpTo at hrun
  obtain ⟨r, s₁, hlink, hrun⟩ := bind_eq_ok hrun
  by_cases hahead : relationshipAhead s.ahead = true
  · have hfound : Leads (link expr) s fun r _ => r ≠ none := by
      refine Leads.lookAhead ?_
      rw [if_pos hahead]
      refine Leads.bind (Q := fun _ _ => True) (fun _ _ _ => trivial) fun _ _ _ => ?_
      exact Leads.bind (Q := fun _ _ => True) (fun _ _ _ => trivial) fun _ _ _ =>
        Leads.pure (Option.some_ne_none _)
    cases r with
    | none => exact absurd rfl (hfound _ _ hlink)
    | some l =>
      obtain ⟨links, s₂, -, hlast⟩ := bind_eq_ok hrun
      cases hlast
      exact ⟨iff_of_true (List.cons_ne_nil _ _) hahead,
        fun hnil => absurd hnil (List.cons_ne_nil _ _)⟩
  · have hnone : link expr s = .ok none s := by
      unfold link
      rw [bind_ok (p := lookAhead) (s := s) rfl, if_neg hahead]
      rfl
    rw [hnone] at hlink
    cases hlink
    cases hrun
    exact ⟨iff_of_false (not_not_intro rfl) hahead, fun _ => rfl⟩

/-! ## Paths -/

/-- Before a path is read, it can be told where its first node ends and what
stands there. -/
theorem leads_foreseen (hexpr : CoversValues expr) (h : s.Bounded) {name : Option String}
    {begin : Nat} : Leads (patternChain expr name begin) s fun p s' =>
      nodeAhead s.ahead = true ∧ ∃ rest, afterGroup 0 s.ahead = some rest
        ∧ (p.chain ≠ [] ↔ relationshipAhead rest = true)
        ∧ (p.chain = [] → s'.Ended ∧ rest = s'.ahead) := by
  have hshape : Leads (nodePattern expr) s fun _ _ => nodeAhead s.ahead = true :=
    fun _ _ hrun => nodeAhead_of_ok h.ended hrun
  refine (hshape.and (leads_closedNode hexpr (by simp) h.scanned)).bind fun first s₁ hfirst => ?_
  obtain ⟨hnode, hclosed, hbehind⟩ := hfirst
  refine leads_linksAhead.bind fun chain s₂ hchain => Leads.spanFrom fun span => Leads.pure ?_
  refine ⟨hnode, s₁.ahead, hclosed, hchain.1, fun hnil => ?_⟩
  rw [hchain.2 hnil]
  exact ⟨hbehind.ended, rfl⟩

/-- A comprehension is told by the first node of its path, behind the name that the path
may have. -/
theorem leads_pathNameAhead (h : s.Bounded) : Leads pathName s fun _ s' =>
    s'.Bounded ∧ s'.faults = s.faults
      ∧ patternComprehensionAhead s.ahead = comprehensionAfterNode s'.ahead := by
  refine Leads.lookAhead ?_
  split
  · next hname heq =>
    refine Leads.advance (Leads.advance (Leads.pure ⟨h.advance.advance, ?_, ?_⟩))
    · rw [State.faults_advance, State.faults_advance]
    · rw [patternComprehensionAhead_of_name hname heq, State.ahead_advance_eq_tail,
        State.ahead_advance_eq_tail, ← List.drop_one, ← List.drop_one, List.drop_drop]
  · next hother =>
    exact Leads.pure ⟨h, rfl, patternComprehensionAhead_of_no_name hother⟩

theorem kindAt_of_nodeAhead {ahead : List Token} (h : nodeAhead ahead = true) :
    kindAt ahead 0 = some (.punctuation .lparen) :=
  of_decide_eq_true (Bool.and_eq_true_iff.1 h).1

theorem kindAt_current (hs : s.Ended) (hdue : s.current.kind ≠ .eof) :
    kindAt s.ahead 0 = some s.current.kind := by
  rw [State.ahead_eq hs hdue]
  rfl

/-- No variable of a list comprehension is the start of a path. -/
theorem listComprehensionAhead_of_pattern {ahead : List Token}
    (h : patternComprehensionAhead (ahead.drop 1) = true) :
    listComprehensionAhead ahead = false := by
  have hbehind (n : Nat) : kindAt (ahead.drop 1) n = kindAt ahead (n + 1) := by
    unfold kindAt
    rw [List.getElem?_drop, Nat.add_comm]
  rw [patternComprehensionAhead_eq, hbehind, hbehind] at h
  unfold listComprehensionAhead
  split
  · next hname hin =>
    -- What follows the variable is no equals sign, so the variable would have to be the node.
    have hnode : nodeAhead (ahead.drop 1) = true := by
      simp only [hname, hin] at h
      exact (Bool.and_eq_true_iff.1 h).1
    have hopen := kindAt_of_nodeAhead hnode
    rw [hbehind, hname] at hopen
    cases hopen
  · rfl

/-! ## Reading without recovery -/

/-- What a run reads, and the state behind it, if no fault is put on record on the way. -/
def unbroken (p : Parser α) (s : State) : Option (α × State) :=
  match p s with
  | .ok a s' => if s'.faults = s.faults then some (a, s') else none
  | .error .. => none

theorem unbroken_eq_some {p : Parser α} {a : α} (h : unbroken p s = some (a, s')) :
    p s = .ok a s' ∧ s'.faults = s.faults := by
  unfold unbroken at h
  split at h
  · next hrun =>
    split at h
    · next hclean =>
      cases h
      exact ⟨hrun, hclean⟩
    · cases h
  · cases h

/-- Where nothing is got over, recovery is not to be seen. -/
theorem patternChain_unrecovered {room : Nat} {name : Option String} {begin : Nat}
    (hrun : patternChain (expressionWithin config room) name begin s = .ok p s')
    (hclean : s'.faults = s.faults) :
    patternChain (expressionWithin ⟨config.maxDepth, false⟩ room) name begin s = .ok p s' := by
  obtain ⟨limit, recover⟩ := config
  cases recover with
  | false => exact hrun
  | true =>
    have law := truncation_lawful s.faults limit
    have hexpr := Comparison.Agrees.expressionWithin law (fun h => absurd h (Nat.lt_irrefl _))
      (Nat.le_refl room) fun _ => rfl
    obtain ⟨p', hplain, heq⟩ :=
      run_unrecovered (Comparison.Agrees.patternChain law hexpr rfl) hrun hclean
    simp only [truncation, Pattern.recast_same] at heq
    exact heq ▸ hplain

section Unbroken

variable {room : Nat} {name : Option String} {begin : Nat} (h : s.Bounded)
  (hrun : patternChain (expressionWithin config room) name begin s = .ok p s')
  (hclean : s'.faults = s.faults)

include h hrun hclean

/-- Whatever the configuration, a path that is read is foreseen. -/
theorem foreseen_of_ok :
    nodeAhead s.ahead = true ∧ ∃ rest, afterGroup 0 s.ahead = some rest
      ∧ (p.chain ≠ [] → relationshipAhead rest = true)
      ∧ (p.chain = [] → s'.Ended ∧ rest = s'.ahead) := by
  obtain ⟨hnode, rest, hclosed, hmore, hlast⟩ :=
    leads_foreseen (coversValues_expressionWithin rfl room) h p s'
      (patternChain_unrecovered hrun hclean)
  exact ⟨hnode, rest, hclosed, hmore.1, hlast⟩

/-- And a path of more than one node that is foreseen is read. -/
theorem chain_ne_nil_of_ok (hahead : patternPredicateAhead s.ahead = true) : p.chain ≠ [] := by
  obtain ⟨-, rest, hclosed, hmore, -⟩ :=
    leads_foreseen (coversValues_expressionWithin rfl room) h p s'
      (patternChain_unrecovered hrun hclean)
  unfold patternPredicateAhead at hahead
  rw [hclosed] at hahead
  exact hmore.2 (Bool.and_eq_true_iff.1 hahead).2

end Unbroken

/-! ## Operands -/

theorem atom_of_lparen (hdue : s.current.kind = .punctuation .lparen) :
    atom config expr s = group expr s.current.span.start s := by
  unfold atom
  rw [bind_ok (p := current) (s := s) rfl, hdue]

theorem atom_of_lbracket (hdue : s.current.kind = .punctuation .lbracket) :
    atom config expr s = bracket expr s.current.span.start s := by
  unfold atom
  rw [bind_ok (p := current) (s := s) rfl, hdue]

/-- Wherever a path of more than one node can be read, it is foreseen, and an operand that
starts there is that path. Wherever a path with or without a name can be read behind a
bracket, and has more than one node or is followed by `WHERE` or a bar, a comprehension over
paths is foreseen, and an operand that starts at the bracket is one. -/
theorem path_foreseen (config : Config) (room : Nat) (hs : s.Bounded) :
    (∀ name begin p s',
      unbroken (patternChain (expressionWithin config room) name begin) s = some (p, s') →
      p.chain ≠ [] →
      patternPredicateAhead s.ahead = true
        ∧ atom config (expressionWithin config room) s
          = (patternChain (expressionWithin config room) none s.current.span.start
              >>= fun p => pure (.patternPredicate p)) s)
    ∧ (s.current.kind = .punctuation .lbracket → ∀ p s',
      unbroken (pattern (expressionWithin config room)) s.advance = some (p, s') →
      p.chain ≠ [] ∨ s'.current.kind = .keyword .WHERE ∨ s'.current.kind = .operator .pipe →
      patternComprehensionAhead (s.ahead.drop 1) = true
        ∧ atom config (expressionWithin config room) s
          = patternComprehension (expressionWithin config room) s.current.span.start s) := by
  constructor
  · intro name begin p s' hread hchain
    obtain ⟨hrun, hclean⟩ := unbroken_eq_some hread
    obtain ⟨hnode, rest, hclosed, hmore, -⟩ := foreseen_of_ok hs hrun hclean
    have hahead : patternPredicateAhead s.ahead = true := by
      unfold patternPredicateAhead
      rw [hnode, hclosed]
      exact hmore hchain
    refine ⟨hahead, ?_⟩
    rw [atom_of_lparen (kind_of_kindAt (kindAt_of_nodeAhead hnode))]
    unfold group
    rw [bind_ok (p := lookAhead) (s := s) rfl, if_pos hahead]
  · intro hdue p s' hread hbehind
    obtain ⟨hrun, hclean⟩ := unbroken_eq_some hread
    obtain ⟨begin, _, hstart, hrun⟩ := bind_eq_ok hrun
    cases hstart
    obtain ⟨name, s₁, hname, hrun⟩ := bind_eq_ok hrun
    obtain ⟨hs₁, hfaults, htold⟩ := leads_pathNameAhead hs.advance _ _ hname
    obtain ⟨hnode, rest, hclosed, hmore, hlast⟩ :=
      foreseen_of_ok hs₁ hrun (hclean.trans hfaults.symm)
    have hahead : patternComprehensionAhead (s.ahead.drop 1) = true := by
      rw [List.drop_one, ← State.ahead_advance_eq_tail, htold]
      unfold comprehensionAfterNode
      rw [hnode, hclosed]
      by_cases hchain : p.chain = []
      · obtain ⟨hended, rfl⟩ := hlast hchain
        rcases hbehind with hne | hwhere | hbar
        · exact absurd hchain hne
        · simp [kindAt_current hended (by rw [hwhere]; exact nofun), hwhere]
        · simp [kindAt_current hended (by rw [hbar]; exact nofun), hbar]
      · simp [hmore hchain]
    refine ⟨hahead, ?_⟩
    rw [atom_of_lbracket hdue]
    unfold bracket
    rw [bind_ok (p := lookAhead) (s := s) rfl, if_neg, if_pos hahead]
    rw [listComprehensionAhead_of_pattern hahead]
    exact nofun

/-- Before the first token of a text. -/
private def beginning (text : String) : State :=
  { ahead := (TokenStream.ofText text).tokens, eof := (TokenStream.ofText text).eof }

/-- A path with calls, groups and further paths in the properties of its first node. -/
private def crowdedPath : State :=
  beginning "(a \x7bb: f((1) + 2), c: (d)-->(e), g: [(h)<--() | (i)]\x7d)-[:IN*..2]->()"

/-- A comprehension over a single node, which has a name. -/
private def loneNode : State := beginning "[p = (a \x7bb: (1)\x7d) WHERE (c)--() | p]"

theorem path_foreseen_crowded :
    crowdedPath.Bounded ∧ patternPredicateAhead crowdedPath.ahead = true
    ∧ loneNode.Bounded ∧ patternComprehensionAhead (loneNode.ahead.drop 1) = true := by
  have hcrowded : crowdedPath.Bounded := ⟨rfl, fun _ ht => TokenStream.ne_eof_of_mem ht⟩
  have hlone : loneNode.Bounded := ⟨rfl, fun _ ht => TokenStream.ne_eof_of_mem ht⟩
  have hpath : (unbroken (patternChain (expressionWithin {} 9) none 0) crowdedPath).any
      (fun r => !r.1.chain.isEmpty) = true := by decide +kernel
  have hnode : (unbroken (pattern (expressionWithin {} 9)) loneNode.advance).any
      (fun r => r.2.current.kind = .keyword .WHERE) = true := by decide +kernel
  obtain ⟨⟨p, s'⟩, hpath, hchain⟩ := (Option.any_eq_true _ _).1 hpath
  obtain ⟨⟨n, t⟩, hnode, hwhere⟩ := (Option.any_eq_true _ _).1 hnode
  refine ⟨hcrowded, ((path_foreseen {} 9 hcrowded).1 none 0 p s' hpath ?_).1, hlone,
    ((path_foreseen {} 9 hlone).2 (by decide +kernel) n t hnode
      (.inr (.inl (of_decide_eq_true hwhere)))).1⟩
  rintro hnil
  rw [hnil] at hchain
  cases hchain

end Cypher.Grammar
