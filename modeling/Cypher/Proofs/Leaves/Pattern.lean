import Cypher.Grammar.Pattern
import Cypher.Proofs.Leaves.Tokens

/-!
# The leaves of patterns

A path is where the grammar and the scan have to agree on what is ahead: the
scan takes for an arrow what stands behind a node and starts a relationship,
and so does the grammar.
-/

namespace Cypher.Grammar

open Token (Kind)

/-- Wherever an expression may stand, the parser reads its leaves. -/
def CoversValues (expr : Parser Expression) : Prop :=
  ∀ {brackets : List Bracket}, brackets.head? ≠ some .detail →
    Covers expr Expression.leaves brackets [.value] [.value, .call]

variable {expr : Parser Expression} {o : Outlook} {read : List Leaf} {brackets : List Bracket}
  {modes : List Mode} {s : State}

/-! ## Property maps -/

theorem covers_mapEntry (hexpr : CoversValues expr) :
    Covers (mapEntry expr) MapEntry.leaves (.map :: brackets) [.entry] [.value, .call] := by
  intro o read s h
  refine Leads.start fun begin => ?_
  refine (covers_key .mapKey h).bind fun key s h => ?_
  refine (h.expect .assigned).bind fun _ s h => ?_
  refine (hexpr (by simp) h).bind fun value s h => ?_
  refine Leads.spanFrom fun span => Leads.pure ?_
  exact h.of_eq (by simp [MapEntry.leaves])

theorem covers_mapEntries (hexpr : CoversValues expr) :
    Covers (mapEntries expr) (leavesOfEntries ·.1) brackets modes [.value] := by
  intro o read s h
  refine Leads.start fun begin => ?_
  refine (h.expect .lbrace).bind fun _ s h => ?_
  refine ((covers_mapEntry hexpr).commaSeparatedUntil .entry h).bind fun entries s h => ?_
  refine (h.expect .rbrace).bind fun _ s h => ?_
  refine Leads.spanFrom fun span => Leads.pure ?_
  exact h.of_eq (by simp [leavesOfEntries_eq])

theorem covers_properties (hexpr : CoversValues expr) :
    Covers (properties expr) leavesOfProperties brackets modes (.value :: modes) := by
  intro o read s h
  refine Leads.current ?_
  split
  · refine (covers_mapEntries hexpr h).bind fun found s h => Leads.pure ?_
    exact h.mono (by simp)
  · next name hkind =>
    exact Leads.advance (Leads.pure ((h.advance (.parameter hkind)).mono (by simp)))
  · exact Leads.pure ((h.of_eq (List.append_nil read).symm).mono (List.subset_cons_self _ _))

/-! ## Nodes -/

theorem covers_optionalLabels :
    Covers optionalLabels leavesOfNames brackets [.value, .call] [.value, .call] := by
  intro o read s h
  refine Leads.current ?_
  split
  · exact covers_labelList h
  · exact Leads.pure (h.of_eq (List.append_nil read).symm)

/-- Behind the name of a node stands what may follow it. -/
theorem goesOnAsNode_of_ok {β : Type} {f : List String → Option Properties → Parser β} {b : β}
    {s' : State} (hrun : (optionalLabels >>= fun labels => properties expr >>= fun found =>
      expect (.punctuation .rparen) >>= fun _ => f labels found) s = .ok b s') :
    goesOnAsNode (some s.current.kind) = true := by
  cases hgoes : goesOnAsNode (some s.current.kind) with
  | true => rfl
  | false =>
    -- Neither labels nor properties stand here, so the parenthesis has to.
    have hcurrent : Grammar.current s = .ok s.current s := rfl
    have hlabels : optionalLabels s = .ok [] s := by
      unfold optionalLabels
      rw [bind_ok hcurrent, if_neg]
      · rfl
      · intro hkind
        rw [hkind] at hgoes
        cases hgoes
    have hproperties : properties expr s = .ok none s := by
      unfold properties
      rw [bind_ok hcurrent]
      generalize s.current.kind = kind at hgoes
      split
      · cases hgoes
      · cases hgoes
      · rfl
    rw [bind_ok hlabels, bind_ok hproperties] at hrun
    obtain ⟨_, _, hexpect, -⟩ := bind_eq_ok hrun
    rw [(expect_eq_ok hexpect).1] at hgoes
    cases hgoes

theorem kind_of_kindAt {kind : Kind} (h : kindAt s.ahead 0 = some kind) :
    s.current.kind = kind := by
  unfold kindAt State.current at *
  cases hahead : s.ahead with
  | nil => rw [hahead] at h; cases h
  | cons t rest => rw [hahead] at h; exact Option.some.inj h

theorem goesOnAsNode_kindAt (hs : s.Ended) (h : goesOnAsNode (some s.current.kind) = true) :
    goesOnAsNode (kindAt s.ahead 0) = true := by
  have hkind : s.current.kind ≠ .eof := by
    intro heof
    rw [heof] at h
    cases h
  rw [State.ahead_eq hs hkind]
  exact h

/-- Behind a parenthesis, what follows it tells whether a node starts there. -/
theorem nodeAhead_of_lparen (hs : s.Ended) (hdue : s.current.kind = .punctuation .lparen) :
    nodeAhead s.ahead = match kindAt s.advance.ahead 0 with
      | some (.identifier _) => goesOnAsNode (kindAt s.advance.ahead 1)
      | kind => goesOnAsNode kind := by
  have hahead := State.ahead_eq hs (by simp [hdue])
  have hfirst : kindAt s.ahead 0 = some (.punctuation .lparen) := by
    rw [hahead, ← hdue]
    rfl
  rw [nodeAhead, hfirst, hahead]
  rfl

/-- What is read as a node has the shape of one. -/
theorem nodeAhead_of_ok {n : NodePattern} {s' : State} (hs : s.Ended)
    (hrun : nodePattern expr s = .ok n s') : nodeAhead s.ahead = true := by
  obtain ⟨begin, _, hstart, hrun⟩ := bind_eq_ok hrun
  cases hstart
  obtain ⟨_, s₁, hopen, hrun⟩ := bind_eq_ok hrun
  obtain ⟨hdue, rfl⟩ := expect_eq_ok hopen
  have hs₁ : s.advance.Ended := (State.Reaches.advance s).ended hs
  have hnode := nodeAhead_of_lparen hs hdue
  obtain ⟨name, s₂, hname, hrun⟩ := bind_eq_ok hrun
  have hgoes := goesOnAsNode_of_ok hrun
  unfold optionalVariable at hname
  split at hname
  · next found hkind =>
    cases hname
    have hahead := State.ahead_eq hs₁ (by simp [hkind])
    have hfirst : kindAt s.advance.ahead 0 = some (.identifier found) := by
      rw [hahead, ← hkind]
      rfl
    rw [hnode, hfirst, hahead]
    exact goesOnAsNode_kindAt ((State.Reaches.advance _).ended hs₁) hgoes
  · next hother =>
    cases hname
    rw [hnode]
    split
    · next found hfirst => exact absurd (kind_of_kindAt hfirst) (hother found)
    · exact goesOnAsNode_kindAt hs₁ hgoes

/-- Behind a node the scan is at an arrow if a relationship starts there, and the
parenthesis that has been read last is the one that closes the first. -/
theorem leads_closedNode (hexpr : CoversValues expr) (hmodes : .call ∉ modes)
    (h : At o read brackets modes s) :
    Leads (nodePattern expr) s fun n s' => afterGroup 0 s.ahead = some s'.ahead
      ∧ At o (read ++ n.leaves) brackets [Bracket.node.behind s'.ahead] s' := by
  refine Leads.assume (nodeAhead_of_ok h.ended) fun hnode => ?_
  have hbracket : ∀ m ∈ modes,
      (if m = .call then .arguments else if nodeAhead s.ahead then .node else .group)
        = Bracket.node := by
    intro m hm
    have hcall : m ≠ .call := fun heq => hmodes (heq ▸ hm)
    rw [if_neg hcall, if_pos hnode]
  generalize hclosing : afterGroup 0 s.ahead = closing
  refine Leads.start fun begin => ?_
  refine Leads.expect fun hdue => ?_
  have hinside := h.enter hdue _ hbracket
  rw [hclosing] at hinside
  refine (covers_optionalVariable (by simp) hinside).bind fun name s h => ?_
  refine (covers_optionalLabels (h.mono (by simp))).bind fun labels s h => ?_
  refine (covers_properties hexpr h).bind fun found s h => ?_
  refine Leads.expect fun hdue => Leads.spanFrom fun span => Leads.pure ?_
  obtain ⟨hfound, hbehind⟩ := h.leave hdue
  exact ⟨hfound, hbehind.of_eq (by simp [NodePattern.leaves])⟩

theorem leads_nodePattern (hexpr : CoversValues expr) (hmodes : .call ∉ modes)
    (h : At o read brackets modes s) :
    Leads (nodePattern expr) s fun n s' =>
      At o (read ++ n.leaves) brackets [Bracket.node.behind s'.ahead] s' :=
  (leads_closedNode hexpr hmodes h).mono fun _ _ hnode => hnode.2

/-! ## Relationships -/

theorem At.or {m : Mode} (h : At o read brackets (m :: modes) s) :
    At o read brackets [m] s ∨ At o read brackets modes s := by
  obtain ⟨m', hm', hscan⟩ := h.scan
  rcases List.mem_cons.1 hm' with rfl | hm'
  · exact .inl { h with scan := ⟨_, List.mem_singleton_self _, hscan⟩ }
  · exact .inr { h with scan := ⟨_, hm', hscan⟩ }

/-- The bounds on the hops are passed over. -/
theorem covers_hopBound :
    Covers hopBound (fun _ => []) (.detail :: brackets) [.value] [.value] := by
  intro o read s h
  refine Leads.current ?_
  split
  · next digits hkind =>
    split
    · exact Leads.advance (Leads.pure (h.advance (.bound hkind)))
    · exact Leads.fail
  · exact Leads.pure (h.of_eq (List.append_nil read).symm)

theorem covers_hopRange :
    Covers hopRange (fun _ => []) (.detail :: brackets) [.value] [.value] := by
  intro o read s h
  refine (covers_hopBound h).bind fun min s h => ?_
  refine Leads.consume (fun hdue => ?_) fun _ => Leads.pure h
  have hbehind := h.advance (.operator (.inl (by simp)) (by simp) hdue)
  refine (covers_hopBound hbehind).bind fun max s h => Leads.pure ?_
  exact h.of_eq (by simp)

theorem covers_anotherType :
    Covers anotherType (fun name => [.name name]) (.detail :: brackets) [.name] [.call] := by
  intro o read s h
  refine Leads.consume (fun hdue => ?_) fun _ => covers_symbolicName _ h
  exact covers_symbolicName _ (h.advance_nil (.colon (by simp) hdue))

theorem covers_relationshipTypes :
    Covers relationshipTypes leavesOfNames (.detail :: brackets) [.value, .call]
      [.value, .call] := by
  have hother : Covers (behind (.operator .pipe) anotherType) _ (.detail :: brackets)
      [.call] [.call, .call] := .behind .bar covers_anotherType
  have hothers := Covers.many (hother.mono (List.Subset.refl _) (by simp))
  intro o read s h
  refine Leads.consume (fun hdue => ?_) fun _ =>
    Leads.pure (h.of_eq (List.append_nil read).symm)
  refine (covers_symbolicName _ (h.advance_nil (.colon (by simp) hdue))).bind fun first s h => ?_
  refine (hothers h).bind fun others s h => Leads.pure ?_
  exact (h.mono (by simp)).of_eq (by simp [leavesOfNames, List.map_eq_flatMap])

/-- The leaves of what stands between the brackets of a relationship. -/
def Detail.leaves (d : Detail) : List Leaf :=
  leavesOfName d.name ++ (leavesOfNames d.types ++ leavesOfProperties d.properties)

theorem covers_detail (hexpr : CoversValues expr) :
    Covers (detail expr) Detail.leaves (.detail :: brackets) [.value] [.value, .call] := by
  intro o read s h
  refine (covers_optionalVariable (by simp) h).bind fun name s h => ?_
  refine (covers_relationshipTypes (h.mono (by simp))).bind fun types s h => ?_
  have hhops : Covers (behind (.operator .star) hopRange) _ (.detail :: brackets)
      [.value, .call] [.value, .call, .value] :=
    .behind (.operator (.inl (by simp)) (by simp)) covers_hopRange
  refine (hhops h).bind fun hops s h => ?_
  refine (covers_properties hexpr h).bind fun found s h => Leads.pure ?_
  exact (h.mono (by simp)).of_eq (by simp [Detail.leaves])

theorem covers_bracketedDetail (hexpr : CoversValues expr) :
    Covers (bracketedDetail expr) Detail.leaves brackets [.edge] [.value, .edge] := by
  intro o read s h
  refine Leads.consume (fun hdue => ?_) fun _ => ?_
  · refine (covers_detail hexpr (h.advance_nil (.detail hdue))).bind fun found s h => ?_
    refine (h.expect .rbracket).bind fun _ s h => Leads.pure ?_
    exact h.mono (by simp)
  · exact Leads.pure ((h.of_eq (List.append_nil read).symm).mono (by simp))

/-- Past a part of an arrow, be it behind the bracket or not. -/
theorem At.passArrow {op : Operator} (hop : op = .minus ∨ op = .lt ∨ op = .arrow)
    (hdue : s.current.kind = .operator op) (h : At o read brackets [.value, .edge] s) :
    At o read brackets [.value, .edge] s.advance := by
  have hbar : op ≠ .pipe := by rcases hop with rfl | rfl | rfl <;> exact nofun
  rcases h.or with h | h
  · exact (h.advance_nil (.operator (.inl hbar) (by simp) hdue)).mono (by simp)
  · exact (h.advance_nil (.arrow hop hdue)).mono (by simp)

theorem covers_farEnd {incoming : Bool} :
    Covers (farEnd incoming) (fun _ => []) brackets [.value, .edge] [.value, .edge] := by
  intro o read s h
  refine Leads.current ?_
  split
  · next hdue =>
    split
    · exact Leads.fail
    · exact Leads.advance (Leads.pure ((h.passArrow (.inr (.inr rfl)) hdue).of_eq (by simp)))
  · refine Leads.expect fun hdue => Leads.pure ?_
    exact (h.passArrow (.inl rfl) hdue).of_eq (by simp)

/-- A relationship takes up room. -/
theorem leads_relationshipPattern (hexpr : CoversValues expr)
    (h : At o read brackets [.edge] s) :
    Leads (relationshipPattern expr) s fun r =>
      At o.shorter (read ++ r.leaves) brackets [.value, .edge] := by
  have hrest {incoming : Bool} {begin : Nat} {s : State} (h : At o read brackets [.edge] s) :
      Leads (expect (.operator .minus) >>= fun _ => bracketedDetail expr >>= fun found =>
        farEnd incoming >>= fun direction => spanFrom begin >>= fun span =>
          pure (⟨direction, found.name, found.types, found.hops, found.properties, span⟩ :
            RelationshipPattern)) s
        fun r => At o.shorter (read ++ r.leaves) brackets [.value, .edge] := by
    refine Leads.expect fun hdue => ?_
    have hbehind := (h.pass (.arrow (.inl rfl) hdue)).of_eq (List.append_nil read)
    refine (covers_bracketedDetail hexpr hbehind).bind fun found s h => ?_
    refine (covers_farEnd h).bind fun direction s h => ?_
    refine Leads.spanFrom fun span => Leads.pure ?_
    exact h.of_eq (by simp [RelationshipPattern.leaves, Detail.leaves])
  refine Leads.start fun begin => ?_
  refine Leads.consume (fun hdue => ?_) fun _ => hrest h
  exact hrest (h.advance_nil (.arrow (.inr (.inl rfl)) hdue))

/-! ## Paths -/

/-- A link takes up room, and there is none where no relationship starts. -/
theorem leads_link (hexpr : CoversValues expr)
    (h : At o read brackets [Bracket.node.behind s.ahead] s) :
    Leads (link expr) s fun r s' => match r with
      | none => At o read brackets [.value] s'
      | some l => At o.shorter (read ++ l.leaves) brackets [Bracket.node.behind s'.ahead] s' := by
  refine Leads.lookAhead ?_
  split
  · next hahead =>
    have hedge : Bracket.node.behind s.ahead = .edge := if_pos ⟨rfl, hahead⟩
    rw [hedge] at h
    refine (leads_relationshipPattern hexpr h).bind fun relationship s h => ?_
    refine (leads_nodePattern hexpr (by simp) h).bind fun node s h => Leads.pure ?_
    exact h.of_eq (by simp [Link.leaves])
  · next hahead =>
    have hvalue : Bracket.node.behind s.ahead = .value := if_neg fun h => hahead h.2
    exact Leads.pure (hvalue ▸ h)

/-- Behind a link the next one may follow. -/
theorem leads_linkAgain (hexpr : CoversValues expr)
    (h : At o read brackets [Bracket.node.behind s.ahead] s) :
    Leads (link expr) s fun _ s' =>
      ∃ read, At o read brackets [Bracket.node.behind s'.ahead] s' := by
  intro r s' hrun
  have hlink := leads_link hexpr h r s' hrun
  cases r with
  | some l => exact ⟨_, hlink.longer⟩
  | none =>
    have hnone : Leads (link expr) s fun r s' => r = none → s' = s := by
      refine Leads.lookAhead ?_
      split
      · refine Leads.bind (Q := fun _ _ => True) (fun _ _ _ => trivial) fun _ _ _ => ?_
        refine Leads.bind (Q := fun _ _ => True) (fun _ _ _ => trivial) fun _ _ _ => ?_
        exact Leads.pure nofun
      · exact Leads.pure fun _ => rfl
    rw [hnone none s' hrun rfl]
    exact ⟨read, h⟩

/-- Behind all links of a path no relationship starts. The loop over them is not
cut short, because each one takes up room. -/
theorem leads_links (hexpr : CoversValues expr)
    (h : At o read brackets [Bracket.node.behind s.ahead] s) :
    Leads (many (link expr)) s fun links =>
      At o (read ++ leavesOfLinks links) brackets [.value] := by
  have hrounds (n : Nat) {o : Outlook} (hn : o.room ≤ n) {read : List Leaf} {s : State}
      (h : At o read brackets [Bracket.node.behind s.ahead] s) :
      Leads (manyUpTo (link expr) n) s fun links =>
        At o (read ++ leavesOfLinks links) brackets [.value] := by
    induction n generalizing o read s with
    | zero => exact absurd (Nat.lt_of_lt_of_le h.room hn) (Nat.not_lt_zero _)
    | succ n ih =>
      unfold manyUpTo
      refine (leads_link hexpr h).bind fun r s h => ?_
      cases r with
      | none => exact Leads.pure (h.of_eq (List.append_nil read).symm)
      | some l =>
        refine (ih (Nat.sub_le_of_le_add hn) h).bind fun links s h => Leads.pure ?_
        exact h.longer.of_eq (by simp [leavesOfLinks])
  have htight : At { o with room := s.ahead.length + 1 } read brackets
      [Bracket.node.behind s.ahead] s := { h with room := Nat.lt_succ_self _ }
  refine Leads.mono (hrounds _ (Nat.le_refl _) htight) fun links s' h' => ?_
  exact { h' with room := Nat.lt_of_lt_of_le h'.room h.room }

/-- A path behind its name. -/
theorem leads_patternChain (hexpr : CoversValues expr) {name : Option String} {begin : Nat}
    (h : At o (read ++ leavesOfName name) brackets [.value] s) :
    Leads (patternChain expr name begin) s fun p => At o (read ++ p.leaves) brackets [.value] := by
  refine (leads_nodePattern hexpr (by simp) h).bind fun first s h => ?_
  refine (leads_links hexpr h).bind fun chain s h => ?_
  refine Leads.spanFrom fun span => Leads.pure ?_
  exact h.of_eq (by simp [Pattern.leaves])

theorem kindAt_succ (s : State) (n : Nat) : kindAt s.ahead (n + 1) = kindAt s.advance.ahead n := by
  unfold State.advance
  cases hahead : s.ahead with
  | nil => rw [hahead]; rfl
  | cons t rest => rfl

theorem covers_pathName : Covers pathName leavesOfName brackets [.value] [.value] := by
  intro o read s h
  refine Leads.lookAhead ?_
  split
  · next name hname heq =>
    rw [kindAt_succ] at heq
    have hbehind := h.advance (.identifier (by simp) (kind_of_kindAt hname))
    refine Leads.advance (Leads.advance (Leads.pure ?_))
    exact hbehind.advance_nil (.operator (.inl (by simp)) (by simp) (kind_of_kindAt heq))
  · exact Leads.pure (h.of_eq (List.append_nil read).symm)

theorem covers_pattern (hexpr : CoversValues expr) :
    Covers (pattern expr) Pattern.leaves brackets [.value] [.value] := by
  intro o read s h
  refine Leads.start fun begin => ?_
  exact (covers_pathName h).bind fun name s h => leads_patternChain hexpr h

theorem covers_patternList (hexpr : CoversValues expr) (hbrackets : brackets.head? ≠ some .map) :
    Covers (patternList expr) (·.flatMap Pattern.leaves) brackets [.value] [.value] :=
  (covers_pattern hexpr).commaSeparated (.comma hbrackets)

end Cypher.Grammar
