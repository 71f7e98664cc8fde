import Cypher.Proofs.Disguised.Lookahead

/-!
# Patterns with names in disguise

Labels, types and keys stand where a name is due. All else in a path is told by
signs, and what a parenthesis or a bracket encloses ends where it did.
-/

namespace Cypher.Grammar

open Token (Kind)

variable {f : Token → Token} {expr : Parser Expression} {brackets : List Bracket}
  {modes : List Mode}

/-- Wherever an expression may stand, the parser reads its leaves, and is blind to
the disguise. -/
structure Steady (f : Token → Token) (expr : Parser Expression) : Prop where
  covers : CoversValues expr
  blind {brackets : List Bracket} : brackets.head? ≠ some .detail → Blind f expr brackets [.value]

/-! ## Property maps -/

section Properties

variable (hexpr : Steady f expr)

include hexpr

theorem blind_mapEntry : Blind f (mapEntry expr) (.map :: brackets) [.entry] := by
  refine .start fun begin => blind_symbolicName.bind (covers_key .mapKey) fun key => ?_
  refine .expectSign .assigned rfl ?_
  exact (hexpr.blind (by simp)).bind (hexpr.covers (by simp)) fun _ => .spanFrom fun _ => .pure _

theorem blind_mapEntries : Blind f (mapEntries expr) brackets modes := by
  refine .start fun begin => .expectSign .lbrace rfl ?_
  refine (Blind.commaSeparatedUntil .entry (covers_mapEntry hexpr.covers) (blind_mapEntry hexpr)
    rfl).bind ((covers_mapEntry hexpr.covers).commaSeparatedUntil .entry) fun entries => ?_
  exact .expectSign .rbrace rfl (.spanFrom fun _ => .pure _)

theorem blind_properties (hmodes : Plain modes) : Blind f (properties expr) brackets modes := by
  refine .current hmodes fun o read s hf h => ?_
  split
  · exact (blind_mapEntries hexpr hf h).map
  · exact .advance (.pure _)
  · exact .pure _

end Properties

/-! ## Nodes -/

theorem blind_optionalLabels : Blind f optionalLabels brackets [.value, .call] := by
  refine .current (by simp [Plain]) fun o read s hf h => ?_
  split
  · exact blind_labelList hf h
  · exact .pure _

/-- A node closes where it did, as its properties do. -/
theorem blind_nodePattern (hexpr : Steady f expr) (hmodes : .call ∉ modes) :
    Blind f (nodePattern expr) brackets modes := by
  intro o read s hf h
  refine .assume (fun hrun => nodeAhead_of_ok h.ended hrun) fun hnode => ?_
  have hbracket : ∀ m ∈ modes,
      (if m = .call then .arguments else if nodeAhead s.ahead then .node else .group)
        = Bracket.node := by
    intro m hm
    have hcall : m ≠ .call := fun heq => hmodes (heq ▸ hm)
    rw [if_neg hcall, if_pos hnode]
  have hinside (begin : Nat) : Blind f (optionalVariable >>= fun name => optionalLabels >>= fun labels =>
      properties expr >>= fun found => expect (.punctuation .rparen) >>= fun _ =>
        spanFrom begin >>= fun span => pure (⟨name, labels, found, span⟩ : NodePattern))
      (.node :: brackets) [.value] := by
    refine (blind_optionalVariable (by simp [Plain])).bind
      (covers_optionalVariable (by simp)) fun name => ?_
    refine (blind_optionalLabels.bind covers_optionalLabels fun labels => ?_).mono (by simp)
    refine (blind_properties hexpr (by simp [Plain])).bind
      (covers_properties hexpr.covers) fun found o read s hf h => ?_
    exact .expectSign hf rfl fun _ => .spanFrom hf fun _ => .pure _
  refine .start hf fun begin => .expectSign hf rfl fun hdue => ?_
  exact hinside begin (o := o.inside _) hf (h.enter hdue _ hbracket)

/-! ## Relationships -/

theorem blind_hopBound : Blind f hopBound (.detail :: brackets) [.value] := by
  refine .current (by simp [Plain]) fun o read s hf h => ?_
  split
  · split
    · exact .advance (.pure _)
    · exact .fail
  · exact .pure _

theorem blind_hopRange : Blind f hopRange (.detail :: brackets) [.value] := by
  refine blind_hopBound.bind covers_hopBound fun min => ?_
  refine .consume (.operator (.inl (by simp)) (by simp)) (.inl rfl) ?_ (.pure _)
  exact blind_hopBound.map

theorem blind_anotherType : Blind f anotherType (.detail :: brackets) [.name] :=
  .consume (.colon (by simp)) (.inl rfl) blind_symbolicName blind_symbolicName

theorem blind_relationshipTypes :
    Blind f relationshipTypes (.detail :: brackets) [.value, .call] := by
  have hothers : Blind f (many (behind (.operator .pipe) anotherType)) (.detail :: brackets)
      [.call] := by
    have hother : Covers (behind (.operator .pipe) anotherType) _ (.detail :: brackets)
        [.call] [.call, .call] := .behind .bar covers_anotherType
    exact .many (hother.mono (List.Subset.refl _) (by simp))
      (blind_anotherType.behind (.inl rfl) .bar)
  refine .consume (.colon (by simp)) (.inl rfl) ?_ (.pure _)
  exact blind_symbolicName.bind (covers_symbolicName _) fun first => hothers.map

section Paths

variable (hexpr : Steady f expr)

include hexpr

theorem blind_detail : Blind f (detail expr) (.detail :: brackets) [.value] := by
  have hhops : Covers (behind (.operator .star) hopRange) _ (.detail :: brackets)
      [.value, .call] [.value, .call, .value] :=
    .behind (.operator (.inl (by simp)) (by simp)) covers_hopRange
  refine (blind_optionalVariable (by simp [Plain])).bind (covers_optionalVariable (by simp))
    fun name => ?_
  refine (blind_relationshipTypes.bind covers_relationshipTypes fun types => ?_).mono (by simp)
  refine (blind_hopRange.behind (.inl rfl) (.operator (.inl (by simp)) (by simp))).bind hhops
    fun hops => ?_
  exact (blind_properties hexpr (by simp [Plain])).map

theorem blind_bracketedDetail : Blind f (bracketedDetail expr) brackets [.edge] := by
  refine .consume .detail (.inl rfl) ?_ (.pure _)
  refine (blind_detail hexpr).bind (covers_detail hexpr.covers) fun found => ?_
  exact .expectSign .rbracket rfl (.pure _)

omit hexpr in
theorem blind_farEnd {incoming : Bool} : Blind f (farEnd incoming) brackets [.value, .edge] := by
  refine .current (by simp [Plain]) fun o read s hf h => ?_
  split
  · split
    · exact .fail
    · exact .advance (.pure _)
  · exact .expectSign hf rfl fun _ => .pure _

theorem blind_relationshipPattern : Blind f (relationshipPattern expr) brackets [.edge] := by
  have hrest (incoming : Bool) (begin : Nat) :
      Blind f (expect (.operator .minus) >>= fun _ => bracketedDetail expr >>= fun found =>
        farEnd incoming >>= fun direction => spanFrom begin >>= fun span =>
          pure (⟨direction, found.name, found.types, found.hops, found.properties, span⟩ :
            RelationshipPattern)) brackets [.edge] := by
    refine .expectSign (.arrow (.inl rfl)) rfl ?_
    refine (blind_bracketedDetail hexpr).bind (covers_bracketedDetail hexpr.covers) fun found => ?_
    exact blind_farEnd.bind covers_farEnd fun direction => .spanFrom fun _ => .pure _
  refine .start fun begin => ?_
  exact .consume (.arrow (.inr (.inl rfl))) (.inl rfl) (hrest true begin) (hrest false begin)

/-! ## Paths -/

theorem alike_link {o : Outlook} {read : List Leaf} {s : State} (hf : Disguise f o.tokens)
    (h : At o read brackets [Bracket.node.behind s.ahead] s) : Alike f (link expr) s := by
  refine .lookAhead (by rw [relationshipAhead_disguise hf]) ?_
  split
  · next hahead =>
    have hedge : Bracket.node.behind s.ahead = .edge := if_pos ⟨rfl, hahead⟩
    rw [hedge] at h
    refine (blind_relationshipPattern hexpr hf h).bind (leads_relationshipPattern hexpr.covers h)
      fun relationship s h => ?_
    exact (blind_nodePattern hexpr (by simp) hf h.longer).map
  · exact .pure _

theorem blind_patternChain {name : Option String} {begin : Nat} :
    Blind f (patternChain expr name begin) brackets [.value] := by
  intro o read s hf h
  refine (blind_nodePattern hexpr (by simp) hf h).bind (leads_nodePattern hexpr.covers (by simp) h)
    fun first s h => ?_
  have hlinks : Alike f (many (link expr)) s :=
    .many ⟨_, h⟩ (fun s h => leads_linkAgain hexpr.covers h.choose_spec)
      fun s h => alike_link hexpr hf h.choose_spec
  exact hlinks.andThen fun _ _ => .spanFrom hf fun _ => .pure _

omit hexpr in
theorem blind_pathName : Blind f pathName brackets [.value] := by
  intro o read s hf h
  obtain ⟨m, hm, -, hmet⟩ := h.scan
  have hmode : m = .value := List.mem_singleton.1 hm
  have hfirst : kindAt (s.ahead.map f) 0 = kindAt s.ahead 0 :=
    kindAt_fixed (hmet.fixed_head hf (by rw [hmode]; simp))
  refine .lookAhead ?_ ?_
  · rw [hfirst]
    rcases kindAt_disguise hf s.ahead 1 with hsecond | ⟨name, word, hname, hsecond⟩
    · rw [hsecond]
    · rw [hsecond, hname]
      cases kindAt s.ahead 0 with
      | none => rfl
      | some kind => cases kind <;> rfl
  · split
    · exact .advance (.advance (.pure _))
    · exact .pure _

theorem blind_pattern : Blind f (pattern expr) brackets [.value] :=
  .start fun _ => blind_pathName.bind covers_pathName fun _ => blind_patternChain hexpr

theorem blind_patternList (hbrackets : brackets.head? ≠ some .map) :
    Blind f (patternList expr) brackets [.value] :=
  .commaSeparated (.comma hbrackets) (covers_pattern hexpr.covers) (blind_pattern hexpr)

end Paths

end Cypher.Grammar
