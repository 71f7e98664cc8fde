import Cypher.Proofs.Enclosed.Lookahead

/-!
# Patterns around a parenthesis put in

In a pattern an operand stands only as a value in a map of properties. So the
parenthesis is put into a map, or the pattern goes over the seam.
-/

namespace Cypher.Grammar

open Token (Kind)
open Insertion

variable {κ : Insertion} {expr refusing expr' : Parser Expression} {brackets : List Bracket}
  {modes : List Mode} {d : Nat}

/-- Wherever an expression may stand, it is read side by side with the other one. Where a list is
read although a comprehension has been foreseen, the other one starts with a path. -/
structure ShadowedValues (κ : Insertion) (expr refusing expr' : Parser Expression) : Prop where
  law : κ.Lawful
  covers : CoversValues expr
  covers_other : CoversValues expr'
  coincides : Coincides (fun _ => False) expr expr
  settles : ∀ more, Settles more expr
  /-- In a bracket that is closed nothing is refused. -/
  same : κ.opens = false → refusing = expr
  shadowed {brackets : List Bracket} : brackets.head? ≠ some .detail →
    Shadowed κ 0 expr refusing expr' brackets [.value]
  foreseen {s s' : State} {begin : Nat} {list : Expression} : s.Bounded →
    listLiteral expr' begin s = .ok list s' →
    patternComprehensionAhead (s.ahead.drop 1) = true →
    ∃ rest, patternPredicateAhead (pathNode (s.ahead.drop 1)) = true
      ∧ afterGroup 0 (pathNode (s.ahead.drop 1)) = some rest ∧ s'.ahead.length < rest.length

/-! ## Property maps -/

section Properties

variable (hexpr : ShadowedValues κ expr refusing expr')

include hexpr

theorem shadowed_mapEntry :
    Shadowed κ d (mapEntry expr) (mapEntry refusing) (mapEntry expr') (.map :: brackets)
      [.entry] := by
  refine .start hexpr.law fun begin =>
    (Shadowed.symbolicName hexpr.law).bind (covers_key .mapKey) fun key => ?_
  refine .expect hexpr.law rfl .assigned ?_
  exact (hexpr.shadowed (by simp)).deeper.bind (hexpr.covers (by simp)) fun _ =>
    .spanFrom fun _ => .pure _

/-- The entries of a map, behind its brace. -/
theorem shadowed_entries {begin : Nat} :
    Shadowed κ (d + 1)
      (commaSeparatedUntil (.punctuation .rbrace) (mapEntry expr) >>= fun entries =>
        expect (.punctuation .rbrace) >>= fun _ => spanFrom begin >>= fun span =>
          pure (entries, span))
      (commaSeparatedUntil (.punctuation .rbrace) (mapEntry refusing) >>= fun entries =>
        expect (.punctuation .rbrace) >>= fun _ => spanFrom begin >>= fun span =>
          pure (entries, span))
      (commaSeparatedUntil (.punctuation .rbrace) (mapEntry expr') >>= fun entries =>
        expect (.punctuation .rbrace) >>= fun _ => spanFrom begin >>= fun span =>
          pure (entries, span)) (.map :: brackets) [.entry] := by
  have hmoves : Moves (mapEntry expr) := .of ((closed_moves {}).mapEntry hexpr.coincides)
  refine (Shadowed.commaSeparatedUntil hexpr.law .entry hmoves (covers_mapEntry hexpr.covers) rfl
    (shadowed_mapEntry hexpr)).bind ((covers_mapEntry hexpr.covers).commaSeparatedUntil .entry)
    fun entries => ?_
  exact .expectOut hexpr.law rfl .rbrace (.spanFrom fun _ => .pure _)

theorem shadowed_mapEntries :
    Shadowed κ d (mapEntries expr) (mapEntries refusing) (mapEntries expr') brackets modes :=
  .start hexpr.law fun _ => .expectInto hexpr.law rfl .lbrace (shadowed_entries hexpr)

/-- Where the seam is, properties stand for the first reading only. -/
theorem shadowed_properties :
    Shadowed κ (d + 1) (properties expr) (properties refusing) (properties expr') brackets
      modes := by
  refine .current (fun o read s hfits h => ?_) fun o read s hfits h hs hapt => ?_
  · split
    · exact (shadowed_mapEntries hexpr hfits h).map
    · next hdue => exact .advance hexpr.law (by rw [hdue]; exact nofun) (.pure _)
    · exact .pure _
  · rw [hexpr.law.kind, h.opens_of_seam hfits hs]
    split
    · refine .strays hs (.map ?_)
      refine .expect hs h.ended nofun fun hdue => ?_
      exact (shadowed_entries hexpr hfits.within (h.advance_nil (.lbrace hdue))).astray
    · next hdue => exact .strays hs (.advance hs h.ended (by rw [hdue]; exact nofun) .pure)
    · exact .pure _

end Properties

/-! ## Nodes -/

theorem shadowed_optionalLabels (law : κ.Lawful) :
    Shadowed κ d optionalLabels optionalLabels optionalLabels brackets [.value, .call] := by
  refine .current (fun o read s hfits h => ?_) fun o read s hfits h hs hapt => ?_
  · split
    · exact Shadowed.labelList law hfits h
    · exact .pure _
  · rw [if_neg (law.paren_ne rfl)]
    split
    · exact .strays hs (.takes hs h.ended takes_labelList)
    · exact .pure _

theorem shadowed_nodePattern (hexpr : ShadowedValues κ expr refusing expr')
    (hmodes : .call ∉ modes) :
    Shadowed κ d (nodePattern expr) (nodePattern refusing) (nodePattern expr') brackets modes := by
  intro o read s hfits h
  refine .assume (fun hrun => nodeAhead_of_ok h.ended hrun) fun hnode => ?_
  have hbracket : ∀ m ∈ modes,
      (if m = .call then .arguments else if nodeAhead s.ahead then .node else .group)
        = Bracket.node := by
    intro m hm
    have hcall : m ≠ .call := fun heq => hmodes (heq ▸ hm)
    rw [if_neg hcall, if_pos hnode]
  refine .start hexpr.law fun begin => .expect hexpr.law nofun fun hdue => ?_
  have hinside := h.enter hdue _ hbracket
  have hfits : κ.Fits (d + 1) (o.inside (afterGroup 0 s.ahead)) (.node :: brackets) := hfits.into
  refine (Shadowed.optionalVariable hexpr.law hfits hinside).bind
    (covers_optionalVariable (by simp) hinside) fun name s h => ?_
  have h := h.mono (show _ ⊆ [Mode.value, .call] by simp)
  refine (shadowed_optionalLabels hexpr.law hfits h).bind (covers_optionalLabels h)
    fun labels s h => ?_
  refine (shadowed_properties hexpr hfits h).bind (covers_properties hexpr.covers h)
    fun found s h => ?_
  exact .expect hexpr.law nofun fun _ => .spanFrom fun _ => .pure _

/-! ## Relationships -/

theorem shadowed_hopBound (law : κ.Lawful) :
    Shadowed κ d hopBound hopBound hopBound (.detail :: brackets) [.value] := by
  refine .current (fun o read s hfits h => ?_) fun o read s hfits h hs hapt => ?_
  · split
    · next hdue =>
      split
      · exact .advance law (by rw [hdue]; exact nofun) (.pure _)
      · exact .fail
    · exact .pure _
  · rw [law.kind]
    split
    · next hdue =>
      split
      · exact .strays hs (.advance hs h.ended (by rw [hdue]; exact nofun) .pure)
      · exact .fail
    · exact .pure _

theorem shadowed_hopRange (law : κ.Lawful) :
    Shadowed κ d hopRange hopRange hopRange (.detail :: brackets) [.value] := by
  refine (shadowed_hopBound law).bind covers_hopBound fun min => ?_
  refine .consume law rfl (.operator (.inl (by simp)) (by simp)) ?_ (.pure _)
  exact (shadowed_hopBound law).map

theorem shadowed_anotherType (law : κ.Lawful) :
    Shadowed κ d anotherType anotherType anotherType (.detail :: brackets) [.name] :=
  .consume law rfl (.colon (by simp)) (.symbolicName law) (.symbolicName law)

theorem shadowed_relationshipTypes (law : κ.Lawful) :
    Shadowed κ d relationshipTypes relationshipTypes relationshipTypes (.detail :: brackets)
      [.value, .call] := by
  have hmoves : Moves anotherType := .of (closed_moves {}).anotherType
  have hother : Covers (behind (.operator .pipe) anotherType) _ (.detail :: brackets)
      [.call] [.call, .call] := .behind .bar covers_anotherType
  have hothers := Shadowed.many (d := d) law (shortens_behind (by simp) hmoves)
    (hother.mono (List.Subset.refl _) (by simp)) ((shadowed_anotherType law).behind law rfl .bar)
  refine .consume law rfl (.colon (by simp)) ?_ (.pure _)
  exact (Shadowed.symbolicName law).bind (covers_symbolicName _) fun first => hothers.map

section Paths

variable (hexpr : ShadowedValues κ expr refusing expr')

include hexpr

theorem shadowed_detail :
    Shadowed κ (d + 1) (detail expr) (detail refusing) (detail expr') (.detail :: brackets)
      [.value] := by
  have law := hexpr.law
  have hhops : Covers (behind (.operator .star) hopRange) _ (.detail :: brackets)
      [.value, .call] [.value, .call, .value] :=
    .behind (.operator (.inl (by simp)) (by simp)) covers_hopRange
  refine (Shadowed.optionalVariable law).bind (covers_optionalVariable (by simp)) fun name => ?_
  refine ((shadowed_relationshipTypes law).bind covers_relationshipTypes fun types => ?_).mono
    (by simp)
  refine ((shadowed_hopRange law).behind law rfl (.operator (.inl (by simp)) (by simp))).bind hhops
    fun hops => ?_
  exact (shadowed_properties hexpr).map

theorem shadowed_bracketedDetail :
    Shadowed κ d (bracketedDetail expr) (bracketedDetail refusing) (bracketedDetail expr') brackets
      [.edge] := by
  refine .consumeInto hexpr.law rfl .detail ?_ (.pure _)
  refine (shadowed_detail hexpr).bind (covers_detail hexpr.covers) fun found => ?_
  exact .expectOut hexpr.law rfl .rbracket (.pure _)

omit hexpr in
theorem shadowed_farEnd (law : κ.Lawful) {incoming : Bool} :
    Shadowed κ d (farEnd incoming) (farEnd incoming) (farEnd incoming) brackets
      [.value, .edge] := by
  have hline {s : State} : Shadows κ
      (expect (.operator .minus) >>= fun _ => pure (if incoming then .incoming else .undirected))
      (expect (.operator .minus) >>= fun _ => pure (if incoming then .incoming else .undirected))
      (expect (.operator .minus) >>= fun _ => pure (if incoming then .incoming else .undirected :
        Direction)) s := .expect law nofun fun _ => .pure _
  refine .current (fun o read s hfits h => ?_) fun o read s hfits h hs hapt => ?_
  · split
    · next hdue =>
      split
      · exact .fail
      · exact .advance law (by rw [hdue]; exact nofun) (.pure _)
    · exact hline
  · rw [if_neg (law.paren_ne rfl)]
    split
    · next hdue =>
      split
      · exact .fail
      · exact .strays hs (.advance hs h.ended (by rw [hdue]; exact nofun) .pure)
    · exact hline

theorem shadowed_relationshipPattern :
    Shadowed κ d (relationshipPattern expr) (relationshipPattern refusing)
      (relationshipPattern expr') brackets [.edge] := by
  have law := hexpr.law
  refine .start law fun begin => ?_
  -- With the head at the near end or without, the rest is the same.
  refine .consume law rfl (.arrow (.inr (.inl rfl))) ?_ ?_
  all_goals
    refine .expect law rfl (.arrow (.inl rfl)) ?_
    refine (shadowed_bracketedDetail hexpr).bind (covers_bracketedDetail hexpr.covers)
      fun found => ?_
    exact (shadowed_farEnd law).bind covers_farEnd fun direction => .spanFrom fun _ => .pure _

/-! ## Paths -/

theorem shadows_link {o : Outlook} {read : List Leaf} {s : State} (hfits : κ.Fits d o brackets)
    (h : At o read brackets [Bracket.node.behind s.ahead] s) :
    Shadows κ (link expr) (link refusing) (link expr') s := by
  have law := hexpr.law
  refine .lookAhead ?_ fun s' hs b s₁ s₁' hrun hrun' _ => ?_
  · split
    · next hahead =>
      have hedge : Bracket.node.behind s.ahead = .edge := if_pos ⟨rfl, hahead⟩
      rw [hedge] at h
      refine (shadowed_relationshipPattern hexpr hfits h).bind
        (leads_relationshipPattern hexpr.covers h) fun relationship s h => ?_
      exact (shadowed_nodePattern hexpr (by simp) hfits h.longer).map
    · exact .pure _
  · by_cases hahead : relationshipAhead s.ahead = true
    · rw [if_pos hahead] at hrun'
      obtain ⟨_, _, hread, -⟩ := bind_eq_ok hrun'
      rw [if_pos (leads_relationshipAhead (hs.ended_other law) _ _ hread)]
      exact hrun'
    · rw [if_neg hahead] at hrun'
      obtain ⟨between, hthere, hthere'⟩ := hs.ahead
      rw [hthere] at hahead
      rw [hthere', if_neg (mt (relationshipAhead_spliced law.parenthesis) hahead)]
      exact hrun'

theorem shadowed_patternChain {name : Option String} {begin : Nat} :
    Shadowed κ d (patternChain expr name begin) (patternChain refusing name begin)
      (patternChain expr' name begin) brackets [.value] := by
  intro o read s hfits h
  refine (shadowed_nodePattern hexpr (by simp) hfits h).bind
    (leads_nodePattern hexpr.covers (by simp) h) fun first s h => ?_
  have hlinks : Shadows κ (many (link expr)) (many (link refusing)) (many (link expr')) s :=
    .many (Q := fun s => ∃ read, At o read brackets [Bracket.node.behind s.ahead] s) hexpr.law
      h.ended ⟨_, h⟩ (shortens_link hexpr.coincides)
      (fun s h => leads_linkAgain hexpr.covers h.choose_spec)
      fun s _ h => shadows_link hexpr hfits h.choose_spec
  exact hlinks.andThen fun _ _ => .spanFrom fun _ => .pure _

omit hexpr in
theorem pathName_named {s : State} {name : String} (hs : s.Ended)
    (hname : s.current.kind = .identifier name) (heq : s.advance.current.kind = .operator .eq) :
    pathName s = .ok (some name) s.advance.advance := by
  have hs₁ := (State.Reaches.advance s).ended hs
  unfold pathName
  rw [bind_ok (p := lookAhead) (s := s) rfl, kindAt_current hs (by simp [hname]), kindAt_succ,
    kindAt_current hs₁ (by simp [heq]), hname, heq]
  rfl

omit hexpr in
theorem pathName_unnamed {s : State} (h : ¬ ∃ name, s.current.kind = .identifier name
    ∧ s.advance.current.kind = .operator .eq) : pathName s = .ok none s := by
  unfold pathName
  rw [bind_ok (p := lookAhead) (s := s) rfl]
  refine congrFun (g := (pure none : Parser (Option String))) ?_ s
  split
  · next name hname heq =>
    rw [kindAt_succ] at heq
    exact absurd ⟨name, kind_of_kindAt hname, kind_of_kindAt heq⟩ h
  · rfl

omit hexpr in
/-- The name of a path and its equals sign are in front of the seam, or behind it for the first
reading. -/
theorem shadows_pathName (law : κ.Lawful) {s : State} (hended : s.Ended) :
    Shadows κ pathName pathName pathName s := by
  by_cases h : ∃ name, s.current.kind = .identifier name
      ∧ s.advance.current.kind = .operator .eq
  · obtain ⟨name, hname, heq⟩ := h
    have hrun := pathName_named hended hname heq
    constructor
    · intro hs a s₁ hok
      cases hrun.symm.trans hok
      exact ⟨hrun, hs.advance.advance⟩
    · intro s' hs a s₁ hok
      cases hrun.symm.trans hok
      refine ⟨_, pathName_named (hs.ended_other law) (hs.current ▸ hname) ?_, hs.advance.advance⟩
      rw [hs.advance.current, heq]
    · intro s' hs a s₁ hok
      cases hrun.symm.trans hok
      rcases hs.cases with ⟨hseam, -⟩ | ⟨-, hcurrent, hbehind⟩
      · have hne := State.ahead_ne_nil hended (by simp [hname])
        exact .astray hrun (astray_advance hseam hne).advance
      · rcases hbehind.cases with ⟨hseam, -⟩ | ⟨-, hcurrent', hbehind'⟩
        · have hne := State.ahead_ne_nil (hbehind.ended law) (by simp [heq])
          exact .astray hrun (astray_advance hseam hne)
        · exact .facing hrun (pathName_named (hs.ended_other law) (by rw [hcurrent, hname])
            (by rw [hcurrent', heq])) hbehind'
  · refine (Shadows.pure none).of_eq (pathName_unnamed h) (pathName_unnamed h)
      (fun s' hs => pathName_unnamed ?_) fun s' hs => pathName_unnamed ?_
    · rw [hs.current, hs.advance.current]
      exact h
    · rintro ⟨name, hname, heq⟩
      rcases hs.cases with ⟨hseam, -⟩ | ⟨-, hcurrent, hbehind⟩
      · rw [hs.current_of_seam hseam, law.kind] at hname
        cases hname
      · rcases hbehind.cases with ⟨hseam, -⟩ | ⟨-, hcurrent', -⟩
        · rw [hbehind.current_of_seam hseam, law.kind] at heq
          cases heq
        · rw [hcurrent] at hname
          rw [hcurrent'] at heq
          exact h ⟨name, hname, heq⟩

theorem shadowed_pattern :
    Shadowed κ d (pattern expr) (pattern refusing) (pattern expr') brackets [.value] := by
  refine .start hexpr.law fun _ => ?_
  have hname : Shadowed κ d pathName pathName pathName brackets [.value] :=
    fun _ _ _ _ h => shadows_pathName hexpr.law h.ended
  exact hname.bind covers_pathName fun _ => shadowed_patternChain hexpr

theorem shadowed_patternList (hbrackets : brackets.head? ≠ some .map) :
    Shadowed κ d (patternList expr) (patternList refusing) (patternList expr') brackets [.value] :=
  have hmoves : Moves (pattern expr) := .of ((closed_moves {}).pattern hexpr.coincides)
  .commaSeparated hexpr.law (.comma hbrackets) hmoves (covers_pattern hexpr.covers)
    (shadowed_pattern hexpr)

end Paths

end Cypher.Grammar
