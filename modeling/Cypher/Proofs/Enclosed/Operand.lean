import Cypher.Proofs.Enclosed.Pattern
import Cypher.Proofs.Leaves.Operand

/-!
# Operands around a parenthesis put in

The parenthesis that is put in stands in front of an operand or behind it. One
inside of an operand is read with the expression there. One behind it ends the
suffixes in the other reading, and the first reading goes on over the seam or
ends them there too.
-/

namespace Cypher.Grammar

open Token (Kind)
open Insertion

variable {κ : Insertion} {config config' : Config} {expr refusing expr' : Parser Expression}
  {o : Outlook} {read : List Leaf} {brackets : List Bracket} {modes : List Mode} {s s' : State}
  {d : Nat}

theorem At.bounded (h : At o read brackets modes s) : s.Bounded := ⟨h.ended, h.proper⟩

theorem Insertion.Facing.bounded_other (h : κ.Facing s s') (law : κ.Lawful) (hs : s.Bounded) :
    s'.Bounded := by
  refine ⟨h.ended_other law, fun t ht => ?_⟩
  obtain ⟨between, hahead, hahead'⟩ := h.ahead
  rw [hahead', List.mem_append, List.mem_cons] at ht
  rcases ht with ht | rfl | ht
  · exact hs.proper t (by rw [hahead]; exact List.mem_append_left _ ht)
  · rcases law.parenthesis with hparen | hparen <;> rw [hparen] <;> exact nofun
  · exact law.proper t ht

/-! ## Calls and names -/

theorem shadows_leaf (law : κ.Lawful) {make : Span → Expression} (hs : s.ahead ≠ κ.seam)
    (hdue : s.current.kind ≠ .eof) : Shadows κ (leaf make) (leaf make) (leaf make) s :=
  .current (.advance law hdue (.pure _)) fun hseam _ => absurd hseam hs

section Calls

variable (hexpr : ShadowedValues κ expr refusing expr')

include hexpr

/-- The arguments of a call, and what is done behind them. -/
theorem shadows_arguments {β : Type} {k kr k' : List Expression → Parser β}
    (hfits : κ.Fits d o brackets) (h : At o read brackets [.call] s)
    (hdue : s.current.kind = .punctuation .lparen)
    (hk : ∀ es s, Shadows κ (k es) (kr es) (k' es) s) :
    Shadows κ
      (commaSeparatedUntil (.punctuation .rparen) expr >>= fun es =>
        expect (.punctuation .rparen) >>= fun _ => k es)
      (commaSeparatedUntil (.punctuation .rparen) refusing >>= fun es =>
        expect (.punctuation .rparen) >>= fun _ => kr es)
      (commaSeparatedUntil (.punctuation .rparen) expr' >>= fun es =>
        expect (.punctuation .rparen) >>= fun _ => k' es) s.advance := by
  have harguments : Shadowed κ (d + 1) (commaSeparatedUntil (.punctuation .rparen) expr)
      (commaSeparatedUntil (.punctuation .rparen) refusing)
      (commaSeparatedUntil (.punctuation .rparen) expr') (.arguments :: brackets) [.value] :=
    .commaSeparatedUntil hexpr.law (.comma (by simp)) (.of hexpr.coincides)
      (hexpr.covers (by simp)) rfl (hexpr.shadowed (by simp)).deeper
  have hinside := h.enter hdue .arguments (by simp)
  refine (harguments hfits.into hinside).andThen fun es s => ?_
  exact .expect hexpr.law nofun fun _ => hk es _

theorem shadowed_callArguments {name : List String} {begin : Nat} :
    Shadowed κ d (callArguments expr name begin) (callArguments refusing name begin)
      (callArguments expr' name begin) brackets [.call] := by
  intro o read s hfits h
  refine .expect hexpr.law nofun fun hdue => ?_
  exact shadows_arguments hexpr hfits h hdue fun es s => .spanFrom fun _ => .pure _

theorem shadows_call {first : String} {begin : Nat} (hfits : κ.Fits d o brackets)
    (hname : s.current.kind = .identifier first) (h : At o read brackets [.value] s) :
    Shadows κ (call expr first begin) (call refusing first begin) (call expr' first begin) s := by
  refine .advance hexpr.law (by rw [hname]; exact nofun) ?_
  have hbehind := h.advance (.identifier (by simp) hname)
  exact ((Shadowed.dottedNames hexpr.law).bind covers_dottedNames fun _ =>
    shadowed_callArguments hexpr) hfits hbehind

omit hexpr in
theorem shadowed_dotSelector (law : κ.Lawful) {begin : Nat} :
    Shadowed κ d (dotSelector begin) (dotSelector begin) (dotSelector begin) brackets [.name] := by
  intro o read s hfits h
  refine .consume law nofun (fun _ _ => law.paren_ne rfl) (fun _ => .spanFrom fun _ => .pure _)
    fun _ => ?_
  exact (Shadows.symbolicName law).andThen fun _ _ => .spanFrom fun _ => .pure _

omit hexpr in
/-- The colon of an entry is told from afar. -/
theorem leads_entryAhead (hs : s.Ended) : Leads (mapEntry expr) s fun _ _ =>
    kindAt s.ahead 1 = some (.punctuation .colon) := by
  refine Leads.start fun begin => ?_
  refine Leads.bind (Q := fun _ s' => s' = s.advance) (Leads.symbolicName fun _ _ => rfl) ?_
  rintro _ _ rfl
  refine Leads.expect fun hcolon _ _ _ => ?_
  have hs₁ := (State.Reaches.advance s).ended hs
  rw [kindAt_succ, kindAt_current hs₁ (by rw [hcolon]; exact nofun), hcolon]

theorem shadowed_mapSelector :
    Shadowed κ (d + 1) (mapSelector expr) (mapSelector refusing) (mapSelector expr')
      (.map :: brackets) [.entry] := by
  have law := hexpr.law
  refine .start law fun begin => .consume law rfl .dot
    (shadowed_dotSelector law) ?_
  intro o read s hfits h
  have hne (hs : s.ahead = κ.seam) : ¬ κ.apt := h.not_seam hfits law (by simp) hs
  refine .lookAhead ?_ fun s' hs b s₁ s₁' hrun hrun' _ => ?_
  · split
    · exact (shadowed_mapEntry hexpr hfits h).map
    · refine .current ?_ fun hs hapt => absurd hapt (hne hs)
      exact (Shadows.variableName law).map
  · by_cases hcolon : kindAt s.ahead 1 = some (.punctuation .colon)
    · rw [if_pos hcolon] at hrun'
      obtain ⟨_, _, hentry, -⟩ := bind_eq_ok hrun'
      rw [if_pos (leads_entryAhead (hs.ended_other law) _ _ hentry)]
      exact hrun'
    · rw [if_neg hcolon] at hrun'
      refine Eq.trans ?_ hrun'
      refine congrFun (if_neg fun hcolon' => hcolon ?_) s'
      -- Neither is the parenthesis a colon nor is it in front of one.
      obtain ⟨between, hahead, hahead'⟩ := hs.ahead
      match between with
      | [] => exact absurd hs.apt (hne hahead)
      | [_] =>
        have hparen : κ.paren.kind = .punctuation .colon :=
          Option.some.inj (by rw [hahead'] at hcolon'; exact hcolon')
        exact absurd hparen (law.paren_ne rfl)
      | _ :: _ :: _ =>
        rw [hahead'] at hcolon'
        rw [hahead]
        exact hcolon'

/-- The selectors of a map projection, behind its brace. -/
theorem shadowed_selectors {name : String} {begin : Nat} :
    Shadowed κ (d + 1)
      (commaSeparatedUntil (.punctuation .rbrace) (mapSelector expr) >>= fun selectors =>
        expect (.punctuation .rbrace) >>= fun _ => spanFrom begin >>= fun span =>
          pure (Expression.mapProjection name selectors span))
      (commaSeparatedUntil (.punctuation .rbrace) (mapSelector refusing) >>= fun selectors =>
        expect (.punctuation .rbrace) >>= fun _ => spanFrom begin >>= fun span =>
          pure (Expression.mapProjection name selectors span))
      (commaSeparatedUntil (.punctuation .rbrace) (mapSelector expr') >>= fun selectors =>
        expect (.punctuation .rbrace) >>= fun _ => spanFrom begin >>= fun span =>
          pure (Expression.mapProjection name selectors span)) (.map :: brackets) [.entry] := by
  have hmoves : Moves (mapSelector expr) := .of ((closed_moves {}).mapSelector hexpr.coincides)
  refine (Shadowed.commaSeparatedUntil hexpr.law .entry hmoves (covers_mapSelector hexpr.covers) rfl
    (shadowed_mapSelector hexpr)).bind ((covers_mapSelector hexpr.covers).commaSeparatedUntil .entry)
    fun entries => ?_
  exact .expectOut hexpr.law rfl .rbrace (.spanFrom fun _ => .pure _)

theorem shadowed_mapProjection {name : String} {begin : Nat} :
    Shadowed κ d (mapProjection expr name begin) (mapProjection refusing name begin)
      (mapProjection expr' name begin) brackets modes :=
  .expectInto hexpr.law rfl .lbrace (shadowed_selectors hexpr)

theorem shadows_named {name : String} {span : Span} (hfits : κ.Fits d o brackets)
    (hseam : s.ahead ≠ κ.seam) (hname : s.current.kind = .identifier name)
    (h : At o read brackets [.value] s) :
    Shadows κ (named expr name span) (named refusing name span) (named expr' name span) s := by
  have law := hexpr.law
  have hdue : s.current.kind ≠ .eof := by rw [hname]; exact nofun
  have hbehind := h.advance (.identifier (by simp) hname)
  refine .lookAhead ?_ fun s' hs b s₁ s₁' hrun hrun' _ => ?_
  · split
    · exact shadows_call hexpr hfits hname h
    · refine .advance law hdue (.current ?_ fun hs hapt => ?_)
      · split
        · exact shadowed_mapProjection hexpr hfits hbehind
        · exact .pure _
      · rw [if_neg (law.paren_ne rfl)]
        split
        · refine .strays hs (.expect hs hbehind.ended nofun fun hdue => ?_)
          exact (shadowed_selectors hexpr hfits.within (hbehind.advance_nil (.lbrace hdue))).astray
        · exact .pure _
  · by_cases hcall : callAhead (s.ahead.drop 1) = true
    · rw [if_pos hcall] at hrun'
      rw [if_pos (leads_callAhead (hs.ended_other law) _ _ hrun')]
      exact hrun'
    · rw [if_neg hcall] at hrun'
      refine Eq.trans ?_ hrun'
      refine congrFun (if_neg fun hcall' => ?_) s'
      obtain ⟨between, hahead, hahead'⟩ := hs.ahead
      cases between with
      | nil => exact hseam hahead
      | cons t between =>
        obtain ⟨m, hm, -, hmet⟩ := hbehind.scan
        obtain rfl := List.mem_singleton.1 hm
        rw [hahead', List.cons_append, List.drop_one, List.tail_cons] at hcall'
        rw [hahead, List.cons_append, List.drop_one, List.tail_cons, Bool.not_eq_true] at hcall
        rw [State.ahead_advance_eq_tail, hahead, List.cons_append, List.tail_cons] at hmet
        obtain ⟨hparen, hmet⟩ := hmet.callAhead_spliced hcall' hcall law.parenthesis
        have hopens : κ.opens = true := by
          rw [law.kind] at hparen
          by_contra hcloses
          rw [if_neg hcloses] at hparen
          cases hparen
        have hmode := (law.opening hopens hs.apt).mode
        rw [hmet.scan_of_seam hfits.tokens] at hmode
        cases hmode

/-! ## Parentheses -/

theorem shadowed_parenthesized :
    Shadowed κ d (parenthesized expr) (parenthesized refusing) (parenthesized expr') brackets
      [.value] := by
  intro o read s hfits h
  refine .expect hexpr.law nofun fun hdue => ?_
  have hbracket : ∀ m ∈ [Mode.value],
      (if m = .call then .arguments else if nodeAhead s.ahead then .node else .group)
        = if nodeAhead s.ahead then Bracket.node else .group := by
    intro m hm
    rw [List.mem_singleton.1 hm, if_neg nofun]
  have hinside := h.enter hdue _ hbracket
  refine ((hexpr.shadowed (by split <;> simp)).deeper hfits.into hinside).andThen fun _ s => ?_
  exact .expect hexpr.law nofun fun _ => .pure _

/-- A path of more than one node is read as one in both texts, and a group as a group. -/
theorem shadowed_group {begin : Nat} :
    Shadowed κ d (group expr begin) (group refusing begin) (group expr' begin) brackets
      [.value] := by
  have law := hexpr.law
  intro o read s hfits h
  refine .lookAhead ?_ fun s' hs b s₁ s₁' hrun hrun' hs₁ => ?_
  · split
    · exact (shadowed_patternChain hexpr hfits h).map
    · exact shadowed_parenthesized hexpr hfits h
  · by_cases hpath : patternPredicateAhead s.ahead = true
    · rw [if_pos hpath] at hrun hrun'
      obtain ⟨p, s₂, hchain, hlast⟩ := bind_eq_ok hrun
      obtain ⟨p', s₂', hchain', hlast'⟩ := bind_eq_ok hrun'
      obtain rfl : p = p' := by
        cases hlast
        cases hlast'
        rfl
      obtain ⟨-, rest, hclosed, hmore, -⟩ := leads_foreseen hexpr.covers h.bounded _ _ hchain
      obtain ⟨hnode', rest', hclosed', hmore', -⟩ :=
        leads_foreseen hexpr.covers_other (hs.bounded_other law h.bounded) _ _ hchain'
      have hpath' : patternPredicateAhead s'.ahead = true := by
        unfold patternPredicateAhead at hpath ⊢
        rw [hclosed] at hpath
        rw [hnode', hclosed']
        exact hmore'.1 (hmore.2 (Bool.and_eq_true_iff.1 hpath).2)
      rw [if_pos hpath']
      exact hrun'
    · rw [if_neg hpath] at hrun hrun'
      refine Eq.trans ?_ hrun'
      refine congrFun (if_neg fun hpath' => hpath ?_) s'
      obtain ⟨between, hahead, hahead'⟩ := hs.ahead
      rw [hahead'] at hpath'
      rw [hahead]
      rcases hs₁ with hs₁ | hs₁
      · have hclosed := leads_closedGroup hexpr.covers h.bounded _ _ hrun
        obtain ⟨between₁, hahead₁, -⟩ := hs₁.ahead
        rw [hahead, hahead₁] at hclosed
        obtain ⟨_, hclosed, -⟩ := afterGroup_of_append hclosed (by simp)
        exact patternPredicateAhead_behind hclosed law.parenthesis hpath'
      · have hparen := law.kind
        rw [hs₁.opens] at hparen
        exact (law.opening hs₁.opens hs.apt).patternPredicateAhead_spliced hparen hpath'

/-! ## Lists, maps and case analyses -/

theorem shadowed_mapLiteral :
    Shadowed κ d (mapLiteral expr) (mapLiteral refusing) (mapLiteral expr') brackets modes :=
  (shadowed_mapEntries hexpr).map

theorem shadowed_optionalWhere (hbrackets : brackets.head? ≠ some .detail) :
    Shadowed κ d (optionalWhere expr) (optionalWhere refusing) (optionalWhere expr') brackets
      [.value, .call] :=
  (hexpr.shadowed hbrackets).deeper.behind hexpr.law rfl (.plain rfl (by simp))

theorem shadowed_listComprehension {begin : Nat} :
    Shadowed κ d (listComprehension expr begin) (listComprehension refusing begin)
      (listComprehension expr' begin) brackets [.value] := by
  have law := hexpr.law
  refine .expectInto law rfl (.lbracket (by simp)) ?_
  refine (Shadowed.variableName law).bind (covers_variableName (by simp) _) fun name => ?_
  refine .expect law rfl (.plain rfl (by simp)) ?_
  refine (hexpr.shadowed (by simp)).deeper.bind (hexpr.covers (by simp)) fun source => ?_
  refine (shadowed_optionalWhere hexpr (by simp)).bind
    (covers_optionalWhere hexpr.covers (by simp)) fun filter => ?_
  refine ((hexpr.shadowed (by simp)).deeper.behind law rfl
    (.operator (.inr (by simp)) (by simp))).bind
    (.behind (.operator (.inr (by simp)) (by simp)) (hexpr.covers (by simp))) fun projection => ?_
  exact .expectOut law rfl .rbracket (.spanFrom fun _ => .pure _)

theorem shadowed_patternComprehension {begin : Nat} :
    Shadowed κ d (patternComprehension expr begin) (patternComprehension refusing begin)
      (patternComprehension expr' begin) brackets [.value] := by
  have law := hexpr.law
  refine .expectInto law rfl (.lbracket (by simp)) ?_
  refine (shadowed_pattern hexpr).bind (covers_pattern hexpr.covers) fun path => ?_
  refine (shadowed_optionalWhere hexpr (by simp)).mono (by simp) |>.bind
    ((covers_optionalWhere hexpr.covers (by simp)).mono (by simp) (List.Subset.refl _))
    fun filter => ?_
  refine .expect law rfl (.operator (.inr (by simp)) (by simp)) ?_
  refine (hexpr.shadowed (by simp)).deeper.bind (hexpr.covers (by simp)) fun projection => ?_
  exact .expectOut law rfl .rbracket (.spanFrom fun _ => .pure _)

theorem shadowed_listLiteral {begin : Nat} :
    Shadowed κ d (listLiteral expr begin) (listLiteral refusing begin) (listLiteral expr' begin)
      brackets [.value] := by
  have law := hexpr.law
  refine .expectInto law rfl (.lbracket (by simp)) ?_
  refine (Shadowed.commaSeparatedUntil law (.comma (by simp)) (.of hexpr.coincides)
    (hexpr.covers (by simp)) rfl (hexpr.shadowed (by simp)).deeper).bind
    ((hexpr.covers (by simp)).commaSeparatedUntil (.comma (by simp))) fun items => ?_
  exact .expectOut law rfl .rbracket (.spanFrom fun _ => .pure _)

/-- A list that is read is no comprehension in either text. -/
theorem comprehensionAhead_other {begin : Nat} {list : Expression} {s₁ s₁' : State}
    (h : s.Bounded) (hseam : s.ahead ≠ κ.seam)
    (hpath : patternComprehensionAhead (s.ahead.drop 1) ≠ true) (hs : κ.Facing s s')
    (hrun' : listLiteral expr' begin s' = .ok list s₁') (hs₁ : κ.Facing s₁ s₁' ∨ κ.Past s₁ s₁') :
    patternComprehensionAhead (s'.ahead.drop 1) ≠ true := by
  have law := hexpr.law
  intro hpath'
  obtain ⟨rest, hahead, hclosed, hlonger⟩ :=
    hexpr.foreseen (hs.bounded_other law h) hrun' hpath'
  refine hpath (patternComprehensionAhead_of_path ?_)
  obtain ⟨between, hbetween, hbetween'⟩ := hs.ahead
  cases between with
  | nil => exact absurd hbetween hseam
  | cons t between =>
    rw [hbetween', List.cons_append, List.drop_one, List.tail_cons] at hahead hclosed
    rw [hbetween, List.cons_append, List.drop_one, List.tail_cons]
    refine patternPredicateAhead_pathNode law.parenthesis fun us
      (hus : _ = us ++ κ.paren :: κ.behind) => ?_
    rw [hus] at hahead hclosed
    rcases hs₁ with hs₁ | hs₁
    · obtain ⟨between₁, -, hahead₁⟩ := hs₁.ahead
      rw [hahead₁, List.length_append] at hlonger
      obtain ⟨_, hclosed, -⟩ := afterGroup_of_append hclosed (by omega)
      exact patternPredicateAhead_behind hclosed law.parenthesis hahead
    · have hparen := law.kind
      rw [hs₁.opens] at hparen
      exact (law.opening hs₁.opens hs.apt).patternPredicateAhead_spliced hparen hahead

theorem shadows_bracket {begin : Nat} (hfits : κ.Fits d o brackets) (hseam : s.ahead ≠ κ.seam)
    (h : At o read brackets [.value] s) :
    Shadows κ (bracket expr begin) (bracket refusing begin) (bracket expr' begin) s := by
  have law := hexpr.law
  refine .lookAhead ?_ fun s' hs b s₁ s₁' hrun hrun' hs₁ => ?_
  · split
    · exact shadowed_listComprehension hexpr hfits h
    · split
      · exact shadowed_patternComprehension hexpr hfits h
      · exact shadowed_listLiteral hexpr hfits h
  · by_cases hlist : listComprehensionAhead s.ahead = true
    · rw [if_pos hlist] at hrun'
      rw [if_pos (leads_listComprehensionAhead (hs.ended_other law) _ _ hrun')]
      exact hrun'
    · by_cases hpath : patternComprehensionAhead (s.ahead.drop 1) = true
      · rw [if_neg hlist, if_pos hpath] at hrun'
        have hpath' := leads_patternComprehensionAhead hexpr.covers_other
          (hs.bounded_other law h.bounded) _ _ hrun'
        rw [listComprehensionAhead_of_pattern hpath', if_neg nofun, if_pos hpath']
        exact hrun'
      · rw [if_neg hlist, if_neg hpath] at hrun'
        have hpath' := comprehensionAhead_other hexpr h.bounded hseam hpath hs hrun' hs₁
        have hlist' : listComprehensionAhead s'.ahead ≠ true := by
          obtain ⟨between, hbetween, hbetween'⟩ := hs.ahead
          cases between with
          | nil => exact absurd hbetween hseam
          | cons t between =>
            rw [hbetween']
            rw [hbetween] at hlist
            exact mt (listComprehensionAhead_spliced law.parenthesis) hlist
        rw [if_neg hlist', if_neg hpath']
        exact hrun'

theorem shadowed_caseBranch (hbrackets : brackets.head? ≠ some .detail) :
    Shadowed κ d (caseBranch expr) (caseBranch refusing) (caseBranch expr') brackets
      [.value, .call] := by
  have law := hexpr.law
  refine .start law fun begin => .consume law rfl (.plain rfl (by simp)) ?_ (.pure _)
  refine (hexpr.shadowed hbrackets).deeper.bind (hexpr.covers hbrackets) fun condition => ?_
  refine .expect law rfl (.plain rfl (by simp)) ?_
  exact (hexpr.shadowed hbrackets).deeper.bind (hexpr.covers hbrackets) fun _ =>
    .spanFrom fun _ => .pure _

/-- What follows the subject of a case analysis. -/
theorem shadowed_branches (hbrackets : brackets.head? ≠ some .detail) {subject : Option Expression}
    {begin : Nat} :
    Shadowed κ d
      (many (caseBranch expr) >>= fun branches =>
        if branches.isEmpty then fail (.expected (.token (.keyword .WHEN)))
        else behind (.keyword .ELSE) expr >>= fun otherwise => expect (.keyword .END) >>= fun _ =>
          spanFrom begin >>= fun span => pure (Expression.case subject branches otherwise span))
      (many (caseBranch refusing) >>= fun branches =>
        if branches.isEmpty then fail (.expected (.token (.keyword .WHEN)))
        else behind (.keyword .ELSE) refusing >>= fun otherwise => expect (.keyword .END) >>= fun _ =>
          spanFrom begin >>= fun span => pure (Expression.case subject branches otherwise span))
      (many (caseBranch expr') >>= fun branches =>
        if branches.isEmpty then fail (.expected (.token (.keyword .WHEN)))
        else behind (.keyword .ELSE) expr' >>= fun otherwise => expect (.keyword .END) >>= fun _ =>
          spanFrom begin >>= fun span => pure (Expression.case subject branches otherwise span))
      brackets [.value, .call] := by
  have law := hexpr.law
  have hbranch := covers_caseBranch hexpr.covers hbrackets
  refine (Shadowed.many law (shortens_caseBranch hexpr.coincides) hbranch
    (shadowed_caseBranch hexpr hbrackets)).bind hbranch.many fun branches => ?_
  split
  · exact .fail
  · refine ((hexpr.shadowed hbrackets).deeper.behind law rfl (.plain rfl (by simp))).bind
      (.behind (.plain rfl (by simp)) (hexpr.covers hbrackets)) fun otherwise => ?_
    exact .expect law rfl (.plain rfl (by simp)) (.spanFrom fun _ => .pure _)

theorem shadowed_caseExpression (hbrackets : brackets.head? ≠ some .detail) {begin : Nat} :
    Shadowed κ d (caseExpression expr begin) (caseExpression refusing begin)
      (caseExpression expr' begin) brackets [.value] := by
  have law := hexpr.law
  refine .expect law rfl (.plain rfl (by simp)) fun o read s hfits h => ?_
  by_cases hdue : s.ahead = κ.seam ∧ κ.apt ∧ s.current.kind = .keyword .WHEN
  · -- Without a subject the first reading is past the seam as soon as it has read a branch.
    obtain ⟨hs, hapt, hwhen⟩ := hdue
    have hcloses : κ.opens = false := by
      by_contra hopens
      rw [Bool.not_eq_false] at hopens
      exact (law.opening hopens hapt).current_ne hs rfl hwhen
    rw [hexpr.same hcloses]
    have closed := closed_moves {}
    refine .strays hs (.of_leads hs ?_)
    refine Leads.bind (Q := fun _ s' => s' = s) (Leads.current ?_) fun operand s' hs' => ?_
    · rw [if_pos hwhen]
      exact Leads.pure rfl
    · rw [hs']
      have hbranches : Moves (many (caseBranch expr)) :=
        .of (closed.many (closed.caseBranch hexpr.coincides))
      refine (taken_of_many hbranches (shortens_caseBranch hexpr.coincides) h.ended).bind
        fun branches s₁ htaken => ?_
      split
      · exact Leads.fail
      · next hne =>
        have htaken := htaken fun hnil => hne (by rw [hnil]; rfl)
        have hrest : Moves (behind (.keyword .ELSE) expr >>= fun otherwise =>
            expect (.keyword .END) >>= fun _ => spanFrom begin >>= fun span =>
              pure (Expression.case operand branches otherwise span)) :=
          .of (closed.bind (closed.behind hexpr.coincides) fun _ =>
            closed.next .expect fun _ => closed.spanned begin _)
        exact (hrest.leads s₁).mono fun _ _ hadvances =>
          Nat.lt_of_le_of_lt hadvances.ahead.length_le htaken
  · refine (Shadows.unlessDue ((hexpr.shadowed hbrackets).deeper hfits h) fun hs hapt => ?_).bind
      ((hexpr.covers hbrackets).unlessDue h) fun operand s h => ?_
    · exact ⟨fun hwhen => hdue ⟨hs, hapt, hwhen⟩, law.paren_ne rfl⟩
    · exact shadowed_branches hexpr hbrackets hfits (h.mono (by simp))

theorem shadows_existsCall {begin : Nat} (hfits : κ.Fits d o brackets)
    (hdue : s.current.kind = .keyword .EXISTS) (h : At o read brackets [.value] s) :
    Shadows κ (existsCall expr begin) (existsCall refusing begin) (existsCall expr' begin) s := by
  have hpasses : Passes s.current brackets [.value] [.name "exists"] brackets .call :=
    .keyword (by simp) hdue fun m hname hentry => by
      simp [Scan.passKeyword, Scan.toMode, hname, hentry]
  exact .advance hexpr.law (by simp [hdue])
    (shadowed_callArguments hexpr hfits (h.advance hpasses))

/-! ## Atoms -/

theorem shadows_atom (room : κ.Roomier config config') (hbrackets : brackets.head? ≠ some .detail)
    (hfits : κ.Fits d o brackets) (hseam : s.ahead ≠ κ.seam) (h : At o read brackets [.value] s) :
    Shadows κ (atom config expr) (atom config refusing) (atom config' expr') s := by
  have hleaf {make : Span → Expression} (hdue : s.current.kind ≠ .eof) :
      Shadows κ (leaf make) (leaf make) (leaf make) s := shadows_leaf hexpr.law hseam hdue
  refine .current ?_ fun hs _ => absurd hs hseam
  split
  · next hdue => exact hleaf (by rw [hdue]; exact nofun)
  · next hdue => exact hleaf (by rw [hdue]; exact nofun)
  · next hdue => exact hleaf (by rw [hdue]; exact nofun)
  · next hdue => exact hleaf (by rw [hdue]; exact nofun)
  · next hdue => exact hleaf (by rw [hdue]; exact nofun)
  · next hdue => exact hleaf (by rw [hdue]; exact nofun)
  · next hdue => exact hleaf (by rw [hdue]; exact nofun)
  · next hdue => exact hleaf (by rw [hdue]; exact nofun)
  · exact shadowed_group hexpr hfits h
  · exact shadows_bracket hexpr hfits hseam h
  · exact shadowed_mapLiteral hexpr hfits h
  · exact shadowed_caseExpression hexpr hbrackets hfits h
  · next hdue => exact shadows_existsCall hexpr hfits hdue h
  · next hdue => exact shadows_named hexpr hfits hseam hdue h
  · have hstop : recoverExpression config = fail .expectedExpression :=
      if_neg (by rw [room.recover]; exact Bool.false_ne_true)
    rw [hstop]
    exact .fail

end Calls

/-! ## Suffixes -/

section Suffixes

variable {x : Operand} (law : κ.Lawful) (room : κ.Roomier config config')

include room

theorem shadowed_grown {tree : Expression} {inner : Nat} :
    Shadowed κ d (grown config x tree inner) (grown config x tree inner) (grown config' x tree inner)
      brackets modes := .checkHeight room (.pure _)

include law

/-- A key behind its point, and the point as well. -/
theorem shadows_propertyKey :
    Shadows κ
      (symbolicName .propertyKey >>= fun key => spanFrom x.tree.span.start >>= fun span =>
        grown config x (.property x.tree key span) 0)
      (symbolicName .propertyKey >>= fun key => spanFrom x.tree.span.start >>= fun span =>
        grown config x (.property x.tree key span) 0)
      (symbolicName .propertyKey >>= fun key => spanFrom x.tree.span.start >>= fun span =>
        grown config' x (.property x.tree key span) 0) s :=
  (Shadows.symbolicName law).andThen fun _ _ =>
    .spanFrom fun _ => .checkHeight room fun _ => .pure _

theorem shadowed_labelCheck :
    Shadowed κ d (labelCheck config x) (labelCheck config x) (labelCheck config' x) brackets
      [.value, .call] :=
  (Shadowed.labelList law).bind covers_labelList fun _ => .spanFrom fun _ => shadowed_grown room

omit law

variable (hexpr : ShadowedValues κ expr refusing expr')

include hexpr

theorem shadowed_sliceTail {lower : Option Expression} :
    Shadowed κ (d + 1) (sliceTail config expr x lower) (sliceTail config refusing x lower)
      (sliceTail config' expr' x lower) (.list :: brackets) [.value, .call] := by
  have law := hexpr.law
  refine .expect law rfl (.operator (.inl (by simp)) (by simp)) ?_
  refine ((hexpr.shadowed (by simp)).deeper.unlessDue law rfl).bind
    (hexpr.covers (by simp)).unlessDue fun upper => ?_
  exact .expectOut law rfl .rbracket (.spanFrom fun _ => shadowed_grown room)

omit hexpr in
theorem shadowed_indexTail (law : κ.Lawful) {position : Expression} :
    Shadowed κ (d + 1) (indexTail config x position) (indexTail config x position)
      (indexTail config' x position) (.list :: brackets) modes :=
  .expectOut law rfl .rbracket (.spanFrom fun _ => shadowed_grown room)

/-- A subscript behind its bracket. -/
theorem shadowed_position :
    Shadowed κ (d + 1)
      (unlessDue (.operator .dotDot) expr >>= fun lower => current >>= fun t =>
        match lower with
        | some position =>
          if t.kind = .operator .dotDot then sliceTail config expr x lower
          else indexTail config x position
        | none => sliceTail config expr x none)
      (unlessDue (.operator .dotDot) refusing >>= fun lower => current >>= fun t =>
        match lower with
        | some position =>
          if t.kind = .operator .dotDot then sliceTail config refusing x lower
          else indexTail config x position
        | none => sliceTail config refusing x none)
      (unlessDue (.operator .dotDot) expr' >>= fun lower => current >>= fun t =>
        match lower with
        | some position =>
          if t.kind = .operator .dotDot then sliceTail config' expr' x lower
          else indexTail config' x position
        | none => sliceTail config' expr' x none) (.list :: brackets) [.value] := by
  have law := hexpr.law
  refine ((hexpr.shadowed (by simp)).deeper.unlessDue law rfl).bind
    (hexpr.covers (by simp)).unlessDue fun lower => ?_
  refine .current (fun o read s hfits h => ?_) fun o read s hfits h hs hapt => ?_
  · have h : At o read (.list :: brackets) [.value, .call] s := h.mono (by simp)
    split
    · split
      · exact shadowed_sliceTail room hexpr hfits h
      · exact shadowed_indexTail room law hfits h
    · exact shadowed_sliceTail room hexpr hfits h
  · have h : At o read (.list :: brackets) [.value, .call] s := h.mono (by simp)
    have hdots : s.current.kind ≠ .operator .dotDot :=
      (law.opening (h.opens_of_seam hfits hs) hapt).current_ne hs rfl
    split
    · rw [if_neg hdots, if_neg hdots, if_neg (law.paren_ne rfl)]
      exact shadowed_indexTail room law hfits h
    · exact shadowed_sliceTail room hexpr hfits h

theorem shadowed_subscript :
    Shadowed κ d (subscript config expr x) (subscript config refusing x) (subscript config' expr' x)
      brackets [.value, .call] :=
  .expectInto hexpr.law rfl (.lbracket (by simp)) (shadowed_position room hexpr)

omit hexpr in
/-- Where a label stands behind the colon it does so in both texts. -/
theorem shadowed_labels (law : κ.Lawful) (h : At o read brackets [.value, .call] s)
    (hfits : κ.Fits d o brackets) (hdue : s.current.kind = .punctuation .colon)
    (hseam : s.ahead = κ.seam → ¬ κ.apt) :
    Shadows κ
      (lookAhead >>= fun ts => if (ts[1]?.bind Token.symbolicName?).isSome then labelCheck config x
        else pure (.done x))
      (lookAhead >>= fun ts => if (ts[1]?.bind Token.symbolicName?).isSome then labelCheck config x
        else pure (.done x))
      (lookAhead >>= fun ts => if (ts[1]?.bind Token.symbolicName?).isSome then labelCheck config' x
        else pure (.done x)) s := by
  refine .lookAhead ?_ fun s' hs b s₁ s₁' hrun hrun' _ => ?_
  · split
    · exact shadowed_labelCheck law room hfits h
    · exact .pure _
  · have hcurrent := hs.current_of_ne fun hahead => hseam hahead hs.apt
    have hahead' := State.ahead_eq (hs.ended_other law) (by rw [hcurrent, hdue]; exact nofun)
    by_cases hlabel : (s.ahead[1]?.bind Token.symbolicName?).isSome
    · rw [if_pos hlabel] at hrun'
      obtain ⟨_, _, hlabels, -⟩ := bind_eq_ok hrun'
      have hname := leads_labelAhead (by rw [hcurrent, hdue]) _ _ hlabels
      have hlabel' : (s'.ahead[1]?.bind Token.symbolicName?).isSome := by
        cases hbehind : s'.advance.ahead with
        | nil =>
          rw [State.current_of_nil hbehind, (State.Reaches.advance s').eof, Token.symbolicName?,
            show s'.eof.kind = .eof from hs.ended_other law] at hname
          cases hname
        | cons t rest =>
          rw [State.current, hbehind] at hname
          rw [hahead', hbehind]
          exact hname
      rw [if_pos hlabel']
      exact hrun'
    · rw [if_neg hlabel] at hrun'
      refine Eq.trans ?_ hrun'
      refine congrFun (if_neg fun hlabel' => hlabel ?_) s'
      obtain ⟨between, hbetween, hbetween'⟩ := hs.ahead
      rcases between with _ | ⟨t, _ | ⟨u, between⟩⟩
      · exact absurd hs.apt (hseam hbetween)
      · have hname : κ.paren.symbolicName? = none := by
          unfold Token.symbolicName?
          rcases law.parenthesis with hparen | hparen <;> rw [hparen]
        rw [hbetween'] at hlabel'
        rw [show ([t] ++ κ.paren :: κ.behind)[1]? = some κ.paren from rfl, Option.bind_some,
          hname] at hlabel'
        cases hlabel'
      · rw [hbetween'] at hlabel'
        rw [hbetween]
        exact hlabel'

theorem shadowed_suffix :
    Shadowed κ d (suffix config expr x) (suffix config refusing x) (suffix config' expr' x)
      brackets [.value, .call] := by
  have law := hexpr.law
  intro o read s hfits h
  by_cases hseam : s.ahead = κ.seam ∧ κ.apt
  · -- The other reading is at a parenthesis, and no suffix starts with one.
    obtain ⟨hs, hapt⟩ := hseam
    refine .currentAtSeam hs ?_
    have hdone : Shadows κ (pure (.done x)) (pure (.done x))
        (pure (.done x) : Parser (ForInStep Operand)) s := .pure _
    suffices h : ∀ p' : Parser (ForInStep Operand), p' = pure (.done x) → Shadows κ _ _ p' s by
      refine h _ ?_
      rcases law.parenthesis with hparen | hparen <;> rw [hparen]
    rintro p' rfl
    split
    · next hdue =>
      refine .strays hs (.advance hs h.ended (by rw [hdue]; exact nofun) ?_)
      exact (shadows_propertyKey law room).astray
    · refine .strays hs (.expect hs h.ended nofun fun hdue => ?_)
      exact (shadowed_position room hexpr hfits.within
        (h.advance_nil (.lbracket (by simp) hdue))).astray
    · have hlabels : Takes (labelCheck config x) := takes_labelList.bind fun _ =>
        .of ((closed_moves config).next (.spanFrom _) fun _ => (closed_moves config).grown)
      have hahead : Shadows κ
          (if (s.ahead[1]?.bind Token.symbolicName?).isSome then labelCheck config x
            else pure (.done x))
          (if (s.ahead[1]?.bind Token.symbolicName?).isSome then labelCheck config x
            else pure (.done x)) (pure (.done x)) s := by
        split
        · exact .strays hs (.takes hs h.ended hlabels)
        · exact hdone
      exact hahead.of_eq rfl rfl (fun _ _ => rfl) fun _ _ => rfl
    · exact hdone
  · have hseam (hs : s.ahead = κ.seam) : ¬ κ.apt := fun hapt => hseam ⟨hs, hapt⟩
    refine .current ?_ fun hs hapt => absurd hapt (hseam hs)
    split
    · next hdue => exact .advance law (by rw [hdue]; exact nofun) (shadows_propertyKey law room)
    · exact shadowed_subscript room hexpr hfits h
    · next hdue => exact shadowed_labels room law h hfits hdue hseam
    · exact .pure _

theorem shadows_suffixes (hfits : κ.Fits d o brackets)
    (h : At o (read ++ x.tree.leaves) brackets [.value, .call] s) :
    Shadows κ (iterate (suffix config expr) x) (iterate (suffix config refusing) x)
      (iterate (suffix config' expr') x) s := by
  have hproceeds (y : Operand) : Proceeds (suffix config expr y) :=
    (Moves.of ((closed_moves config).suffix hexpr.coincides)).proceeds
  refine .iterate (Q := fun y s => At o (read ++ y.tree.leaves) brackets [.value, .call] s) hexpr.law
    h.ended h hproceeds (consumes_suffix hexpr.coincides) (fun y s h => ?_) fun y s _ h => ?_
  · refine (leads_suffix hexpr.covers h).mono fun r s h y hr => ?_
    rw [hr] at h
    exact h
  · exact shadowed_suffix room hexpr hfits h

/-- An operand that does not start at the seam. -/
theorem shadows_operand (hbrackets : brackets.head? ≠ some .detail) (hfits : κ.Fits d o brackets)
    (hseam : s.ahead ≠ κ.seam) (h : At o read brackets [.value] s) :
    Shadows κ (operand config expr) (operand config refusing) (operand config' expr') s := by
  refine (shadows_atom hexpr room hbrackets hfits hseam h).bind
    (covers_atom room.recover hexpr.covers hbrackets h) fun tree s h => ?_
  exact .checkHeight room fun _ => shadows_suffixes room hexpr hfits h

end Suffixes

end Cypher.Grammar
