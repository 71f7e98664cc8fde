import Cypher.Proofs.Derived.Pattern
import Cypher.Proofs.Laid.Tokens
import Cypher.Proofs.Leaves.Pattern

/-!
# What is read as a path belongs to the grammar

In a text without maps, the tokens that a parser of some part takes are written
for what it answers.
-/

namespace Cypher.Grammar

open Token (Kind)
open Derived

variable {α β : Type}

/-- There is no map ahead, and behind the tokens ahead is the end of the text. -/
structure State.Mapless (s : State) : Prop where
  ended : s.Ended
  plain : ∀ t ∈ s.ahead, t.kind ≠ .punctuation .lbrace

/-- Between the two states stand these tokens, in a text without maps. -/
structure Past (s : State) (ts : List Token) (s' : State) : Prop where
  tokens : s.ahead = ts ++ s'.ahead
  mapless : s'.Mapless

namespace Past

variable {s s' s'' : State} {ts us : List Token} {kind : Kind}

theorem refl (h : s.Mapless) : Past s [] s := ⟨rfl, h⟩

theorem advance (h : s.Mapless) (hdue : s.current.kind ≠ .eof) :
    Past s [s.current] s.advance := by
  have hahead := State.ahead_eq h.ended hdue
  refine ⟨hahead, (State.Reaches.advance s).ended h.ended, fun t ht => h.plain t ?_⟩
  rw [hahead]
  exact List.mem_cons_of_mem _ ht

theorem due (h : s.Mapless) (hdue : s.current.kind = kind) (hkind : kind ≠ .eof) :
    Past s [s.current] s.advance := advance h (hdue ▸ hkind)

theorem trans (h : Past s ts s') (h' : Past s' us s'') : Past s (ts ++ us) s'' :=
  ⟨by rw [h.tokens, h'.tokens, List.append_assoc], h'.mapless⟩

end Past

/-- What the parser takes is written for its answer, looked at as `view` does. -/
def Finds (p : Parser α) (view : α → β) (D : List Token → β → Prop) : Prop :=
  ∀ ⦃s⦄, s.Mapless → Leads p s fun a s' => ∃ ts, Past s ts s' ∧ D ts (view a)

/-! ## What grammars are made of -/

namespace Finds

variable {D : List Token → β → Prop} {item : Parser α} {step : Parser (Option α)} {view : α → β}
  {kind : Kind}

theorem behind (h : Finds item view D) (hkind : kind ≠ .eof) :
    Finds (behind kind item) (Option.map view) (Optional (Behind kind D)) := by
  intro s hs
  refine Leads.consume (fun hdue => ?_) fun _ => Leads.pure ⟨[], .refl hs, .absent⟩
  have hpast := Past.due hs hdue hkind
  refine (h hpast.mapless).bind fun a s' hfound => Leads.pure ?_
  obtain ⟨ts, hts, ha⟩ := hfound
  exact ⟨_, hpast.trans hts, .present (.mk hdue ha)⟩

theorem many (h : Finds step (Option.map view) (Optional D)) :
    Finds (many step) (List.map view) (Repeated D) := by
  intro s hs
  refine Leads.many (Q := fun as s' => ∃ ts, Past s ts s' ∧ Repeated D ts (as.map view))
    ⟨[], .refl hs, .nil⟩ fun as s₁ hsofar => ?_
  obtain ⟨ts, hts, has⟩ := hsofar
  refine (h hts.mapless).mono fun r s₂ hfound => ?_
  obtain ⟨us, hus, hr⟩ := hfound
  refine ⟨ts ++ us, hts.trans hus, ?_⟩
  cases r with
  | none =>
    cases hr
    simpa using has
  | some a =>
    cases hr with
    | present part => simpa using has.snoc part

end Finds

theorem finds_optionalVariable : Finds optionalVariable id (Optional Variable) := by
  intro s hs name s' hrun
  unfold optionalVariable at hrun
  split at hrun
  · next name hname =>
    cases hrun
    exact ⟨_, .due hs hname nofun, .present (.mk hname)⟩
  · cases hrun
    exact ⟨[], .refl hs, .absent⟩

theorem finds_symbolicName (role : NameRole) : Finds (symbolicName role) id Name :=
  fun _ hs => Leads.symbolicName fun _ hname =>
    ⟨_, .advance hs (Token.ne_eof_of_symbolicName? hname), .mk hname⟩

variable {expr : Parser Expression} {s : State}

/-! ## Nodes -/

theorem finds_optionalLabels :
    Finds optionalLabels id (Repeated (Behind (.punctuation .colon) Name)) := by
  have hlabel : Finds (behind (.punctuation .colon) (symbolicName .label)) _ _ :=
    (finds_symbolicName _).behind nofun
  intro s hs
  refine Leads.current ?_
  split
  · refine (hlabel.many hs).bind fun labels s' hfound => ?_
    split
    · exact Leads.fail
    · exact Leads.pure (by simpa using hfound)
  · exact Leads.pure ⟨[], .refl hs, .nil⟩

theorem finds_properties :
    Finds (properties expr) (Option.map Properties.erase) (Optional Parameter) := by
  intro s hs
  refine Leads.current ?_
  split
  · next hdue =>
    have hahead := State.ahead_eq hs.ended (by rw [hdue]; exact nofun)
    exact absurd hdue (hs.plain _ (hahead ▸ List.mem_cons_self))
  · next hdue =>
    exact Leads.advance (Leads.pure ⟨_, .due hs hdue nofun, .present (.mk hdue)⟩)
  · exact Leads.pure ⟨[], .refl hs, .absent⟩

theorem finds_nodePattern : Finds (nodePattern expr) NodePattern.erase Node := by
  intro s hs
  refine Leads.start fun begin => Leads.expect fun hopen => ?_
  have hopened := Past.due hs hopen nofun
  refine (finds_optionalVariable hopened.mapless).bind fun name s₁ hfound => ?_
  obtain ⟨names, hnames, hname⟩ := hfound
  refine (finds_optionalLabels hnames.mapless).bind fun labels s₂ hfound => ?_
  obtain ⟨colons, hcolons, hlabels⟩ := hfound
  refine (finds_properties hcolons.mapless).bind fun found s₃ hfound => ?_
  obtain ⟨parameters, hparameters, hproperties⟩ := hfound
  refine Leads.expect fun hclose => Leads.spanFrom fun span => Leads.pure ?_
  have hclosed := Past.due hparameters.mapless hclose nofun
  refine ⟨_, hopened.trans (hnames.trans (hcolons.trans (hparameters.trans hclosed))), ?_⟩
  rw [NodePattern.erase_mk]
  exact .mk hopen hname hlabels hproperties hclose

/-! ## Relationships -/

/-- A number that is read as a bound is below the limit. -/
theorem finds_hopBound : Finds hopBound id (Optional (Bound (· < 2 ^ 32))) := by
  intro s hs
  refine Leads.current ?_
  split
  · next digits hdue =>
    split
    · next hfits =>
      rw [decimalValue_eq] at hfits ⊢
      exact Leads.advance (Leads.pure ⟨_, .due hs hdue nofun, .present (.mk hdue hfits)⟩)
    · exact Leads.fail
  · exact Leads.pure ⟨[], .refl hs, .absent⟩

theorem finds_hopRange : Finds hopRange id (Range (· < 2 ^ 32)) := by
  intro s hs
  refine (finds_hopBound hs).bind fun min s₁ hfound => ?_
  obtain ⟨ts, hts, hmin⟩ := hfound
  refine Leads.consume (fun hdots => ?_) fun _ => Leads.pure ⟨ts, hts, .single hmin⟩
  have hpast := Past.due hts.mapless hdots nofun
  refine (finds_hopBound hpast.mapless).bind fun max s₂ hfound => Leads.pure ?_
  obtain ⟨us, hus, hmax⟩ := hfound
  exact ⟨_, hts.trans (hpast.trans hus), .range hmin hdots hmax⟩

theorem finds_otherType : Finds (behind (.operator .pipe) anotherType) id (Optional OtherType) := by
  intro s hs
  refine Leads.consume (fun hbar => ?_) fun _ => Leads.pure ⟨[], .refl hs, .absent⟩
  have hbarred := Past.due hs hbar nofun
  refine Leads.bind (Q := fun name s' => ∃ ts, Past s ts s' ∧ OtherType ts name) ?_
    fun name s' hfound => Leads.pure ?_
  · refine Leads.consume (fun hcolon => ?_) fun _ => ?_
    · have hmarked := Past.due hbarred.mapless hcolon nofun
      refine (finds_symbolicName _ hmarked.mapless).mono fun name s' hfound => ?_
      obtain ⟨ts, hts, hname⟩ := hfound
      exact ⟨_, hbarred.trans (hmarked.trans hts), .colon (.mk hbar (.mk hcolon hname))⟩
    · refine (finds_symbolicName _ hbarred.mapless).mono fun name s' hfound => ?_
      obtain ⟨ts, hts, hname⟩ := hfound
      exact ⟨_, hbarred.trans hts, .plain (.mk hbar hname)⟩
  · obtain ⟨ts, hts, hname⟩ := hfound
    exact ⟨ts, hts, .present hname⟩

theorem finds_relationshipTypes : Finds relationshipTypes id Types := by
  intro s hs
  refine Leads.consume (fun hcolon => ?_) fun _ => Leads.pure ⟨[], .refl hs, .none⟩
  have hmarked := Past.due hs hcolon nofun
  refine (finds_symbolicName _ hmarked.mapless).bind fun first s₁ hfound => ?_
  obtain ⟨ts, hts, hfirst⟩ := hfound
  have hothers : Finds (many (behind (.operator .pipe) anotherType)) (List.map id)
      (Repeated OtherType) := Finds.many (by rw [Option.map_id]; exact finds_otherType)
  refine (hothers hts.mapless).bind fun others s₂ hfound => Leads.pure ?_
  obtain ⟨us, hus, hnames⟩ := hfound
  rw [List.map_id] at hnames
  exact ⟨_, (hmarked.trans hts).trans hus, .some (.mk hcolon hfirst) hnames⟩

/-- The detail with no trace of where it was read. -/
def Detail.erase (d : Detail) : Detail := { d with properties := d.properties.map Properties.erase }

theorem finds_detail : Finds (detail expr) Detail.erase (Derived.Detail (· < 2 ^ 32)) := by
  have hstar : Finds (behind (.operator .star) hopRange) _ _ := finds_hopRange.behind nofun
  intro s hs
  refine (finds_optionalVariable hs).bind fun name s₁ hfound => ?_
  obtain ⟨names, hnames, hname⟩ := hfound
  refine (finds_relationshipTypes hnames.mapless).bind fun types s₂ hfound => ?_
  obtain ⟨alternatives, halternatives, htypes⟩ := hfound
  refine (hstar halternatives.mapless).bind fun hops s₃ hfound => ?_
  obtain ⟨range, hrange, hhops⟩ := hfound
  rw [Option.map_id] at hhops
  refine (finds_properties hrange.mapless).bind fun found s₄ hfound => Leads.pure ?_
  obtain ⟨parameters, hparameters, hproperties⟩ := hfound
  exact ⟨_, hnames.trans (halternatives.trans (hrange.trans hparameters)),
    .mk hname htypes hhops hproperties⟩

theorem finds_bracketedDetail :
    Finds (bracketedDetail expr) Detail.erase (Bracketed (· < 2 ^ 32)) := by
  intro s hs
  refine Leads.consume (fun hopen => ?_) fun _ => Leads.pure ⟨[], .refl hs, .absent⟩
  have hopened := Past.due hs hopen nofun
  refine (finds_detail hopened.mapless).bind fun d s₁ hfound => Leads.expect fun hclose => ?_
  obtain ⟨ts, hts, hd⟩ := hfound
  have hclosed := Past.due hts.mapless hclose nofun
  exact Leads.pure ⟨_, hopened.trans (hts.trans hclosed), .present hopen hd hclose⟩

/-- The far end of a relationship is a head or a dash, and a head only where there is none at
the near end. -/
theorem leads_farEnd {incoming : Bool} (hs : s.Mapless) :
    Leads (farEnd incoming) s fun direction s' => ∃ t, Past s [t] s'
      ∧ (t.kind = .operator .arrow ∧ incoming = false ∧ direction = .outgoing
        ∨ t.kind = .operator .minus
          ∧ direction = if incoming then .incoming else .undirected) := by
  refine Leads.current ?_
  split
  · next hdue =>
    split
    · exact Leads.fail
    · next hnone =>
      exact Leads.advance (Leads.pure
        ⟨_, .due hs hdue nofun, .inl ⟨hdue, Bool.eq_false_iff.2 hnone, rfl⟩⟩)
  · exact Leads.expect fun hdue => Leads.pure ⟨_, .due hs hdue nofun, .inr ⟨hdue, rfl⟩⟩

theorem finds_relationshipPattern : Finds (relationshipPattern expr) RelationshipPattern.erase
    (Relationship (· < 2 ^ 32)) := by
  have hrest {incoming : Bool} {begin : Nat} {s : State} (hs : s.Mapless) :
      Leads (expect (.operator .minus) >>= fun _ => bracketedDetail expr >>= fun found =>
        farEnd incoming >>= fun direction => spanFrom begin >>= fun span =>
          pure (⟨direction, found.name, found.types, found.hops, found.properties, span⟩ :
            RelationshipPattern)) s
        fun r s' => ∃ near far ts d, Past s (near :: (ts ++ [far])) s'
          ∧ near.kind = .operator .minus ∧ Bracketed (· < 2 ^ 32) ts d
          ∧ (far.kind = .operator .arrow ∧ incoming = false
              ∧ r.erase = relationship .outgoing d
            ∨ far.kind = .operator .minus
              ∧ r.erase = relationship (if incoming then .incoming else .undirected) d) := by
    refine Leads.expect fun hnear => ?_
    have hentered := Past.due hs hnear nofun
    refine (finds_bracketedDetail hentered.mapless).bind fun found s₁ hfound => ?_
    obtain ⟨ts, hts, hd⟩ := hfound
    refine (leads_farEnd hts.mapless).bind fun direction s₂ hfound => ?_
    obtain ⟨far, hfar, hend⟩ := hfound
    refine Leads.spanFrom fun span => Leads.pure ?_
    refine ⟨_, far, ts, _, hentered.trans (hts.trans hfar), hnear, hd, ?_⟩
    rw [RelationshipPattern.erase_mk]
    rcases hend with ⟨hdue, hnone, rfl⟩ | ⟨hdue, rfl⟩
    · exact .inl ⟨hdue, hnone, rfl⟩
    · exact .inr ⟨hdue, rfl⟩
  intro s hs
  refine Leads.start fun begin => Leads.consume (fun hhead => ?_) fun _ => ?_
  · have hheaded := Past.due hs hhead nofun
    refine (hrest hheaded.mapless).mono fun r s' hfound => ?_
    obtain ⟨near, far, ts, d, hts, hnear, hd, ⟨-, hnone, -⟩ | ⟨hfar, hr⟩⟩ := hfound
    · cases hnone
    · exact ⟨_, hheaded.trans hts, hr ▸ .incoming hhead hnear hd hfar⟩
  · refine (hrest hs).mono fun r s' hfound => ?_
    obtain ⟨near, far, ts, d, hts, hnear, hd, ⟨hfar, -, hr⟩ | ⟨hfar, hr⟩⟩ := hfound
    · exact ⟨_, hts, hr ▸ .outgoing hnear hd hfar⟩
    · exact ⟨_, hts, hr ▸ .undirected hnear hd hfar⟩

/-! ## Paths -/

theorem finds_link : Finds (link expr) (Option.map Link.erase) (Optional (Step (· < 2 ^ 32))) := by
  intro s hs
  refine Leads.lookAhead ?_
  split
  · refine (finds_relationshipPattern hs).bind fun r s₁ hfound => ?_
    obtain ⟨ts, hts, hr⟩ := hfound
    refine (finds_nodePattern hts.mapless).bind fun n s₂ hfound => Leads.pure ?_
    obtain ⟨us, hus, hn⟩ := hfound
    exact ⟨_, hts.trans hus, .present (.mk hr hn)⟩
  · exact Leads.pure ⟨[], .refl hs, .absent⟩

theorem leads_steps {name : Option String} {begin : Nat} (hs : s.Mapless) :
    Leads (patternChain expr name begin) s fun p s' => ∃ ts us first chain, Past s (ts ++ us) s'
      ∧ Node ts first ∧ Repeated (Step (· < 2 ^ 32)) us chain
      ∧ p.erase = ⟨name, first, chain, .nowhere⟩ := by
  refine (finds_nodePattern hs).bind fun first s₁ hfound => ?_
  obtain ⟨ts, hts, hfirst⟩ := hfound
  refine (finds_link.many hts.mapless).bind fun chain s₂ hfound => ?_
  obtain ⟨us, hus, hchain⟩ := hfound
  refine Leads.spanFrom fun span => Leads.pure ⟨ts, us, _, _, hts.trans hus, hfirst, hchain, ?_⟩
  rw [Pattern.erase_mk]

/-- What is taken for a path is written for the path that is answered, and none of its bounds
is too large. -/
theorem finds_pattern : Finds (pattern expr) Pattern.erase (Path (· < 2 ^ 32)) := by
  intro s hs
  refine Leads.start fun begin => Leads.bind
    (Q := fun name s' => name = none ∧ s' = s ∨ ∃ t equals n, name = some n
      ∧ Past s [t, equals] s' ∧ t.kind = .identifier n ∧ equals.kind = .operator .eq) ?_
    fun name s₁ hname => ?_
  · refine Leads.lookAhead ?_
    split
    · next name hname heq =>
      rw [kindAt_succ] at heq
      have hnamed := Past.due hs (kind_of_kindAt hname) nofun
      have hbound := Past.due hnamed.mapless (kind_of_kindAt heq) nofun
      refine Leads.advance (Leads.advance (Leads.pure ?_))
      exact .inr ⟨_, _, name, rfl, hnamed.trans hbound, kind_of_kindAt hname, kind_of_kindAt heq⟩
    · exact Leads.pure (.inl ⟨rfl, rfl⟩)
  · obtain ⟨rfl, rfl⟩ | ⟨t, equals, n, rfl, hts, hn, heq⟩ := hname
    · refine (leads_steps hs).mono fun p s' hfound => ?_
      obtain ⟨ts, us, first, chain, hpath, hfirst, hchain, hp⟩ := hfound
      exact ⟨_, hpath, hp ▸ .plain hfirst hchain⟩
    · refine (leads_steps hts.mapless).mono fun p s' hfound => ?_
      obtain ⟨ts, us, first, chain, hpath, hfirst, hchain, hp⟩ := hfound
      exact ⟨t :: equals :: (ts ++ us), hts.trans hpath, hp ▸ .named hn heq hfirst hchain⟩

end Cypher.Grammar
