import Cypher.Proofs.Compared.Relaid
import Cypher.Proofs.Continued.Clause
import Cypher.Proofs.Continued.Operators
import Cypher.Proofs.Ensured.Query
import Cypher.Proofs.Terminating.Loops

/-!
# Queries in a text continued

Between the clauses of a query the sequel does make a difference: there it is
read on, as further clauses or as a further part of a union. But it makes none
before that, so the loop over the clauses of the longer text comes to the place
where the shorter text ends with the same clauses read, and goes on from there.
The loop over the parts of a union does so too.
-/

namespace Cypher.Grammar

open Token (Kind)

variable {config : Config} {more : Sequel} {whole : List Token} {expr : Parser Expression}
  {n : Nat} {s s' s'' : State}

/-! ## Clauses -/

/-- A clause that stands in the text is read, and at its end none is found, unless the
sequel starts with one. -/
theorem continues_clause (hexpr : Settles more expr) (h : Along whole n true s)
    (hend : s.ahead = [] → more.word = .UNION) :
    Continues more whole (clause expr) s fun r s' =>
      Along whole n true s' ∧ (r ≠ none → s'.ahead.length < s.ahead.length) := by
  refine Continues.current (fun hs hnil => ?_) ?_
  · rw [more.kind, hend hnil, show s.eof.kind = .eof from hs.ended]
    rfl
  · split
    · next word hword =>
      split
      · next rest hrest =>
        have hne : s.current.kind ≠ .eof := by rw [hword]; exact nofun
        refine Continues.advance hne ?_
        refine (Continues.shorter h.ended hne (Q := fun _ => Along whole n true) ?_).mono
          fun _ _ _ h => ⟨h.1, fun _ => h.2⟩
        exact (settles_clauseBehind hexpr hrest (h.pass hword rfl)).bind fun c s h => Continues.pure h
      · exact Continues.pure ⟨h, fun h => absurd rfl h⟩
    · exact Continues.pure ⟨h, fun h => absurd rfl h⟩

/-- Where no clause starts nothing is read, and a clause starts with its word. -/
theorem leads_clauseWord (expr : Parser Expression) (s : State) :
    Leads (clause expr) s fun r s' => (r = none → s' = s) ∧ (r ≠ none →
      ∃ word, s.current.kind = .keyword word ∧ word.startsClause = true ∧ word ≠ .UNION) := by
  have hnone : Leads (pure none : Parser (Option Clause)) s fun r s' => (r = none → s' = s)
      ∧ (r ≠ none → ∃ word, s.current.kind = .keyword word ∧ word.startsClause = true
        ∧ word ≠ .UNION) :=
    Leads.pure ⟨fun _ => rfl, fun h => absurd rfl h⟩
  refine Leads.current ?_
  split
  · next word hword =>
    split
    · next rest hrest =>
      refine Leads.advance (Leads.bind (Q := fun _ _ => True) (fun _ _ _ => trivial)
        fun c s' _ => Leads.pure ?_)
      refine ⟨nofun, fun _ => ⟨word, hword, ?_⟩⟩
      cases word <;> first | (cases hrest; done) | exact ⟨rfl, nofun⟩
    · exact hnone
  · exact hnone

/-- A sequel of the one word `UNION`. -/
def Sequel.union (span : Span) : Sequel where
  first := ⟨.keyword .UNION, span, 0, ""⟩
  rest := []
  eof := ⟨.eof, span, 0, ""⟩
  word := .UNION
  kind := rfl
  starts := rfl

/-- Where a reading begins. -/
theorem Along.start (hs : s.Ended) : Along s.ahead 0 true s :=
  ⟨⟨[], rfl, rfl, nofun⟩, hs⟩

/-! ## Unions -/

theorem proceeds_unionPart (config : Config) (j : Joined) : Proceeds (unionPart config j) := by
  intro s j' s' hrun
  have hV : Inherited False config fun _ => True := fun _ _ _ => trivial
  obtain ⟨hadvances, -⟩ := (ensures_unionPart hV).ok hrun
  exact ⟨hadvances.ahead.length_le, hadvances.eof⟩

theorem proceeds_joinPart (config : Config) (j : Joined) : Proceeds (joinPart config j) := by
  intro s r s' hrun
  have hV : Inherited False config fun _ => True := fun _ _ _ => trivial
  obtain ⟨hadvances, -⟩ := (ensures_joinPart hV).ok hrun
  exact ⟨hadvances.ahead.length_le, hadvances.eof⟩

theorem leads_unionPartTree (config : Config) (j : Joined) (s : State) :
    Leads (unionPart config j) s fun j' _ =>
      (∃ all right span, j'.body = .union all j.body right span) ∧ j'.height = j.height + 1 := by
  refine Leads.checkHeight (Leads.bind (Q := fun _ _ => True) (fun _ _ _ => trivial) ?_)
  intro all s _
  refine Leads.bind (Q := fun _ _ => True) (fun _ _ _ => trivial) fun right s _ => Leads.pure ?_
  exact ⟨⟨all, right, _, rfl⟩, rfl⟩

/-- A union goes on behind its word, and where there is none nothing is read. -/
theorem leads_joinPartWord (config : Config) (j : Joined) (hs : s.Ended) :
    Leads (joinPart config j) s fun r s' => match r with
      | .yield j' => s.current.kind = .keyword .UNION ∧ s'.ahead.length < s.ahead.length
        ∧ (∃ all right span, j'.body = .union all j.body right span) ∧ j'.height = j.height + 1
      | .done j' => j' = j ∧ s' = s := by
  refine Leads.consume (fun hunion => ?_) fun _ => Leads.pure ⟨rfl, rfl⟩
  have hlt := State.length_advance hs (by rw [hunion]; exact nofun)
  have hpart : Leads (unionPart config j) s.advance fun _ s' => s.advance.Reaches s' :=
    proceeds_unionPart config j _
  exact (hpart.and (leads_unionPartTree config j _)).bind fun j' s' h => Leads.pure
    ⟨hunion, Nat.lt_of_le_of_lt h.1.length hlt, h.2⟩

theorem consumes_joinPart (config : Config) : Consumes (joinPart config) := by
  intro s j j' s' hs hrun
  exact (leads_joinPartWord config j hs _ _ hrun).2.1

/-- The parts are joined by a round, and the loop again if the round does not end it. -/
theorem joined_eq (hs : s.Ended) {j : Joined} {r : ForInStep Joined}
    (hround : joinPart config j s = .ok r s') :
    iterate (joinPart config) j s = afterRound pure (iterate (joinPart config)) r s' := by
  have hloop := iterate_bind (proceeds_joinPart config) (consumes_joinPart config) hs j pure
  rw [bind_pure, bind_ok hround] at hloop
  simpa only [bind_pure] using hloop

section Accepting

variable (hrecover : config.recover = false)

include hrecover

/-- The clauses of the shorter text come first in the longer one. -/
theorem clauses_followed (hwhole : Complete whole) (hs : s.Before more)
    (heof : more.eof.kind = .eof) (h : Along whole n true s) {cs cs' : List Clause}
    (hfirst : many (clause (expression config)) s = .ok cs s')
    (hsecond : many (clause (expression config)) (s'.followed more) = .ok cs' s'') :
    many (clause (expression config)) (s.followed more) = .ok (cs ++ cs') s'' := by
  have hshortens : Shortens (clause (expression config)) :=
    shortens_clause (.of_moves (moves_expression config))
  induction hlength : s.ahead.length using Nat.strong_induction_on generalizing s cs with
  | _ m ih =>
    obtain ⟨r, s₁, hround, -⟩ := bind_eq_ok (p := clause (expression config)) hfirst
    rw [many_eq hshortens hs.ended hround] at hfirst
    cases r with
    | none =>
      cases hfirst
      rw [(leads_clauseWord _ _ _ _ hround).1 rfl] at hsecond
      exact hsecond
    | some c =>
      obtain ⟨cs₁, s₂, hrest, hlast⟩ := bind_eq_ok hfirst
      cases hlast
      obtain ⟨word, hword, -⟩ := (leads_clauseWord _ _ _ _ hround).2 nofun
      have hahead : s.ahead ≠ [] := State.ahead_ne_nil hs.ended (by rw [hword]; exact nofun)
      obtain ⟨hreaches, ⟨h₁, hless⟩, hsame⟩ := continues_clause (settles_expression hrecover) h
        (fun hnil => absurd hnil hahead) hs _ _ hround
      rw [many_eq hshortens (s := s.followed more) heof (hsame hwhole)]
      exact bind_ok (ih _ (hlength ▸ hless nofun) (hreaches.before hs) h₁ hrest rfl)

theorem rests_singleQuery (hword : more.word = .UNION) : Rests more (singleQuery config) := by
  intro whole n s h
  have hround : RestsRound more (clause (expression config)) :=
    fun _ _ _ h => continues_clause (settles_expression hrecover) h fun _ => hword
  refine Continues.start ((hround.many h).bind fun clauses s h => ?_)
  split
  · exact Continues.fail
  · exact Continues.spanFrom (Continues.pure h)

theorem rests_unionPart (hword : more.word = .UNION) (j : Joined) :
    Rests more (unionPart config j) := by
  intro whole n s h
  have hpart {s : State} (h : Along whole n true s) (all : Bool) : Continues more whole (do
      let right ← singleQuery config
      let span := ⟨j.body.span.start, right.span.stop⟩
      return (⟨.union all j.body right span, j.height + 1⟩ : Joined)) s fun _ => Along whole n true :=
    (rests_singleQuery hrecover hword h).bind fun _ _ h => Continues.pure h
  refine Continues.checkHeight ?_
  exact Continues.consume rfl (fun hall => hpart (h.pass hall rfl) _) fun _ => hpart h _

theorem continues_joinPart (hword : more.word = .UNION) {j : Joined} (hne : s.current.kind ≠ .eof)
    (h : Along whole n true s) :
    Continues more whole (joinPart config j) s fun r s' =>
      Along whole n true s' ∧ ∀ j', r = .yield j' → s'.ahead.length < s.ahead.length := by
  refine Continues.consumeDue nofun hne (fun hunion => ?_) fun _ => Continues.pure ⟨h, nofun⟩
  refine (Continues.shorter h.ended hne (rests_unionPart hrecover hword j (h.pass hunion rfl))).bind
    fun j' s' h => Continues.pure ⟨h.1, fun _ _ => h.2⟩

/-- The parts of the shorter text are joined first in the longer one. -/
theorem joined_followed (hwhole : Complete whole) (hs : s.Before more)
    (heof : more.eof.kind = .eof) (hword : more.word = .UNION) (h : Along whole n true s)
    {j j' : Joined} (hrun : iterate (joinPart config) j s = .ok j' s') :
    iterate (joinPart config) j (s.followed more)
      = iterate (joinPart config) j' (s'.followed more) := by
  induction hlength : s.ahead.length using Nat.strong_induction_on generalizing s j with
  | _ m ih =>
    obtain ⟨r, s₁, hround, -⟩ := bind_eq_ok (p := joinPart config j) hrun
    rw [joined_eq hs.ended hround] at hrun
    have hleads := leads_joinPartWord config j hs.ended _ _ hround
    cases r with
    | done b =>
      obtain ⟨rfl, rfl⟩ := hleads
      cases hrun
      rfl
    | yield b =>
      obtain ⟨hunion, hlt, -⟩ := hleads
      obtain ⟨hreaches, ⟨h₁, -⟩, hsame⟩ := continues_joinPart hrecover hword
        (by rw [hunion]; exact nofun) h hs _ _ hround
      rw [joined_eq (s := s.followed more) heof (hsame hwhole)]
      exact ih _ (hlength ▸ hlt) (hreaches.before hs) h₁ hrun rfl

end Accepting

/-! ## Queries -/

/-- A single query is the clauses that a loop reads, of which there is one. -/
theorem singleQuery_eq_ok {p : SingleQuery} : singleQuery config s = .ok p s'
    ↔ many (clause (expression config)) s = .ok p.clauses s' ∧ p.clauses ≠ []
      ∧ p.span = ⟨s.current.span.start, max s'.stop s.current.span.start⟩ := by
  constructor
  · have hparts : Leads (singleQuery config) s fun p s' =>
        many (clause (expression config)) s = .ok p.clauses s' ∧ p.clauses ≠ []
          ∧ p.span = ⟨s.current.span.start, max s'.stop s.current.span.start⟩ := by
      refine Leads.startHere (Leads.bind (fun cs s' h => h) fun cs s' h => ?_)
      split
      · exact Leads.fail
      · next hsome =>
        refine Leads.spanHere (Leads.pure ⟨h, ?_, rfl⟩)
        rintro rfl
        exact hsome rfl
    exact fun h => hparts _ _ h
  · rintro ⟨hclauses, hsome, hspan⟩
    obtain ⟨cs, span⟩ := p
    dsimp only at hclauses hsome hspan
    rw [singleQuery, bind_ok (p := start) (s := s) rfl, bind_ok hclauses, if_neg (by simpa using hsome),
      hspan]
    rfl

theorem leads_endOfQuery (s : State) :
    Leads endOfQuery s fun _ s' => s.current.kind = .eof ∧ s' = s := by
  refine Leads.current ?_
  split
  · next hkind => exact Leads.pure ⟨hkind, rfl⟩
  · exact Leads.fail

/-- A query is a header, a single query and what is joined to it, up to the end. -/
theorem query_eq_ok {q : Query} : query config s = .ok q s'
    ↔ ∃ s₁ first s₂ j, version s = .ok q.version s₁ ∧ singleQuery config s₁ = .ok first s₂
      ∧ iterate (joinPart config) ⟨.single first, 1⟩ s₂ = .ok j s' ∧ s'.current.kind = .eof
      ∧ q.body = j.body
      ∧ q.span = ⟨s.current.span.start, max s'.stop s.current.span.start⟩ := by
  constructor
  · have hparts : Leads (query config) s fun q s' => ∃ s₁ first s₂ j,
        version s = .ok q.version s₁ ∧ singleQuery config s₁ = .ok first s₂
          ∧ iterate (joinPart config) ⟨.single first, 1⟩ s₂ = .ok j s' ∧ s'.current.kind = .eof
          ∧ q.body = j.body
          ∧ q.span = ⟨s.current.span.start, max s'.stop s.current.span.start⟩ := by
      refine Leads.startHere (Leads.bind (fun _ _ h => h) fun header s₁ hversion => ?_)
      have hbody : Leads (queryBody config) s₁ fun body s₃ => ∃ first s₂ j,
          singleQuery config s₁ = .ok first s₂
            ∧ iterate (joinPart config) ⟨.single first, 1⟩ s₂ = .ok j s₃ ∧ body = j.body :=
        Leads.bind (fun _ _ h => h) fun first s₂ hfirst =>
          Leads.bind (fun _ _ h => h) fun j s₃ hjoined =>
            Leads.pure ⟨first, s₂, j, hfirst, hjoined, rfl⟩
      refine hbody.bind fun body s₃ ⟨first, s₂, j, hfirst, hjoined, hbody⟩ => ?_
      refine (leads_endOfQuery s₃).bind fun _ s' ⟨hkind, hsame⟩ => Leads.spanHere (Leads.pure ?_)
      subst hsame
      exact ⟨s₁, first, s₂, j, hversion, hfirst, hjoined, hkind, hbody, rfl⟩
    exact fun h => hparts _ _ h
  · rintro ⟨s₁, first, s₂, j, hversion, hfirst, hjoined, hkind, hbody, hspan⟩
    obtain ⟨header, body, span⟩ := q
    dsimp only at hversion hbody hspan
    have hqueryBody : queryBody config s₁ = .ok j.body s' := by
      rw [queryBody, bind_ok hfirst, bind_ok hjoined]
      rfl
    have hend : endOfQuery s' = .ok () s' := by
      rw [endOfQuery, bind_ok (p := current) (s := s') rfl, if_pos hkind]
      rfl
    rw [query, bind_ok (p := start) (s := s) rfl, bind_ok hversion, bind_ok hqueryBody,
      bind_ok hend, hbody, hspan]
    rfl

/-- Where the text ends nothing is joined. -/
theorem joined_of_eof (hs : s.current.kind = .eof) (j : Joined) :
    iterate (joinPart config) j s = .ok j s := by
  have hnone : consume (.keyword .UNION) s = .ok false s := if_neg (by rw [hs]; exact nofun)
  have hround : joinPart config j s = .ok (.done j) s := bind_ok hnone
  exact bind_ok hround

theorem rests_version : Rests more version := by
  intro whole n s h
  refine Continues.consume rfl (fun hword => ?_) fun _ => Continues.pure h
  refine Continues.current (fun hs _ => ?_) ?_
  · simp only [more.kind, show s.advance.eof.kind = .eof from hs.ended]
  · split
    · next hdue =>
      exact Continues.advance (by rw [hdue]; exact nofun) (Continues.pure ((h.pass hword rfl).pass hdue rfl))
    · next hdue =>
      exact Continues.advance (by rw [hdue]; exact nofun) (Continues.pure ((h.pass hword rfl).pass hdue rfl))
    · exact Continues.fail

section Accepting

variable (hrecover : config.recover = false)

include hrecover

/-- Where a query has been read to its end, its text is complete. -/
theorem along_of_query {q : Query} (hs : s.Ended) (h : query config s = .ok q s') :
    Along s.ahead 0 true s' := by
  have hbefore : s.Before (Sequel.union s.eof.span) := ⟨hs, rfl⟩
  obtain ⟨s₁, first, s₂, j, hversion, hfirst, hjoined, -⟩ := query_eq_ok.1 h
  obtain ⟨hreaches, h₁, -⟩ := rests_version (Along.start hs) hbefore _ _ hversion
  obtain ⟨hreaches', h₂, -⟩ := rests_singleQuery hrecover rfl h₁ (hreaches.before hbefore) _ _ hfirst
  have hloop : Leads (iterate (joinPart config) ⟨.single first, 1⟩) s₂ fun _ s' =>
      s'.Before (Sequel.union s.eof.span) ∧ Along s.ahead 0 true s' := by
    refine Leads.iterate ⟨(hreaches.trans hreaches').before hbefore, h₂⟩ ?_
    intro j s ⟨hbefore, h⟩ r s' hround
    have hleads := leads_joinPartWord config j hbefore.ended _ _ hround
    cases r with
    | done b =>
      rw [hleads.2]
      exact ⟨hbefore, h⟩
    | yield b =>
      obtain ⟨hreaches, ⟨h, -⟩, -⟩ := continues_joinPart hrecover rfl
        (by rw [hleads.1]; exact nofun) h hbefore _ _ hround
      exact ⟨hreaches.before hbefore, h⟩
  exact (hloop _ _ hjoined).2

end Accepting

/-- A union has its height from the number of its parts, and no parts but the first
where nothing has been read. -/
theorem leads_joined (config : Config) (first : SingleQuery) (hs : s.Ended) :
    Leads (iterate (joinPart config) ⟨.single first, 1⟩) s fun j s' =>
      j.height = j.body.parts.length
        ∧ (j.body = .single first ∧ s' = s ∨ ∃ all left right span, j.body = .union all left right span) := by
  have hloop : Leads (iterate (joinPart config) ⟨.single first, 1⟩) s fun j s' =>
      s'.Ended ∧ j.height = j.body.parts.length ∧ (j.body = .single first ∧ s' = s
        ∨ ∃ all left right span, j.body = .union all left right span) := by
    refine Leads.iterate ⟨hs, rfl, .inl ⟨rfl, rfl⟩⟩ ?_
    intro j s₁ h r s₂ hround
    have hleads := leads_joinPartWord config j h.1 _ _ hround
    cases r with
    | done b =>
      obtain ⟨rfl, rfl⟩ := hleads
      exact h
    | yield b =>
      obtain ⟨-, -, ⟨all, right, span, hbody⟩, hheight⟩ := hleads
      refine ⟨(proceeds_joinPart config j _ _ _ hround).ended h.1, ?_, .inr ⟨all, _, right, span, hbody⟩⟩
      show b.height = b.body.parts.length
      rw [hheight, hbody, QueryBody.parts, List.length_append, ← h.2.1]
      rfl
  exact hloop.mono fun _ _ h => h.2

section Accepting

variable (hrecover : config.recover = false)

include hrecover

omit hrecover in
theorem singleQuery_reaches {p : SingleQuery} (h : singleQuery config s = .ok p s') :
    s.Reaches s' := by
  have hV : Inherited False config fun _ => True := fun _ _ _ => trivial
  obtain ⟨hadvances, -⟩ := (ensures_singleQuery hV).ok h
  exact ⟨hadvances.ahead.length_le, hadvances.eof⟩

/-- A single query with the clauses of another one behind it is read as all the clauses. -/
theorem query_clauses_followed {q : Query} {p p' : SingleQuery} (hs : s.Before more)
    (heof : more.eof.kind = .eof) (hrun : query config s = .ok q s') (hend : s'.ahead = [])
    (hbody : q.body = .single p) (hsecond : singleQuery config (s'.followed more) = .ok p' s'')
    (hlast : s''.current.kind = .eof) :
    ∃ q' p'', query config (s.followed more) = .ok q' s'' ∧ q'.version = q.version
      ∧ q'.body = .single p'' ∧ p''.clauses = p.clauses ++ p'.clauses := by
  have hwhole := (along_of_query hrecover hs.ended hrun).complete hend
  obtain ⟨s₁, first, s₂, j, hversion, hfirst, hjoined, -, hj, -⟩ := query_eq_ok.1 hrun
  obtain ⟨hreaches, h₁, hversion'⟩ := rests_version (Along.start hs.ended) hs _ _ hversion
  have hs₁ := hreaches.before hs
  have hs₂ := (singleQuery_reaches hfirst).before hs₁
  obtain ⟨hsingle, rfl⟩ : j.body = .single first ∧ s' = s₂ := by
    rcases (leads_joined config first hs₂.ended _ _ hjoined).2 with h | ⟨all, left, right, span, h⟩
    · exact h
    · rw [← hj, hbody] at h
      cases h
  obtain rfl : first = p := by
    rw [← hj, hbody] at hsingle
    exact (QueryBody.single.inj hsingle).symm
  obtain ⟨hclauses, hsome, -⟩ := singleQuery_eq_ok.1 hfirst
  obtain ⟨hclauses', -, -⟩ := singleQuery_eq_ok.1 hsecond
  have hall := clauses_followed hrecover hwhole hs₁ heof h₁ hclauses hclauses'
  let whole : SingleQuery := ⟨first.clauses ++ p'.clauses,
    ⟨(s₁.followed more).current.span.start, max s''.stop (s₁.followed more).current.span.start⟩⟩
  have hread : singleQuery config (s₁.followed more) = .ok whole s'' :=
    singleQuery_eq_ok.2 ⟨hall, fun h => hsome (List.append_eq_nil_iff.1 h).1, rfl⟩
  exact ⟨⟨q.version, .single whole, _⟩, whole, query_eq_ok.2 ⟨_, _, _, _, hversion' hwhole, hread,
    joined_of_eof hlast _, hlast, rfl, rfl⟩, rfl, rfl, rfl⟩

/-- A query with `UNION` and a single query behind it is read as the union of both. -/
theorem query_union_followed {q : Query} {p : SingleQuery} {all : Bool} {s₁ : State}
    (hs : s.Before more) (heof : more.eof.kind = .eof) (hword : more.word = .UNION)
    (hrun : query config s = .ok q s') (hend : s'.ahead = [])
    (hlow : q.body.parts.length + 1 ≤ config.maxDepth)
    (hall : consume (.keyword .ALL) (s'.followed more).advance = .ok all s₁)
    (hsecond : singleQuery config s₁ = .ok p s'') (hlast : s''.current.kind = .eof) :
    ∃ q' span, query config (s.followed more) = .ok q' s'' ∧ q'.version = q.version
      ∧ q'.body = .union all q.body p span := by
  have hwhole := (along_of_query hrecover hs.ended hrun).complete hend
  obtain ⟨s₂, first, s₃, j, hversion, hfirst, hjoined, -, hj, -⟩ := query_eq_ok.1 hrun
  obtain ⟨hreaches, h₂, hversion'⟩ := rests_version (Along.start hs.ended) hs _ _ hversion
  have hs₂ := hreaches.before hs
  obtain ⟨hreaches', h₃, hfirst'⟩ := rests_singleQuery hrecover hword h₂ hs₂ _ _ hfirst
  have hs₃ := hreaches'.before hs₂
  have hheight := (leads_joined config first hs₃.ended _ _ hjoined).1
  have hunion : consume (.keyword .UNION) (s'.followed more)
      = .ok true (s'.followed more).advance := by
    apply if_pos
    rw [State.current_followed_of_nil hend, more.kind, hword]
  let span : Span := ⟨j.body.span.start, p.span.stop⟩
  let whole : Joined := ⟨.union all j.body p span, j.height + 1⟩
  have hpart : unionPart config j (s'.followed more).advance = .ok whole s'' := by
    have hcheck : checkHeight config (j.height + 1) = pure () := by
      rw [hheight, ← hj]
      exact if_pos hlow
    rw [unionPart, hcheck, pure_bind, bind_ok hall, bind_ok hsecond]
    rfl
  have hround : joinPart config j (s'.followed more) = .ok (.yield whole) s'' := by
    rw [joinPart, bind_ok hunion, if_pos rfl, bind_ok hpart]
    rfl
  have hloop : iterate (joinPart config) ⟨.single first, 1⟩ (s₃.followed more) = .ok whole s'' := by
    rw [joined_followed hrecover hwhole hs₃ heof hword h₃ hjoined,
      joined_eq (s := s'.followed more) heof hround]
    exact joined_of_eof hlast _
  refine ⟨⟨q.version, whole.body, _⟩, span, query_eq_ok.2 ⟨_, _, _, _, hversion' hwhole,
    hfirst' hwhole, hloop, hlast, rfl, rfl⟩, rfl, ?_⟩
  rw [hj]

end Accepting

end Cypher.Grammar
