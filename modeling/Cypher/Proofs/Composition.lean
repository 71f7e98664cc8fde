import Cypher.Proofs.Compared.Truncated
import Cypher.Proofs.Continued.Query
import Cypher.Proofs.Leaves.Query
import Cypher.Proofs.Lexing.Seam
import Cypher.Proofs.Tree.Moved

/-!
# Queries compose

An accepted text with an accepted single query on a further line is accepted
too: the clauses of the one come before those of the other, or both become the
parts of a union if `UNION` stands between them. The newline parts the tokens,
the reading of the first text comes to the place where it ended before, and the
second text is read from there as it is read from its own start.
-/

namespace Cypher

open Grammar

/-! ## Reading a text -/

/-- Where the reading of the tokens starts. -/
def TokenStream.opening (stream : TokenStream) : State :=
  { ahead := stream.tokens, eof := stream.eof }

/-- A text is accepted if nothing is wrong with it as it is read without recovery. -/
theorem parse_eq_ok_iff_query {text : String} {config : Config} {q : Query} :
    parse text config = .ok q ↔ (TokenStream.ofText text).faults = []
      ∧ ∃ s, query ⟨config.maxDepth, false⟩ (TokenStream.ofText text).opening = .ok q s
        ∧ s.faults = [] := by
  have hplain : parse text config = .ok q ↔ parse text ⟨config.maxDepth, false⟩ = .ok q := by
    obtain ⟨limit, recover⟩ := config
    cases recover with
    | false => rfl
    | true =>
      obtain ⟨grammatical, hon, hoff⟩ := Outcome.ofTokens_truncated (TokenStream.ofText text) limit
      rw [parse_eq_ok_iff, parse_eq_ok_iff]
      unfold Outcome.ofText
      cases grammatical with
      | nil => rw [hoff]
      | cons first more =>
        rw [hoff, hon]
        simp
  rw [hplain, parse_eq_ok_iff]
  unfold Outcome.ofText Outcome.ofTokens
  generalize TokenStream.ofText text = stream
  have hopening : ({ ahead := stream.tokens, eof := stream.eof } : State) = stream.opening := rfl
  rw [hopening]
  cases hrun : query ⟨config.maxDepth, false⟩ stream.opening with
  | ok q' s =>
    simp only [Option.some.injEq, List.append_eq_nil_iff]
    constructor
    · rintro ⟨rfl, hlexical, hfaults⟩
      exact ⟨hlexical, s, rfl, hfaults⟩
    · rintro ⟨hlexical, s', heq, hfaults⟩
      cases heq
      exact ⟨rfl, hlexical, hfaults⟩
  | error fault s => simp

namespace Grammar

variable {config : Config} {s s' t : State}

/-! ## Reading again -/

/-- No name is folded, so that trees are compared up to their spans. -/
theorem folding_nil : Recasting.folding [] = .erasing := by
  have hspell : foldCase [] = id := funext fun n => if_neg List.not_mem_nil
  rw [Recasting.folding, hspell]
  rfl

/-- What has been read once is read again wherever the same tokens stand. -/
theorem reread {α β : Type} {spell : String → String} {p : Parser α} {f : α → β} {a : α}
    (h : (respelling spell).Agrees p p f) (hstep : Aligned spell s t) (hrun : p s = .ok a s') :
    ∃ a' t', p t = .ok a' t' ∧ f a' = f a ∧ Aligned spell s' t' := by
  have hmeets := h.meets hstep
  rw [hrun] at hmeets
  generalize p t = r at hmeets
  cases hmeets with
  | ok answer states => exact ⟨_, _, rfl, answer.symm, states⟩

theorem singleQuery_reread {p : SingleQuery} (hstep : InStep [] s t)
    (hrun : singleQuery config s = .ok p s') :
    ∃ p' t', singleQuery config t = .ok p' t' ∧ p'.erase = p.erase ∧ InStep [] s' t' := by
  have hagrees := Comparison.Agrees.singleQuery (relayout_lawful [] config)
    fun h => absurd h (Nat.lt_irrefl _)
  obtain ⟨p', t', hrun', heq, hstep'⟩ := reread hagrees hstep hrun
  have hview : (relayout []).view = .erasing := folding_nil
  rw [hview, SingleQuery.recast_erasing, SingleQuery.recast_erasing] at heq
  exact ⟨p', t', hrun', heq, hstep'⟩

theorem query_reread {q : Query} (hstep : InStep [] s t) (hrun : query config s = .ok q s') :
    ∃ q' t', query config t = .ok q' t' ∧ q'.erase = q.erase ∧ InStep [] s' t' := by
  have hagrees := Comparison.Agrees.query (relayout_lawful [] config)
    fun h => absurd h (Nat.lt_irrefl _)
  obtain ⟨q', t', hrun', heq, hstep'⟩ := reread hagrees hstep hrun
  have hview : (relayout []).view = .erasing := folding_nil
  rw [hview, Query.recast_erasing, Query.recast_erasing] at heq
  exact ⟨q', t', hrun', heq, hstep'⟩

/-- A query is read to the end of its text. -/
theorem ends_of_query {q : Query} (hs : ∀ t ∈ s.ahead, t.kind ≠ .eof)
    (hrun : query config s = .ok q s') : s'.ahead = [] ∧ s'.depth = s.depth := by
  have hV : Inherited False config fun _ => True := fun _ _ _ => trivial
  obtain ⟨hadvances, -⟩ := (ensures_query hV).ok hrun
  obtain ⟨-, -, -, -, -, -, -, hkind, -⟩ := query_eq_ok.1 hrun
  refine ⟨?_, hadvances.depth⟩
  cases hahead : s'.ahead with
  | nil => rfl
  | cons t rest =>
    have hmem : t ∈ s.ahead := hadvances.ahead.mem (by rw [hahead]; exact List.mem_cons_self)
    rw [State.current, hahead] at hkind
    exact absurd hkind (hs t hmem)

/-- A query without a header and a union is a single query. -/
theorem singleQuery_of_query {q : Query} {p : SingleQuery} (hs : s.Ended)
    (hrun : query config s = .ok q s') (hversion : q.version = none) (hbody : q.body = .single p) :
    singleQuery config s = .ok p s' ∧ s'.current.kind = .eof := by
  obtain ⟨s₁, first, s₂, j, hheader, hfirst, hjoined, hkind, hj, -⟩ := query_eq_ok.1 hrun
  have hnone : Leads version s fun header s' => header = none → s' = s := by
    refine Leads.consume (fun _ => Leads.current ?_) fun _ => Leads.pure fun _ => rfl
    split
    · exact Leads.advance (Leads.pure nofun)
    · exact Leads.advance (Leads.pure nofun)
    · exact Leads.fail
  obtain rfl := hnone _ _ hheader hversion
  have hended := (singleQuery_reaches hfirst).ended hs
  rcases (leads_joined config first hended _ _ hjoined).2 with ⟨hsingle, rfl⟩ | ⟨_, _, _, _, hunion⟩
  · rw [← hj, hbody] at hsingle
    obtain rfl := QueryBody.single.inj hsingle
    exact ⟨hfirst, hkind⟩
  · rw [← hj, hbody] at hunion
    cases hunion

/-- A single query starts with the word of a clause. -/
theorem starts_of_singleQuery {p : SingleQuery} (hrun : singleQuery config s = .ok p s') :
    ∃ word, s.current.kind = .keyword word ∧ word.startsClause = true ∧ word ≠ .UNION := by
  obtain ⟨hclauses, hsome, -⟩ := singleQuery_eq_ok.1 hrun
  obtain ⟨r, s₁, hround, hrest⟩ := bind_eq_ok (p := clause (expression config)) hclauses
  cases r with
  | none =>
    exact absurd (EStateM.Result.ok.inj hrest).1.symm hsome
  | some c => exact (leads_clauseWord _ _ _ _ hround).2 nofun

/-! ## Reading on -/

/-- The tokens are read as the query, and nothing is wrong. -/
structure Accepted (config : Config) (stream : TokenStream) (q : Query) : Prop where
  proper : ∀ t ∈ stream.tokens, t.kind ≠ .eof
  ended : stream.eof.kind = .eof
  run : ∃ s, query config stream.opening = .ok q s ∧ s.faults = []

theorem map_folded_shift (words : List String) (bytes lines : Nat) (ts : List Token) :
    (ts.map (Token.shift bytes lines)).map (folded words) = ts.map (folded words) := by
  rw [List.map_map]
  rfl

/-- What is the same as a single query up to spans is a single query. -/
theorem exists_single {body : QueryBody} {p : SingleQuery}
    (h : body.erase = (QueryBody.single p).erase) :
    ∃ p', body = .single p' ∧ p'.erase = p.erase := by
  cases body with
  | single p' => exact ⟨p', rfl, QueryBody.single.inj h⟩
  | union => cases h

theorem parts_erase (body : QueryBody) :
    body.erase.parts = body.parts.map SingleQuery.erase := by
  induction body with
  | single p => rfl
  | union all left right span ih =>
    show left.erase.parts ++ [right.erase] = _
    rw [ih, QueryBody.parts, List.map_append]
    rfl

section Composed

variable {first second : TokenStream} {q q₁ q₂ : Query} {p p₁ p₂ : SingleQuery} {bytes lines : Nat}

/-- Where a text ends has no part in how it is read, so that it may be where another begins. -/
theorem Accepted.before (h : Accepted config first q) (more : Sequel) :
    ∃ s q' s', s.Before more
      ∧ s.followed more = { ahead := first.tokens ++ more.tokens, eof := more.eof }
      ∧ query config s = .ok q' s' ∧ q'.erase = q.erase
      ∧ s'.ahead = [] ∧ s'.depth = 0 ∧ s'.faults = [] := by
  obtain ⟨s₁, hrun, hfaults⟩ := h.run
  let s : State := { ahead := first.tokens, eof := { first.eof with span := more.first.span } }
  have hstep : InStep [] first.opening s := ⟨rfl, rfl, rfl, rfl⟩
  obtain ⟨q', s', hrun', herase, hstep'⟩ := query_reread hstep hrun
  obtain ⟨hahead, hdepth⟩ := ends_of_query h.proper hrun'
  have hcodes := hstep'.codes
  rw [hfaults, List.map_nil, eq_comm, List.map_eq_nil_iff] at hcodes
  exact ⟨s, q', s', ⟨h.ended, rfl⟩, rfl, hrun', herase, hahead, hdepth, hcodes⟩

/-- A single query is read again where its tokens stand further on. -/
theorem Accepted.again (h : Accepted config second q) (hversion : q.version = none)
    (hbody : q.body = .single p) {t : State}
    (hahead : t.ahead.map (folded []) = second.tokens.map (folded []))
    (heof : folded [] t.eof = folded [] second.eof) (hdepth : t.depth = 0) (hfaults : t.faults = []) :
    ∃ p' t', singleQuery config t = .ok p' t' ∧ p'.erase = p.erase
      ∧ t'.current.kind = .eof ∧ t'.faults = [] := by
  obtain ⟨s, hrun, hnone⟩ := h.run
  obtain ⟨hsingle, hkind⟩ := singleQuery_of_query (s := second.opening) h.ended hrun hversion hbody
  have hstep : InStep [] second.opening t :=
    ⟨hahead.symm, heof.symm, hdepth.symm, by rw [hfaults]; rfl⟩
  obtain ⟨p', t', hrun', herase, hstep'⟩ := singleQuery_reread hstep hsingle
  have hcodes := hstep'.codes
  rw [hnone, List.map_nil, eq_comm, List.map_eq_nil_iff] at hcodes
  refine ⟨p', t', hrun', herase, ?_, hcodes⟩
  rw [← hkind]
  exact (congrArg Prod.fst hstep'.current).symm

/-- A single query without a header starts with the word of a clause. -/
theorem Accepted.starts (h : Accepted config second q) (hversion : q.version = none)
    (hbody : q.body = .single p) :
    ∃ t rest word, second.tokens = t :: rest ∧ t.kind = .keyword word
      ∧ word.startsClause = true ∧ word ≠ .UNION := by
  obtain ⟨s, hrun, -⟩ := h.run
  obtain ⟨hsingle, -⟩ := singleQuery_of_query (s := second.opening) h.ended hrun hversion hbody
  obtain ⟨word, hword, hstarts, hunion⟩ := starts_of_singleQuery hsingle
  cases htokens : second.tokens with
  | nil =>
    have hcurrent : second.opening.current = second.eof := State.current_of_nil htokens
    rw [hcurrent, h.ended] at hword
    cases hword
  | cons t rest =>
    refine ⟨t, rest, word, rfl, ?_, hstarts, hunion⟩
    rw [State.current, show second.opening.ahead = _ from htokens] at hword
    exact hword

theorem proper_followedBy (h₁ : ∀ t ∈ first.tokens, t.kind ≠ .eof)
    (h₂ : ∀ t ∈ second.tokens, t.kind ≠ .eof) (bytes lines : Nat) :
    ∀ t ∈ (first.followedBy second bytes lines).tokens, t.kind ≠ .eof := by
  intro t ht
  rcases List.mem_append.1 ht with ht | ht
  · exact h₁ t ht
  · obtain ⟨u, hu, rfl⟩ := List.mem_map.1 ht
    exact h₂ u hu

/-- The clauses of a further text go on with those of a single query. -/
theorem Accepted.clauses (hrecover : config.recover = false) (h₁ : Accepted config first q₁)
    (h₂ : Accepted config second q₂) (hversion : q₂.version = none) (hbody₁ : q₁.body = .single p₁)
    (hbody₂ : q₂.body = .single p₂) :
    ∃ q p, Accepted config (first.followedBy second bytes lines) q ∧ q.version = q₁.version
      ∧ q.body = .single p ∧ p.clauses.map Clause.erase
        = p₁.clauses.map Clause.erase ++ p₂.clauses.map Clause.erase := by
  obtain ⟨t, rest, word, htokens, hword, hstarts, -⟩ := h₂.starts hversion hbody₂
  let more : Sequel := ⟨t.shift bytes lines, rest.map (Token.shift bytes lines),
    second.eof.shift bytes lines, word, hword, hstarts⟩
  have hmore : more.tokens = second.tokens.map (Token.shift bytes lines) := by
    rw [htokens]
    rfl
  obtain ⟨s, q', s', hs, hfollowed, hrun, herase, hahead, hdepth, hfaults⟩ := h₁.before more
  have hback : (s'.followed more).ahead.map (folded []) = second.tokens.map (folded []) := by
    show (s'.ahead ++ more.tokens).map (folded []) = _
    rw [hahead, hmore]
    exact map_folded_shift [] bytes lines second.tokens
  obtain ⟨p', s'', hsecond, herase₂, hkind, hfaults'⟩ :=
    h₂.again hversion hbody₂ hback rfl hdepth hfaults
  obtain ⟨hheader, hbodies, -⟩ := Query.mk.inj herase
  obtain ⟨p₁', hbody, hp₁⟩ := exists_single (hbodies.trans (congrArg QueryBody.erase hbody₁))
  obtain ⟨q, p, hwhole, hversion', hsingle, hclauses⟩ :=
    query_clauses_followed hrecover hs h₂.ended hrun hahead hbody hsecond hkind
  have hopening : (first.followedBy second bytes lines).opening = s.followed more := by
    rw [hfollowed, hmore]
    rfl
  refine ⟨q, p, ⟨proper_followedBy h₁.proper h₂.proper _ _, h₂.ended, s'', ?_, hfaults'⟩,
    hversion'.trans hheader, hsingle, ?_⟩
  · rw [hopening, hwhole]
  · rw [hclauses, List.map_append]
    exact congrArg₂ (· ++ ·) (congrArg SingleQuery.clauses hp₁)
      (congrArg SingleQuery.clauses herase₂)

/-- A further text becomes a part of a union if `UNION` stands in front of it. -/
theorem Accepted.union (hrecover : config.recover = false) {middle : TokenStream} {all : Bool}
    {bytes' lines' : Nat} (h₁ : Accepted config first q₁) (h₂ : Accepted config second q₂)
    (hversion : q₂.version = none) (hbody : q₂.body = .single p₂)
    (hmiddle : middle.tokens.map Token.kind
      = .keyword .UNION :: if all then [.keyword .ALL] else [])
    (hlow : q₁.body.parts.length + 1 ≤ config.maxDepth) :
    ∃ q left right span, Accepted config
        (first.followedBy (middle.followedBy second bytes' lines') bytes lines) q
      ∧ q.version = q₁.version ∧ q.body = .union all left right span
      ∧ left.erase = q₁.body.erase ∧ right.erase = p₂.erase := by
  obtain ⟨u, words, htokens, hu, hwords⟩ := List.map_eq_cons_iff.1 hmiddle
  obtain ⟨t, rest, word, hsecond, hword, hstarts, -⟩ := h₂.starts hversion hbody
  let back := (second.tokens.map (Token.shift bytes' lines')).map (Token.shift bytes lines)
  have hback : back.map (folded []) = second.tokens.map (folded []) := by
    rw [map_folded_shift, map_folded_shift]
  let more : Sequel := ⟨u.shift bytes lines, words.map (Token.shift bytes lines) ++ back,
    (second.eof.shift bytes' lines').shift bytes lines, .UNION, hu, rfl⟩
  obtain ⟨s, q', s', hs, hfollowed, hrun, herase, hahead, hdepth, hfaults⟩ := h₁.before more
  obtain ⟨hheader, hbodies, -⟩ := Query.mk.inj herase
  -- Behind `UNION` there is `ALL` or not, and then the second text.
  have hadvance : (s'.followed more).advance = { s' with
      previous := some more.first, ahead := words.map (Token.shift bytes lines) ++ back,
      eof := more.eof } := by
    unfold State.followed State.advance
    rw [hahead]
    rfl
  obtain ⟨s₁, hall, hahead₁, heof₁, hdepth₁, hfaults₁⟩ : ∃ s₁,
      consume (.keyword .ALL) (s'.followed more).advance = .ok all s₁ ∧ s₁.ahead = back
        ∧ s₁.eof = more.eof ∧ s₁.depth = 0 ∧ s₁.faults = [] := by
    rw [hadvance]
    cases all with
    | true =>
      obtain ⟨a, rfl, ha⟩ := List.map_eq_singleton_iff.1 hwords
      exact ⟨_, if_pos ha, rfl, rfl, hdepth, hfaults⟩
    | false =>
      obtain rfl := List.map_eq_nil_iff.1 hwords
      refine ⟨_, if_neg ?_, rfl, rfl, hdepth, hfaults⟩
      have hcurrent : (back.headD more.eof).kind = .keyword word := by
        simp only [back, hsecond, List.map_cons, List.headD_cons]
        exact hword
      intro hkind
      cases hcurrent.symm.trans hkind
      cases hstarts
  obtain ⟨p', s'', hread, herase₂, hkind, hfaults'⟩ :=
    h₂.again hversion hbody (hahead₁ ▸ hback) (by rw [heof₁]; rfl) hdepth₁ hfaults₁
  have hcount : q'.body.parts.length = q₁.body.parts.length := by
    have hparts := congrArg List.length (congrArg QueryBody.parts hbodies)
    rwa [← QueryBody.erase, ← QueryBody.erase, parts_erase, parts_erase, List.length_map,
      List.length_map] at hparts
  obtain ⟨q, span, hwhole, hversion', hunion⟩ :=
    query_union_followed hrecover hs h₂.ended rfl hrun hahead (hcount ▸ hlow) hall hread hkind
  have hopening : (first.followedBy (middle.followedBy second bytes' lines') bytes lines).opening
      = s.followed more := by
    unfold TokenStream.opening TokenStream.followedBy
    rw [hfollowed, htokens, List.map_append]
    rfl
  have hproper : ∀ t ∈ middle.tokens, t.kind ≠ .eof := by
    intro t ht heof
    have hmem := List.mem_map_of_mem (f := Token.kind) ht
    rw [hmiddle, heof] at hmem
    cases all <;> simp at hmem
  refine ⟨q, q'.body, p', span, ⟨?_, h₂.ended, s'', ?_, hfaults'⟩, hversion'.trans hheader, hunion,
    hbodies, herase₂⟩
  · exact proper_followedBy h₁.proper (proper_followedBy hproper h₂.proper _ _) _ _
  · rw [hopening, hwhole]

/-- No accepted text ends with a point. -/
theorem Accepted.behindDot (hrecover : config.recover = false) (h : Accepted config first q) :
    Token.behindDot false first.tokens = false := by
  obtain ⟨s, hrun, -⟩ := h.run
  have hwhole := (along_of_query hrecover (s := first.opening) h.ended hrun).complete
    (ends_of_query h.proper hrun).1
  rcases List.eq_nil_or_concat first.tokens with hnil | ⟨front, t, hconcat⟩
  · rw [hnil]
    rfl
  · have hlast := hwhole.settled t ⟨front, by rw [← List.concat_eq_append]; exact hconcat.symm⟩
    rw [hconcat, List.concat_eq_append, Token.behindDot_concat, decide_eq_false_iff_not]
    intro hdot
    rw [hdot] at hlast
    cases hlast

end Composed

end Grammar

/-! ## Texts on further lines -/

/-- The last word of the one text and the first word of the other are those of an operator. -/
def TokenStream.Fuses (first second : TokenStream) : Prop :=
  (first.tokens.getLast?.map Token.kind = some (.keyword .STARTS)
      ∨ first.tokens.getLast?.map Token.kind = some (.keyword .ENDS))
    ∧ first.tokens.dropLast.getLast?.map Token.kind ≠ some (.punctuation .dot)
    ∧ second.tokens.head?.map Token.kind = some (.keyword .WITH)

instance (first second : TokenStream) : Decidable (first.Fuses second) :=
  inferInstanceAs (Decidable (_ ∧ _))

/-- The words between the parts of a union. -/
def unionWords (all : Bool) : String := if all then "UNION ALL" else "UNION"

theorem kinds_unionWords (all : Bool) : (TokenStream.ofText (unionWords all)).tokens.map Token.kind
    = .keyword .UNION :: if all then [.keyword .ALL] else [] := by
  cases all <;> decide +kernel

theorem accepted_of_parse {text : String} {config : Config} {q : Query}
    (h : parse text config = .ok q) :
    Accepted ⟨config.maxDepth, false⟩ (TokenStream.ofText text) q
      ∧ (TokenStream.ofText text).faults = [] := by
  obtain ⟨hfaults, hrun⟩ := parse_eq_ok_iff_query.1 h
  exact ⟨⟨fun _ => TokenStream.ne_eof_of_mem, rfl, hrun⟩, hfaults⟩

/-- The first word of a clause begins no operator but `WITH`. -/
theorem seam_of_clause {first second : TokenStream} {t : Token} {rest : List Token} {word : Keyword}
    (hsecond : second.tokens = t :: rest) (hkind : t.kind = .keyword word)
    (hstarts : word.startsClause = true) (hfuses : ¬ first.Fuses second) :
    ∀ front words word', first.tokens = front ++ words → Token.behindDot false front = false →
      Token.Pending (words.map Token.kind) word' →
      second.tokens.head?.map Token.kind ≠ some (.keyword word') := by
  intro front words word' hfirst hdot hpending hhead
  have hword : word = word' := by
    rw [hsecond, List.head?_cons, Option.map_some, hkind] at hhead
    cases hhead
    rfl
  subst hword
  have hfront : front.getLast?.map Token.kind ≠ some (.punctuation .dot) := by
    intro hpoint
    obtain ⟨u, hlast, hu⟩ := Option.map_eq_some_iff.1 hpoint
    obtain ⟨before, rfl⟩ := List.getLast?_eq_some_iff.1 hlast
    rw [Token.behindDot_concat, hu] at hdot
    cases hdot
  generalize hkinds : words.map Token.kind = kinds at hpending
  cases hpending with
  | starts | ends =>
    obtain ⟨u, rfl, hu⟩ := List.map_eq_singleton_iff.1 hkinds
    refine hfuses ⟨?_, ?_, hhead⟩
    · rw [hfirst, List.getLast?_concat, Option.map_some, hu]
      simp
    · rwa [hfirst, List.dropLast_concat]
  | isNull | isNot | isNotNull => cases hstarts

theorem ofText_line {text text' : String} (hfaults : (TokenStream.ofText text).faults = [])
    (hdot : Token.behindDot false (TokenStream.ofText text).tokens = false)
    (hseam : ∀ front words word, (TokenStream.ofText text).tokens = front ++ words →
      Token.behindDot false front = false → Token.Pending (words.map Token.kind) word →
      (TokenStream.ofText text').tokens.head?.map Token.kind ≠ some (.keyword word)) :
    TokenStream.ofText (text ++ "\n" ++ text')
      = (TokenStream.ofText text).followedBy (TokenStream.ofText text')
        (Text.byteLength text.toList + 1) (Text.newlines text.toList + 1) := by
  have hchars : (text ++ "\n" ++ text').toList = text.toList ++ '\n' :: text'.toList := by
    simp only [String.toList_append, List.append_assoc]
    rfl
  unfold TokenStream.ofText
  rw [hchars]
  exact TokenStream.ofChars_newline (TokenStream.isOpen_of_faults hfaults) hdot hseam

theorem faults_followedBy {first second : TokenStream} (h₁ : first.faults = [])
    (h₂ : second.faults = []) (bytes lines : Nat) :
    (first.followedBy second bytes lines).faults = [] := by
  unfold TokenStream.followedBy
  rw [h₁, h₂]
  rfl

/-- The words of a union begin no operator. -/
theorem ofText_unionWords (all : Bool) (text : String) :
    TokenStream.ofText (unionWords all ++ "\n" ++ text)
      = (TokenStream.ofText (unionWords all)).followedBy (TokenStream.ofText text)
        (Text.byteLength (unionWords all).toList + 1)
        (Text.newlines (unionWords all).toList + 1) := by
  refine ofText_line (by cases all <;> decide +kernel) (by cases all <;> decide +kernel) ?_
  intro front words word htokens _ hpending
  have hmem : ∀ kind ∈ words.map Token.kind,
      kind ∈ Token.Kind.keyword .UNION :: if all then [.keyword .ALL] else [] := by
    rw [← kinds_unionWords, htokens, List.map_append]
    exact fun kind => List.mem_append_right _
  generalize words.map Token.kind = kinds at hpending hmem
  have hhead := hmem (kinds.headD .eof)
  cases hpending <;> cases all <;> simp at hhead

theorem head?_unionWords (all : Bool) (text : String) :
    (TokenStream.ofText (unionWords all ++ "\n" ++ text)).tokens.head?.map Token.kind
      = some (.keyword .UNION) := by
  obtain ⟨u, words, htokens, hu, -⟩ := List.map_eq_cons_iff.1 (kinds_unionWords all)
  rw [ofText_unionWords, TokenStream.followedBy, htokens]
  exact congrArg some hu

/-! ## Canonical texts -/

theorem textOf_append (gs gs' : List Glyph) :
    Glyph.textOf (gs ++ gs') = Glyph.textOf gs ++ Glyph.textOf gs' := by
  unfold Glyph.textOf
  rw [List.flatMap_append, String.ofList_append]

/-- The canonical text of a union is made of the texts of what it joins. -/
theorem text_union {q q₁ q₂ : Query} {all : Bool} {left : QueryBody} {right p : SingleQuery}
    {span : Span} (hversion : q.version = q₁.version) (hbody : q.body = .union all left right span)
    (hleft : left.erase = q₁.body.erase) (hright : right.erase = p.erase)
    (hnone : q₂.version = none) (hsingle : q₂.body = .single p) :
    q.text = q₁.text ++ " " ++ unionWords all ++ " " ++ q₂.text := by
  have hsame : q.erase = (⟨q₁.version, .union all q₁.body p span, q.span⟩ : Query).erase := by
    unfold Query.erase Query.rebuild
    rw [hversion, hbody]
    show Query.mk _ (.union all left.erase right.erase _) _ = _
    rw [hleft, hright]
    rfl
  have hwords : Glyph.textOf (.space :: .keyword .UNION :: .space
      :: if all then [.keyword .ALL, .space] else []) = " " ++ unionWords all ++ " " := by
    cases all <;> decide +kernel
  have hglyphs : (⟨q₁.version, .union all q₁.body p span, q.span⟩ : Query).glyphs
      = q₁.glyphs ++ (.space :: .keyword .UNION :: .space
        :: if all then [.keyword .ALL, .space] else []) ++ q₂.glyphs := by
    unfold Query.glyphs
    rw [hnone, hsingle]
    cases q₁.version <;> simp [QueryBody.glyphs]
  rw [Query.text_eq_of_erase_eq hsame, Query.text, hglyphs, textOf_append, textOf_append, hwords]
  simp only [Query.text, String.append_assoc]

/-! ## Accepted texts -/

/-- Accepted texts compose. Behind an accepted text let an accepted text with a
single query and no header stand on a further line. If the first one is a single
query too, and no operator would be made of its last word and the first word of
the second one, then both together are accepted as the single query with the
clauses of both. If the words of a union stand on a line between them, and there
is room for one more part, then both together are accepted as the union of the
first with the second, and so are its parts and its canonical text. -/
theorem parse_append {text text' : String} {config : Config} {q₁ q₂ : Query} {p₂ : SingleQuery}
    (h₁ : parse text config = .ok q₁) (h₂ : parse text' config = .ok q₂)
    (hversion : q₂.version = none) (hbody : q₂.body = .single p₂) :
    (∀ p₁, q₁.body = .single p₁ →
      ¬ (TokenStream.ofText text).Fuses (TokenStream.ofText text') →
      ∃ q p, parse (text ++ "\n" ++ text') config = .ok q ∧ q.version = q₁.version
        ∧ q.body = .single p ∧ p.clauses.map Clause.erase
          = p₁.clauses.map Clause.erase ++ p₂.clauses.map Clause.erase)
    ∧ (q₁.body.parts.length + 1 ≤ config.maxDepth → ∀ all,
      ∃ q left right span,
        parse (text ++ "\n" ++ unionWords all ++ "\n" ++ text') config = .ok q
        ∧ q.version = q₁.version ∧ q.body = .union all left right span
        ∧ left.erase = q₁.body.erase ∧ right.erase = p₂.erase
        ∧ q.body.parts.map SingleQuery.erase
          = q₁.body.parts.map SingleQuery.erase ++ [p₂.erase]
        ∧ q.text = q₁.text ++ " " ++ unionWords all ++ " " ++ q₂.text) := by
  obtain ⟨haccepted₁, hfaults₁⟩ := accepted_of_parse h₁
  obtain ⟨haccepted₂, hfaults₂⟩ := accepted_of_parse h₂
  obtain ⟨t, rest, word, htokens, hkind, hstarts, -⟩ := haccepted₂.starts hversion hbody
  constructor
  · intro p₁ hsingle hfuses
    have hseam := seam_of_clause htokens hkind hstarts hfuses
    have hlexed := ofText_line hfaults₁ (haccepted₁.behindDot rfl) hseam
    obtain ⟨q, p, hq, hresult⟩ := haccepted₁.clauses rfl haccepted₂ hversion hsingle hbody
    refine ⟨q, p, parse_eq_ok_iff_query.2 ?_, hresult⟩
    rw [hlexed]
    exact ⟨faults_followedBy hfaults₁ hfaults₂ _ _, hq.run⟩
  · intro hlow all
    have hfaults : (TokenStream.ofText (unionWords all)).faults = [] := by
      cases all <;> decide +kernel
    have hseam : ∀ front words word, (TokenStream.ofText text).tokens = front ++ words →
        Token.behindDot false front = false → Token.Pending (words.map Token.kind) word →
        (TokenStream.ofText (unionWords all ++ "\n" ++ text')).tokens.head?.map Token.kind
          ≠ some (.keyword word) := by
      intro _ words word _ _ hpending hhead
      rw [head?_unionWords] at hhead
      cases hhead
      generalize words.map Token.kind = kinds at hpending
      cases hpending
    have hlexed := ofText_line hfaults₁ (haccepted₁.behindDot rfl) hseam
    rw [ofText_unionWords, ← String.append_assoc, ← String.append_assoc] at hlexed
    obtain ⟨q, left, right, span, hq, hheader, hunion, hleft, hright⟩ :=
      haccepted₁.union rfl haccepted₂ hversion hbody (kinds_unionWords all) hlow
    have hparts : q.body.parts.map SingleQuery.erase
        = q₁.body.parts.map SingleQuery.erase ++ [p₂.erase] := by
      rw [hunion, QueryBody.parts, List.map_append, ← parts_erase, hleft, parts_erase, ← hright]
      rfl
    refine ⟨q, left, right, span, parse_eq_ok_iff_query.2 ?_, hheader, hunion, hleft, hright,
      hparts, text_union hheader hunion hleft hright hversion hbody⟩
    rw [hlexed]
    exact ⟨faults_followedBy hfaults₁ (faults_followedBy hfaults hfaults₂ _ _) _ _, hq.run⟩

/-- The number of clauses of a text with a single query and no header. -/
private def singleLength (text : String) : Nat :=
  match parse text with
  | .ok ⟨none, .single p, _⟩ => p.clauses.length
  | _ => 0

private theorem exists_of_singleLength (text : String) (n : Nat)
    (h : singleLength text = n + 1) :
    ∃ q p, parse text = .ok q ∧ q.version = none ∧ q.body = .single p
      ∧ p.clauses.length = n + 1 := by
  unfold singleLength at h
  split at h
  · next p span hparse => exact ⟨_, p, hparse, rfl, rfl, h⟩
  · cases h

theorem parse_append_starts :
    (∃ q p, parse "MATCH (n) RETURN n.starts\nWITH 1 AS x RETURN x" = .ok q
      ∧ q.body = .single p ∧ p.clauses.length = 4)
    ∧ ∃ q, parse "MATCH (n) RETURN n.starts\nUNION ALL\nWITH 1 AS x RETURN x" = .ok q
      ∧ q.body.parts.length = 2 := by
  obtain ⟨q₁, p₁, h₁, -, hsingle, hlength₁⟩ := exists_of_singleLength
    "MATCH (n) RETURN n.starts" 1 (by decide +kernel)
  obtain ⟨q₂, p₂, h₂, hversion, hbody, hlength₂⟩ := exists_of_singleLength
    "WITH 1 AS x RETURN x" 1 (by decide +kernel)
  obtain ⟨hclauses, hunion⟩ := parse_append h₁ h₂ hversion hbody
  obtain ⟨q, p, hq, -, hp, hjoined⟩ := hclauses p₁ hsingle (by decide +kernel)
  obtain ⟨q', -, -, -, hq', -, -, -, -, hparts, -⟩ := hunion (by rw [hsingle]; show 1 + 1 ≤ 256; omega) true
  refine ⟨⟨q, p, hq, hp, ?_⟩, q', hq', ?_⟩
  · have hcount := congrArg List.length hjoined
    simp only [List.length_append, List.length_map] at hcount
    omega
  · have hcount := congrArg List.length hparts
    simp only [hsingle, QueryBody.parts, List.length_append, List.length_map,
      List.length_singleton] at hcount
    omega

end Cypher
