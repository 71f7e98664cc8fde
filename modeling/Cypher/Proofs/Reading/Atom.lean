import Cypher.Grammar.Operand
import Cypher.Proofs.Reading.Head

/-!
# Reading atoms

An atom is read from its tokens, provided that the expressions inside it
are. Its first token tells its form, save for a name, a parenthesis and a
bracket: there a look ahead tells it, and what follows the atom must not
mislead the look.
-/

namespace Cypher

namespace Grammar

open Token (Kind)

/-- The parser reads every plain expression up to the height `k`, and what
stands between the parentheses of those up to one level higher, if the
limit admits them. -/
structure ReadsUpTo (limit d k : Nat) (expr : Parser Expression) : Prop where
  tree : ∀ e : Expression, e.Plain → e.height ≤ k → ReadsTree d expr e
  inside : ∀ e : Expression, e.Plain → e.height ≤ k + 1 → e.height ≤ limit →
    e.isGrouped = true → ∀ rest, Reads d expr (e.inside ++ .ofKind (.punctuation .rparen) :: rest)
      (.ofKind (.punctuation .rparen) :: rest) fun a => a.erase = e.erase

/-- What may follow an expression that suffixes are still to be read
behind: nothing that makes another atom of its first token, or another
label check of its last. -/
structure Follows (e : Expression) (rest : List Token) : Prop where
  call : callAhead rest = false
  brace : headKind rest ≠ .punctuation .lbrace
  colon : e.isLabelCheck = true → headKind rest ≠ .punctuation .colon
  path : e.leadsPath = true → relationshipAhead rest = false

section

variable {d : Nat} {expr : Parser Expression} {rest : List Token}

/-! ## Parts of atoms -/

theorem reads_leaf {make : Span → Expression} {t : Token} :
    Reads d (leaf make) (t :: rest) rest fun a => ∃ s, a = make s := by
  unfold leaf
  refine Reads.current.bind fun u _ => ?_
  exact Reads.advance.bind fun _ _ => .pure ⟨u.span, rfl⟩

/-- Expressions with commas between them, up to a closing token. -/
theorem reads_arguments {es : List Expression} {close : Kind} {t : Token}
    (hclose : t.kind = close) (hstop : stopsExpression close = true)
    (hcomma : close ≠ .punctuation .comma) (hstart : startsExpression close = false)
    (hplain : ∀ e ∈ es, e.Plain) (hes : ∀ e ∈ es, ReadsTree d expr e) :
    Reads d (commaSeparatedUntil close expr)
      (commaTokens (es.map Expression.tokens) ++ t :: rest) (t :: rest)
      fun as => as.map Expression.erase = es.map Expression.erase := by
  refine Reads.commaSeparatedUntil (S := (stopsExpression · = true)) rfl hclose hstop
    hcomma (fun e he ts => headKind_tokens_ne (hplain e he) hstart ts) fun e he ts hts => ?_
  exact hes e he ts hts

/-- An optional expression behind a token. -/
theorem reads_behind {o : Option Expression} {kind : Kind} {t : Token}
    (hkind : t.kind = kind) (ho : ∀ e ∈ o, ReadsTree d expr e)
    (hstop : stopsExpression (headKind rest) = true) (habsent : headKind rest ≠ kind) :
    Reads d (behind kind expr) (behindTokens [t] o ++ rest) rest
      fun a => a.map Expression.erase = o.map Expression.erase := by
  cases o with
  | none => exact (Reads.behind_absent habsent).mono fun a ha => by rw [ha]
  | some e =>
    refine (Reads.behind hkind (ho e rfl rest hstop)).mono ?_
    rintro _ ⟨a, rfl, ha⟩
    exact congrArg some ha

/-- An optional expression before a token. -/
theorem reads_unlessDue {o : Option Expression} {kind : Kind}
    (hstart : startsExpression kind = false) (hplain : ∀ e ∈ o, e.Plain)
    (ho : ∀ e ∈ o, ReadsTree d expr e) (hstop : stopsExpression (headKind rest) = true)
    (hdue : o = none → headKind rest = kind) :
    Reads d (unlessDue kind expr) (behindTokens [] o ++ rest) rest
      fun a => a.map Expression.erase = o.map Expression.erase := by
  cases o with
  | none => exact (Reads.unlessDue_due (hdue rfl)).mono fun a ha => by rw [ha]
  | some e =>
    have hhead := headKind_tokens_ne (hplain e rfl) hstart rest
    refine (Reads.unlessDue hhead (ho e rfl rest hstop)).mono ?_
    rintro _ ⟨a, rfl, ha⟩
    exact congrArg some ha

/-- What an optional part starts with. -/
theorem headKind_behindTokens (t : Token) (o : Option Expression) (ts : List Token) :
    headKind (behindTokens [t] o ++ ts) = headKind ts
      ∨ headKind (behindTokens [t] o ++ ts) = t.kind := by
  cases o with
  | none => exact .inl rfl
  | some e => exact .inr rfl

/-! ## Atoms -/

theorem reads_callArguments {name : List String} {begin : Nat} {es : List Expression}
    (hplain : ∀ e ∈ es, e.Plain) (hes : ∀ e ∈ es, ReadsTree d expr e) :
    Reads d (callArguments expr name begin)
      (.ofKind (.punctuation .lparen) :: (commaTokens (es.map Expression.tokens)
        ++ .ofKind (.punctuation .rparen) :: rest)) rest
      fun a => ∀ s, a.erase = (Expression.call name es s).erase := by
  unfold callArguments
  refine (Reads.expect rfl).bind fun _ _ => ?_
  refine (reads_arguments rfl rfl (by simp) rfl hplain hes).bind fun as has => ?_
  refine (Reads.expect rfl).bind fun _ _ => ?_
  refine Reads.spanFrom.bind fun sp _ => .pure fun s => ?_
  rw [Expression.erase_call, Expression.erase_call, has]

theorem reads_dottedTail {role : NameRole} {names : List String}
    (hdot : headKind rest ≠ .punctuation .dot) :
    Reads d (many (behind (.punctuation .dot) (symbolicName role)))
      ((names.flatMap fun n => [.ofKind (.punctuation .dot), Glyph.symbolToken n]) ++ rest)
      rest (· = names) := by
  have hmany : Reads d (many (behind (.punctuation .dot) (symbolicName role)))
      ((names.flatMap fun n => [.ofKind (.punctuation .dot), Glyph.symbolToken n]) ++ rest)
      rest fun as => as.map id = names.map id := Reads.many (S := fun _ => True) trivial (Reads.behind_absent (p := symbolicName role) hdot)
    (fun n _ => List.cons_ne_nil _ _) fun n _ ts _ => ⟨trivial,
      ((Reads.symbolicName (Glyph.symbolicName?_symbolToken n)).behind rfl)⟩
  refine hmany.mono fun as has => ?_
  rw [List.map_id, List.map_id] at has
  exact has

theorem reads_mapSelector {s : MapSelector} (hs : ∀ e ∈ s.values, ReadsTree d expr e)
    (hstop : stopsExpression (headKind rest) = true) :
    Reads d (mapSelector expr) (s.tokens ++ rest) rest fun a => a.erase = s.erase := by
  unfold mapSelector
  refine Reads.start.bind fun begin _ => ?_
  match s with
  | .property k sp =>
    refine (Reads.consume (t := .ofKind (.punctuation .dot)) rfl).bindEq ?_
    rw [if_pos rfl]
    unfold dotSelector
    have habsent : headKind (Glyph.symbolToken k :: rest) ≠ .operator .star := by
      rw [headKind_cons, Glyph.symbolToken]
      split <;> simp
    refine (Reads.consume_absent habsent).bindEq ?_
    refine (Reads.symbolicName (Glyph.symbolicName?_symbolToken k)).bindEq ?_
    exact Reads.spanFrom.bind fun sp' _ => .pure rfl
  | .everything sp =>
    refine (Reads.consume (t := .ofKind (.punctuation .dot)) rfl).bindEq ?_
    rw [if_pos rfl]
    unfold dotSelector
    refine (Reads.consume (t := .ofKind (.operator .star)) rfl).bindEq ?_
    exact Reads.spanFrom.bind fun sp' _ => .pure rfl
  | .entry ⟨k, v, sp⟩ =>
    have htokens : (MapSelector.entry ⟨k, v, sp⟩).tokens
        = Glyph.symbolToken k :: .ofKind (.punctuation .colon) :: v.tokens := rfl
    have hdot : headKind ((MapSelector.entry ⟨k, v, sp⟩).tokens ++ rest)
        ≠ .punctuation .dot := headKind_symbolToken k _
    refine (Reads.consume_absent hdot).bindEq ?_
    rw [if_neg Bool.false_ne_true]
    refine Reads.lookAhead.bind fun ahead hahead => ?_
    have hcolon : kindAt ahead 1 = some (.punctuation .colon) := by
      rw [← kindAt_bare, hahead, htokens]
      rfl
    rw [if_pos hcolon]
    have hentry := reads_mapEntry (e := ⟨k, v, sp⟩) (hs v (by simp [MapSelector.values]))
      hstop
    exact hentry.bind fun a ha => .pure (by
      rw [MapSelector.erase_entry, ha, MapSelector.erase_entry])
  | .variable n sp =>
    have hdot : headKind ((MapSelector.variable n sp).tokens ++ rest)
        ≠ .punctuation .dot := by
      show Kind.identifier n ≠ _
      simp
    refine (Reads.consume_absent hdot).bindEq ?_
    rw [if_neg Bool.false_ne_true]
    refine Reads.lookAhead.bind fun ahead hahead => ?_
    have hcolon : kindAt ahead 1 ≠ some (.punctuation .colon) := by
      rw [← kindAt_bare, hahead]
      show kindAt rest 0 ≠ _
      rw [kindAt_zero]
      intro h
      cases rest with
      | nil => cases h
      | cons t ts =>
        rw [headKind_cons] at hstop
        rw [Option.some.inj h] at hstop
        exact absurd hstop (by decide)
    rw [if_neg hcolon]
    unfold variableSelector
    refine Reads.current.bind fun t _ => ?_
    refine (Reads.variableName (t := .ofKind (.identifier n)) rfl).bindEq ?_
    exact .pure rfl

/-- The selectors of a projection start with no closing brace. -/
theorem headKind_selector (s : MapSelector) (ts : List Token) :
    headKind (s.tokens ++ ts) ≠ .punctuation .rbrace := by
  match s with
  | .property .. | .everything _ | .variable .. =>
    intro h
    cases h
  | .entry ⟨k, v, sp⟩ => exact headKind_symbolToken k _

theorem reads_mapProjection {n : String} {begin : Nat} {selectors : List MapSelector}
    (hes : ∀ e ∈ selectors.flatMap MapSelector.values, ReadsTree d expr e) :
    Reads d (mapProjection expr n begin)
      (.ofKind (.punctuation .lbrace) :: (commaTokens (selectors.map MapSelector.tokens)
        ++ .ofKind (.punctuation .rbrace) :: rest)) rest
      fun a => ∀ s, a.erase = (Expression.mapProjection n selectors s).erase := by
  unfold mapProjection
  refine (Reads.expect rfl).bind fun _ _ => ?_
  refine (Reads.commaSeparatedUntil (S := (stopsExpression · = true))
    (g := MapSelector.erase) (h := MapSelector.erase) rfl rfl rfl (by simp)
    (fun s _ => headKind_selector s) fun s hs ts hts => ?_).bind fun as has => ?_
  · exact reads_mapSelector (fun e he => hes e (List.mem_flatMap_of_mem hs he)) hts
  · refine (Reads.expect rfl).bind fun _ _ => ?_
    refine Reads.spanFrom.bind fun sp _ => .pure fun s => ?_
    rw [Expression.erase_mapProjection, Expression.erase_mapProjection, has]

/-- A variable is read where neither a call nor a projection follows. -/
theorem reads_variable {n : String} {sp : Span} (hcall : callAhead rest = false)
    (hbrace : headKind rest ≠ .punctuation .lbrace) :
    Reads d (named expr n sp) (.ofKind (.identifier n) :: rest) rest
      fun a => ∀ s, a.erase = (Expression.variable n s).erase := by
  unfold named
  refine Reads.lookAhead.bind fun ahead hahead => ?_
  rw [← callAhead_bare, List.map_drop, hahead, List.drop_one, List.tail_cons, hcall,
    if_neg Bool.false_ne_true]
  refine Reads.advance.bind fun _ _ => ?_
  refine Reads.current.bind fun t ht => ?_
  rw [if_neg (ht ▸ hbrace)]
  exact .pure fun s => rfl

theorem reads_named_mapProjection {n : String} {sp : Span} {selectors : List MapSelector}
    (hes : ∀ e ∈ selectors.flatMap MapSelector.values, ReadsTree d expr e) :
    Reads d (named expr n sp)
      (.ofKind (.identifier n) :: .ofKind (.punctuation .lbrace)
        :: (commaTokens (selectors.map MapSelector.tokens)
          ++ .ofKind (.punctuation .rbrace) :: rest)) rest
      fun a => ∀ s, a.erase = (Expression.mapProjection n selectors s).erase := by
  unfold named
  refine Reads.lookAhead.bind fun ahead hahead => ?_
  have hcall : callAhead (ahead.drop 1) = false := by
    rw [← callAhead_bare, List.map_drop, hahead, List.drop_one, List.tail_cons]
    cases commaTokens (selectors.map MapSelector.tokens) <;> rfl
  rw [hcall, if_neg Bool.false_ne_true]
  refine Reads.advance.bind fun _ _ => ?_
  refine Reads.current.bind fun t ht => ?_
  have hbrace : t.kind = .punctuation .lbrace := ht
  rw [if_pos hbrace]
  exact reads_mapProjection hes

theorem reads_named_call {first : String} {others : List String} {sp : Span}
    {es : List Expression} (hplain : ∀ e ∈ es, e.Plain)
    (hes : ∀ e ∈ es, ReadsTree d expr e) :
    Reads d (named expr first sp)
      (.ofKind (.identifier first)
        :: ((others.flatMap fun n => [.ofKind (.punctuation .dot), Glyph.symbolToken n])
          ++ .ofKind (.punctuation .lparen) :: (commaTokens (es.map Expression.tokens)
            ++ .ofKind (.punctuation .rparen) :: rest))) rest
      fun a => ∀ s, a.erase = (Expression.call (first :: others) es s).erase := by
  unfold named
  refine Reads.lookAhead.bind fun ahead hahead => ?_
  have hcall : callAhead (ahead.drop 1) = true := by
    rw [← callAhead_bare, List.map_drop, hahead, List.drop_one, List.tail_cons]
    exact callAhead_dotted others _
  rw [if_pos hcall]
  unfold call
  refine Reads.advance.bind fun _ _ => ?_
  refine (reads_dottedTail (by simp)).bindEq ?_
  exact reads_callArguments hplain hes

theorem reads_listComprehension {n : String} {begin : Nat} {e : Expression}
    {filter projection : Option Expression} (he : ReadsTree d expr e)
    (hfilter : ∀ e ∈ filter, ReadsTree d expr e)
    (hprojection : ∀ e ∈ projection, ReadsTree d expr e) :
    Reads d (listComprehension expr begin)
      (.ofKind (.punctuation .lbracket) :: .ofKind (.identifier n) :: Keyword.IN.token
        :: (e.tokens ++ (behindTokens [Keyword.WHERE.token] filter
          ++ (behindTokens [.ofKind (.operator .pipe)] projection
            ++ .ofKind (.punctuation .rbracket) :: rest)))) rest
      fun a => ∀ s, a.erase = (Expression.listComprehension n e filter projection s).erase := by
  unfold listComprehension
  refine (Reads.expect rfl).bind fun _ _ => ?_
  refine (Reads.variableName rfl).bindEq ?_
  refine (Reads.expect rfl).bind fun _ _ => ?_
  have hbar := headKind_behindTokens (.ofKind (.operator .pipe)) projection
    (.ofKind (.punctuation .rbracket) :: rest)
  have hwhere := headKind_behindTokens Keyword.WHERE.token filter
    (behindTokens [.ofKind (.operator .pipe)] projection
      ++ .ofKind (.punctuation .rbracket) :: rest)
  refine (he _ ?_).bind fun a ha => ?_
  · rcases hwhere with h | h <;> rw [h]
    · rcases hbar with h | h <;> rw [h] <;> rfl
    · rfl
  unfold optionalWhere
  refine (reads_behind rfl hfilter ?_ ?_).bind fun f hf => ?_
  · rcases hbar with h | h <;> rw [h] <;> rfl
  · rcases hbar with h | h <;> rw [h] <;> simp
  refine (reads_behind rfl hprojection rfl (by simp)).bind fun p hp => ?_
  refine (Reads.expect rfl).bind fun _ _ => ?_
  refine Reads.spanFrom.bind fun sp _ => .pure fun s => ?_
  rw [Expression.erase_listComprehension, Expression.erase_listComprehension, ha, hf, hp]

theorem reads_patternComprehension {begin : Nat} {p : Pattern} {e : Expression}
    {filter : Option Expression} (hp : p.Formed) (hvalues : ∀ e ∈ p.values, ReadsTree d expr e)
    (hfilter : ∀ e ∈ filter, ReadsTree d expr e) (he : ReadsTree d expr e) :
    Reads d (patternComprehension expr begin)
      (.ofKind (.punctuation .lbracket)
        :: (p.tokens ++ (behindTokens [Keyword.WHERE.token] filter
          ++ .ofKind (.operator .pipe)
            :: (e.tokens ++ .ofKind (.punctuation .rbracket) :: rest)))) rest
      fun a => ∀ s, a.erase = (Expression.patternComprehension p filter e s).erase := by
  unfold patternComprehension
  refine (Reads.expect rfl).bind fun _ _ => ?_
  refine (reads_pattern hp hvalues ?_).bind fun q hq => ?_
  · refine relationshipAhead_of_stops ?_
    rcases headKind_behindTokens Keyword.WHERE.token filter _ with h | h <;> rw [h] <;> rfl
  unfold optionalWhere
  refine (reads_behind rfl hfilter rfl (by simp)).bind fun f hf => ?_
  refine (Reads.expect rfl).bind fun _ _ => ?_
  refine (he _ rfl).bind fun a ha => ?_
  refine (Reads.expect rfl).bind fun _ _ => ?_
  refine Reads.spanFrom.bind fun sp _ => .pure fun s => ?_
  rw [Expression.erase_patternComprehension, Expression.erase_patternComprehension, hq, hf,
    ha]

theorem reads_listLiteral {begin : Nat} {es : List Expression}
    (hplain : ∀ e ∈ es, e.Plain) (hes : ∀ e ∈ es, ReadsTree d expr e) :
    Reads d (listLiteral expr begin)
      (.ofKind (.punctuation .lbracket) :: (commaTokens (es.map Expression.tokens)
        ++ .ofKind (.punctuation .rbracket) :: rest)) rest
      fun a => ∀ s, a.erase = (Expression.list es s).erase := by
  unfold listLiteral
  refine (Reads.expect rfl).bind fun _ _ => ?_
  refine (reads_arguments rfl rfl (by simp) rfl hplain hes).bind fun as has => ?_
  refine (Reads.expect rfl).bind fun _ _ => ?_
  refine Reads.spanFrom.bind fun sp _ => .pure fun s => ?_
  rw [Expression.erase_list, Expression.erase_list, has]

theorem reads_caseBranch {b : CaseBranch} (hb : ∀ e ∈ b.values, ReadsTree d expr e)
    (hstop : stopsExpression (headKind rest) = true) :
    Reads d (caseBranch expr) (b.tokens ++ rest) rest
      fun o => ∃ a, o = some a ∧ a.erase = b.erase := by
  obtain ⟨c, r, s⟩ := b
  unfold caseBranch CaseBranch.tokens
  rw [List.cons_append, List.append_assoc]
  refine Reads.start.bind fun begin _ => ?_
  refine (Reads.consume rfl).bindEq ?_
  rw [if_pos rfl]
  refine (hb c (by simp [CaseBranch.values]) _ rfl).bind fun a ha => ?_
  refine (Reads.expect rfl).bind fun _ _ => ?_
  refine (hb r (by simp [CaseBranch.values]) _ hstop).bind fun a' ha' => ?_
  refine Reads.spanFrom.bind fun sp _ => .pure ⟨_, rfl, ?_⟩
  rw [CaseBranch.erase_mk, CaseBranch.erase_mk, ha, ha']

theorem reads_caseBranch_absent (h : headKind rest ≠ .keyword .WHEN) :
    Reads d (caseBranch expr) rest rest (· = none) := by
  unfold caseBranch
  refine Reads.start.bind fun begin _ => ?_
  refine (Reads.consume_absent h).bindEq ?_
  exact .pure rfl

theorem reads_case {begin : Nat} {o otherwise : Option Expression}
    {branches : List CaseBranch} (hne : branches ≠ [])
    (hplain : ∀ e ∈ o, e.Plain) (ho : ∀ e ∈ o, ReadsTree d expr e)
    (hbranches : ∀ e ∈ branches.flatMap CaseBranch.values, ReadsTree d expr e)
    (hotherwise : ∀ e ∈ otherwise, ReadsTree d expr e) :
    Reads d (caseExpression expr begin)
      (Keyword.CASE.token :: (behindTokens [] o ++ (branches.flatMap CaseBranch.tokens
        ++ (behindTokens [Keyword.ELSE.token] otherwise
          ++ Keyword.END.token :: rest)))) rest
      fun a => ∀ s, a.erase = (Expression.case o branches otherwise s).erase := by
  have hwhen (ts : List Token) : headKind (branches.flatMap CaseBranch.tokens ++ ts)
      = .keyword .WHEN := by
    cases branches with
    | nil => exact absurd rfl hne
    | cons b bs => rfl
  have helse := headKind_behindTokens Keyword.ELSE.token otherwise
    (Keyword.END.token :: rest)
  unfold caseExpression
  refine (Reads.expect rfl).bind fun _ _ => ?_
  refine (reads_unlessDue rfl hplain ho (by rw [hwhen]; rfl) fun _ => hwhen _).bind
    fun a ha => ?_
  refine (Reads.many (S := fun ts => stopsExpression (headKind ts) = true)
    (g := CaseBranch.erase) (h := CaseBranch.erase) ?_ (reads_caseBranch_absent ?_)
    (fun b _ => List.cons_ne_nil _ _) fun b hb ts hts => ⟨rfl, reads_caseBranch
      (fun e he => hbranches e (List.mem_flatMap_of_mem hb he)) hts⟩).bind fun bs hbs => ?_
  · rcases helse with h | h <;> rw [h] <;> rfl
  · rcases helse with h | h <;> rw [h] <;> simp
  have hsome : bs.isEmpty = false := by
    cases bs with
    | nil => exact absurd (List.map_eq_nil_iff.1 hbs.symm) hne
    | cons b bs => rfl
  rw [hsome, if_neg Bool.false_ne_true]
  refine (reads_behind rfl hotherwise rfl (by simp)).bind fun e he => ?_
  refine (Reads.expect rfl).bind fun _ _ => ?_
  refine Reads.spanFrom.bind fun sp _ => .pure fun s => ?_
  rw [Expression.erase_case, Expression.erase_case, ha, hbs, he]

/-! ## Groups and brackets -/

theorem reads_group {limit k : Nat} (hexpr : ReadsUpTo limit d k expr) {e : Expression}
    (he : e.Plain) (hk : e.height ≤ k + 1) (hlimit : e.height ≤ limit) (h : e.isGrouped = true) {begin : Nat}
    (hpath : e.leadsPath = true → relationshipAhead rest = false) :
    Reads d (group expr begin) (e.tokens ++ rest) rest fun a => a.erase = e.erase := by
  unfold group
  refine Reads.lookAhead.bind fun ahead hahead => ?_
  have hpredicate : patternPredicateAhead ahead = false := by
    rw [← patternPredicateAhead_bare, hahead,
      patternPredicateAhead_grouped h (length_grouped he h)]
    by_cases hnode : nodeAhead e.tokens = true
    · rw [hpath (by simp [Expression.leadsPath, h, hnode]), Bool.and_false]
    · rw [Bool.not_eq_true _ |>.mp hnode, Bool.false_and]
  rw [hpredicate, if_neg Bool.false_ne_true, tokens_grouped h, List.cons_append,
    List.append_assoc]
  unfold parenthesized
  refine (Reads.expect rfl).bind fun _ _ => ?_
  refine (hexpr.inside e he hk hlimit h rest).bind fun a ha => ?_
  exact (Reads.expect rfl).bind fun _ _ => .pure ha

theorem reads_patternPredicate {start : NodePattern} {chain : List Link} {begin : Nat}
    (hchain : ∀ l ∈ chain, l.Formed) (hne : chain ≠ [])
    (hstart : ∀ e ∈ start.values, ReadsTree d expr e)
    (hlinks : ∀ e ∈ chain.flatMap Link.values, ReadsTree d expr e)
    (hrest : relationshipAhead rest = false) :
    Reads d (group expr begin) (chainTokens start chain ++ rest) rest
      fun a => ∀ s, a.erase = (Expression.patternPredicate ⟨none, start, chain, s⟩).erase := by
  unfold group
  refine Reads.lookAhead.bind fun ahead hahead => ?_
  have hpredicate : patternPredicateAhead ahead = true := by
    rw [← patternPredicateAhead_bare, hahead]
    exact patternPredicateAhead_chain hne rest
  rw [if_pos hpredicate]
  refine (reads_patternChain hchain hstart hlinks hrest).bind fun p hp => .pure fun s => ?_
  rw [Expression.erase_patternPredicate, Expression.erase_patternPredicate, hp s]

theorem reads_list {begin : Nat} {es : List Expression}
    (hplain : ∀ e ∈ es, e.Plain) (hes : ∀ e ∈ es, ReadsTree d expr e)
    (hfirst : ∀ e ∈ es.head?, e.base.isPatternPredicate = false) :
    Reads d (bracket expr begin)
      (.ofKind (.punctuation .lbracket) :: (commaTokens (es.map Expression.tokens)
        ++ .ofKind (.punctuation .rbracket) :: rest)) rest
      fun a => ∀ s, a.erase = (Expression.list es s).erase := by
  have hnone : listComprehensionAhead (.ofKind (.punctuation .lbracket)
        :: (commaTokens (es.map Expression.tokens)
          ++ .ofKind (.punctuation .rbracket) :: rest)) = false
      ∧ patternComprehensionAhead (commaTokens (es.map Expression.tokens)
          ++ .ofKind (.punctuation .rbracket) :: rest) = false := by
    cases es with
    | nil => exact ⟨rfl, rfl⟩
    | cons e es =>
      rw [List.map_cons, commaTokens, List.append_assoc]
      refine comprehensionAhead_list (hplain e (by simp)) (hfirst e rfl) _ ?_ ?_ ?_ ?_ <;>
        cases es <;> simp <;> rfl
  unfold bracket
  refine Reads.lookAhead.bind fun ahead hahead => ?_
  rw [← listComprehensionAhead_bare, ← patternComprehensionAhead_bare, List.map_drop, hahead,
    hnone.1, List.drop_one, List.tail_cons, hnone.2, if_neg Bool.false_ne_true,
    if_neg Bool.false_ne_true]
  exact reads_listLiteral hplain hes

theorem reads_bracket_listComprehension {n : String} {begin : Nat} {e : Expression}
    {filter projection : Option Expression} (he : ReadsTree d expr e)
    (hfilter : ∀ e ∈ filter, ReadsTree d expr e)
    (hprojection : ∀ e ∈ projection, ReadsTree d expr e) :
    Reads d (bracket expr begin)
      (.ofKind (.punctuation .lbracket) :: .ofKind (.identifier n) :: Keyword.IN.token
        :: (e.tokens ++ (behindTokens [Keyword.WHERE.token] filter
          ++ (behindTokens [.ofKind (.operator .pipe)] projection
            ++ .ofKind (.punctuation .rbracket) :: rest)))) rest
      fun a => ∀ s, a.erase = (Expression.listComprehension n e filter projection s).erase := by
  unfold bracket
  refine Reads.lookAhead.bind fun ahead hahead => ?_
  have hdue : listComprehensionAhead ahead = true := by
    rw [← listComprehensionAhead_bare, hahead]
    rfl
  rw [if_pos hdue]
  exact reads_listComprehension he hfilter hprojection

theorem reads_bracket_patternComprehension {begin : Nat} {p : Pattern} {e : Expression}
    {filter : Option Expression} (hp : p.Formed)
    (hvalues : ∀ e ∈ p.values, ReadsTree d expr e)
    (hfilter : ∀ e ∈ filter, ReadsTree d expr e) (he : ReadsTree d expr e) :
    Reads d (bracket expr begin)
      (.ofKind (.punctuation .lbracket)
        :: (p.tokens ++ (behindTokens [Keyword.WHERE.token] filter
          ++ .ofKind (.operator .pipe)
            :: (e.tokens ++ .ofKind (.punctuation .rbracket) :: rest)))) rest
      fun a => ∀ s, a.erase = (Expression.patternComprehension p filter e s).erase := by
  unfold bracket
  refine Reads.lookAhead.bind fun ahead hahead => ?_
  have hpath : patternComprehensionAhead (p.tokens ++ (behindTokens [Keyword.WHERE.token] filter
      ++ .ofKind (.operator .pipe) :: (e.tokens ++ .ofKind (.punctuation .rbracket) :: rest)))
        = true := patternComprehensionAhead_tokens p
    ((headKind_behindTokens Keyword.WHERE.token filter _).symm)
  rw [← listComprehensionAhead_bare, ← patternComprehensionAhead_bare, List.map_drop, hahead,
    listComprehensionAhead_pattern, if_neg Bool.false_ne_true, List.drop_one, List.tail_cons,
    if_pos hpath]
  exact reads_patternComprehension hp hvalues hfilter he

end

end Grammar

end Cypher
