import Cypher.Proofs.Compared.Limited
import Cypher.Proofs.Composition
import Cypher.Proofs.Enclosed.Query
import Cypher.Proofs.Lexing.Parenthesis

/-!
# Operands in parentheses

An operand of an accepted text can be put in parentheses. Unless the text then
nests too deep it is accepted, and the tree differs in spans alone.

That a run of tokens is an operand of the text is told by refusing it. The
reading that takes no such operand answers as the one that takes all of them if
no operand of these tokens is read, and nothing if one is.
-/

namespace Cypher

namespace Grammar

open Token (Kind)

/-! ## Refusing an operand -/

/-- A query, but not with the operand whose tokens are `op` in front of `rest`. -/
def queryRefusing (op rest : List Token) (config : Config) : Parser Query :=
  queryOver config (expressionRefusing op rest config config.maxDepth)

/-- The tokens `op` are read as an operand in front of `rest`. -/
def OperandRead (op rest : List Token) (config : Config) : Prop :=
  ∃ room s x s', operand config (expressionWithin config room) s = .ok x s'
    ∧ s.ahead = op ++ rest ∧ s'.ahead = rest

/-- What `r` answers `p` answers as well; and the other way round, unless `φ` holds. -/
structure Refuses (φ : Prop) (p r : Parser α) : Prop where
  sound : ∀ s a s', r s = .ok a s' → p s = .ok a s'
  answers : ∀ s a s', p s = .ok a s' → r s = .ok a s' ∨ φ

namespace Refuses

variable {α β : Type} {φ : Prop} {config : Config} {op rest : List Token}

theorem refl (p : Parser α) : Refuses φ p p := ⟨fun _ _ _ h => h, fun _ _ _ h => .inl h⟩

theorem bind {p r : Parser α} {f g : α → Parser β} (h : Refuses φ p r)
    (hf : ∀ a, Refuses φ (f a) (g a)) : Refuses φ (p >>= f) (r >>= g) where
  sound s b s' hrun := by
    obtain ⟨a, s₁, hfirst, hsecond⟩ := bind_eq_ok hrun
    rw [bind_ok (h.sound s a s₁ hfirst)]
    exact (hf a).sound s₁ b s' hsecond
  answers s b s' hrun := by
    obtain ⟨a, s₁, hfirst, hsecond⟩ := bind_eq_ok hrun
    rcases h.answers s a s₁ hfirst with hfirst | hφ
    · rw [bind_ok hfirst]
      exact (hf a).answers s₁ b s' hsecond
    · exact .inr hφ

theorem nested {p r : Parser α} (h : Refuses φ p r) :
    Refuses φ (nested config p) (nested config r) where
  sound s a s' hrun := by
    obtain ⟨hroom, s₁, hinner, rfl⟩ := nested_eq_ok.1 hrun
    exact nested_eq_ok.2 ⟨hroom, s₁, h.sound _ _ _ hinner, rfl⟩
  answers s a s' hrun := by
    obtain ⟨hroom, s₁, hinner, rfl⟩ := nested_eq_ok.1 hrun
    exact (h.answers _ _ _ hinner).imp_left fun hinner => nested_eq_ok.2 ⟨hroom, s₁, hinner, rfl⟩

theorem closed (config : Config) (φ : Prop) : Closed config fun _ => Refuses φ where
  step _ := refl _
  bind := bind
  nested := nested
  recover := refl _

theorem operand {room : Nat} {refusing : Parser Expression}
    (h : Refuses (OperandRead op rest config) (expressionWithin config room) refusing) :
    Refuses (OperandRead op rest config) (operand config (expressionWithin config room))
      (operandRefusing op rest config (expressionWithin config room) refusing) where
  sound s x s' hrun := by
    unfold operandRefusing at hrun
    rw [bind_ok (p := lookAhead) (s := s) rfl] at hrun
    split at hrun
    · obtain ⟨y, s₁, hread, hlast⟩ := bind_eq_ok hrun
      rw [bind_ok (p := lookAhead) (s := s₁) rfl] at hlast
      split at hlast
      · cases hlast
      · cases hlast
        exact hread
    · exact ((closed config _).operand h).sound s x s' hrun
  answers s x s' hrun := by
    unfold operandRefusing
    rw [bind_ok (p := lookAhead) (s := s) rfl]
    split
    · next hhere =>
      rw [bind_ok hrun, bind_ok (p := lookAhead) (s := s') rfl]
      split
      · next hend => exact .inr ⟨room, s, x, s', hrun, hhere, hend⟩
      · exact .inl rfl
    · exact ((closed config _).operand h).answers s x s' hrun

theorem expression (room : Nat) :
    Refuses (OperandRead op rest config) (expressionWithin config room)
      (expressionRefusing op rest config room) := by
  induction room with
  | zero => exact refl _
  | succ room ih =>
    exact nested ((closed config _).operators (fun _ _ => refl _) ih.operand)

/-- No query is read but the one that is read anyway; and it is read, unless the operand is. -/
theorem query (op rest : List Token) (config : Config) :
    Refuses (OperandRead op rest config) (query config) (queryRefusing op rest config) :=
  (closed config _).queryOver (expression config.maxDepth)

end Refuses

end Grammar

open Grammar

/-- The tokens `op` are an operand of the text in front of `rest`: no query is read if that operand
is refused. -/
def TokenStream.hasOperand (stream : TokenStream) (limit : Nat) (op rest : List Token) : Bool :=
  match queryRefusing op rest ⟨limit, false⟩ stream.opening with
  | .ok .. => false
  | .error .. => true

theorem TokenStream.refused_of_hasOperand {stream : TokenStream} {limit : Nat} {op rest : List Token}
    (h : stream.hasOperand limit op rest = true) (q : Query) (s : State) :
    queryRefusing op rest ⟨limit, false⟩ stream.opening ≠ .ok q s := by
  intro hrun
  unfold hasOperand at h
  rw [hrun] at h
  cases h

/-- An operand of an accepted text is read where the text is. -/
theorem TokenStream.operandRead_of_hasOperand {stream : TokenStream} {limit : Nat}
    {op rest : List Token} {q : Query} {s : State}
    (hrun : query ⟨limit, false⟩ stream.opening = .ok q s)
    (h : stream.hasOperand limit op rest = true) : OperandRead op rest ⟨limit, false⟩ :=
  ((Refuses.query op rest _).answers _ q s hrun).resolve_left (refused_of_hasOperand h q s)

namespace Grammar

/-! ## Reading through the parentheses -/

namespace Enclosure

variable {text : String} {ε : Enclosure} {limit : Nat} {q : Query} {s : State}

/-- The tokens with the operand in parentheses. -/
def enclosed (ε : Enclosure) : List Token :=
  ε.front ++ ε.opening :: (ε.op ++ ε.closing :: ε.rest)

/-- An operand does not stand behind a point. -/
theorem Operable.behindDot (h : ε.Operable) : Token.behindDot false ε.front = false := by
  rcases List.eq_nil_or_concat ε.front with hnil | ⟨passed, t, hfront⟩
  · rw [hnil]
    rfl
  · rw [hfront, List.concat_eq_append, Token.behindDot_concat, decide_eq_false_iff_not]
    intro hdot
    have hmode := h.mode
    rw [hfront, List.concat_eq_append, Scan.passAll_concat, Scan.pass, hdot] at hmode
    cases hmode

/-- The operand does not end with a point. -/
theorem Operable.ne_dot (h : ε.Operable) {last : Token} (hlast : ε.op.getLast? = some last) :
    last.kind ≠ .punctuation .dot := by
  intro hdot
  have hawaits := h.settled last hlast
  rw [hdot] at hawaits
  cases hawaits

/-- Before the first token both readings have the seam ahead. -/
theorem facing_opening (h : ε.Operable) :
    ε.before.Facing { ahead := ε.front ++ (ε.op ++ ε.rest), eof := ε.eof }
      { ahead := ε.enclosed, eof := ε.eof } := by
  refine ⟨⟨rfl, rfl, ?_, rfl, Nat.zero_le _, rfl, [], rfl, rfl⟩, h, ε.front, rfl, rfl⟩
  obtain ⟨front, op, rest, eof, limit⟩ := ε
  cases front with
  | nil => rfl
  | cons t front => rfl

/-- With one level more, the tokens are read as the same query if an operand of them is put in
parentheses. -/
theorem Lawful.query_enclosed (law : ε.Lawful)
    (htokens : (TokenStream.ofText text).tokens = ε.front ++ (ε.op ++ ε.rest))
    (heof : (TokenStream.ofText text).eof = ε.eof) (hlimit : ε.limit < limit)
    (hrun : query ⟨ε.limit, false⟩ (TokenStream.ofText text).opening = .ok q s)
    (hoperand : (TokenStream.ofText text).hasOperand ε.limit ε.op ε.rest = true) :
    ε.Operable ∧ ∃ s', query ⟨limit, false⟩ { ahead := ε.enclosed, eof := ε.eof } = .ok q s'
      ∧ s'.faults = s.faults := by
  have hrefused := TokenStream.refused_of_hasOperand hoperand q s
  have room : ε.before.Roomier ⟨ε.limit, false⟩ ⟨limit, false⟩ := ⟨rfl, rfl, rfl, hlimit⟩
  have hshadows := shadowed_query (d := 0) (shadowedValues_refusing law room hlimit) room
    ⟨htokens, nofun⟩ (TokenStream.atStart text)
  -- If the tokens did not look like an operand, nothing would be refused.
  have hoperable : ε.Operable := by
    by_contra hnot
    exact hrefused (hshadows.astray (.inr hnot) q s hrun).1
  have hopening : (TokenStream.ofText text).opening
      = { ahead := ε.front ++ (ε.op ++ ε.rest), eof := ε.eof } := by
    rw [TokenStream.opening, htokens, heof]
  have hfacing := facing_opening hoperable
  rw [← hopening] at hfacing
  refine ⟨hoperable, ?_⟩
  cases hshadows.facing _ hfacing q s hrun with
  | astray hsame => exact absurd hsame hrefused
  | facing hsame => exact absurd hsame hrefused
  | past _ hother hpast => exact ⟨_, hother, hpast.faults⟩

end Enclosure

/-- Of a mark nothing is compared but which one it is. -/
theorem folded_punctuation {words : List String} {t : Token} {mark : Punctuation}
    (h : t.kind = .punctuation mark) : folded words t = (.punctuation mark, none) := by
  unfold folded Token.symbolicName?
  rw [h]
  rfl

end Grammar

/-! ## Accepted texts -/

/-- The text with the operand in parentheses is accepted if one more level is allowed. -/
theorem parse_parenthesized_deeper {text text' : String} {config : Config} {q : Query}
    (hparse : parse text config = .ok q) {front op rest : List Token} {first last : Token}
    (htokens : (TokenStream.ofText text).tokens = front ++ (op ++ rest))
    (hoperand : (TokenStream.ofText text).hasOperand config.maxDepth op rest = true)
    (hfirst : op.head? = some first) (hlast : op.getLast? = some last)
    (hparted : Grammar.relationshipAhead rest = false)
    (htext : text'
      = String.ofList (Text.parenthesize text.toList ⟨first.span.start, last.span.stop⟩))
    {limit : Nat} (hlimit : config.maxDepth < limit) :
    ∃ q', parse text' { config with maxDepth := limit } = .ok q' ∧ q'.erase = q.erase := by
  obtain ⟨hfaults, s, hrun, hclean⟩ := parse_eq_ok_iff_query.1 hparse
  let ε : Enclosure := ⟨front, op, rest, (TokenStream.ofText text).eof, config.maxDepth⟩
  have law : ε.Lawful := by
    refine ⟨?_, fun t ht => ?_, rfl, hparted⟩
    · rintro (rfl : op = [])
      cases hfirst
    · exact TokenStream.ne_eof_of_mem (htokens ▸ List.mem_append_right _ ht)
  obtain ⟨hoperable, s₁, hread, hclean₁⟩ := law.query_enclosed htokens rfl hlimit hrun hoperand
  -- The text has these tokens, up to their places.
  obtain ⟨opening, closing, hopening, hclosing, htokens', hfaults'⟩ :=
    TokenStream.tokens_parenthesized htokens hfirst hlast hfaults hoperable.behindDot
      (hoperable.ne_dot hlast)
  have hstream : TokenStream.ofText text'
      = .ofChars (Text.parenthesize text.toList ⟨first.span.start, last.span.stop⟩) := by
    rw [htext, TokenStream.ofText, String.toList_ofList]
  rw [← hstream] at htokens' hfaults'
  have hstep : InStep [] { ahead := ε.enclosed, eof := ε.eof } (TokenStream.ofText text').opening := by
    refine ⟨?_, rfl, rfl, rfl⟩
    show (front ++ ε.opening :: (op ++ ε.closing :: rest)).map (folded [])
      = (TokenStream.ofText text').tokens.map (folded [])
    rw [htokens']
    simp only [List.map_append, List.map_cons, map_folded_shift, folded_punctuation hopening,
      folded_punctuation hclosing]
    rfl
  obtain ⟨q', s', hrun', herase, hbehind⟩ := query_reread hstep hread
  have hclean' : s'.faults = [] := by
    have hcodes := hbehind.codes
    rwa [hclean₁, hclean, List.map_nil, eq_comm, List.map_eq_nil_iff] at hcodes
  exact ⟨q', parse_eq_ok_iff_query.2 ⟨hfaults', s', hrun', hclean'⟩, herase⟩

/-- Parentheses around an operand are redundant. Let the tokens `op` be an operand of an accepted
text, and let no relationship start behind it; it starts with `-` or `<` where it does. Put the
operand in parentheses. If one more level is allowed than the text was accepted with, or if the
parentheses are not reported to nest too deep, then the text is accepted, and leaving spans out the
tree is the same. -/
theorem parse_parenthesized {text text' : String} {config : Config} {q : Query}
    (hparse : parse text config = .ok q) {front op rest : List Token} {first last : Token}
    (htokens : (TokenStream.ofText text).tokens = front ++ (op ++ rest))
    (hoperand : (TokenStream.ofText text).hasOperand config.maxDepth op rest = true)
    (hfirst : op.head? = some first) (hlast : op.getLast? = some last)
    (hparted : Grammar.relationshipAhead rest = false)
    (htext : text'
      = String.ofList (Text.parenthesize text.toList ⟨first.span.start, last.span.stop⟩))
    {limit : Nat} (hallows : config.maxDepth < limit
      ∨ ∀ d ∈ (Outcome.ofText text' { config with maxDepth := limit }).diagnostics,
        d.code ≠ some "P006") :
    ∃ q', parse text' { config with maxDepth := limit } = .ok q' ∧ q'.erase = q.erase := by
  have hdeeper {limit : Nat} (hlimit : config.maxDepth < limit) :=
    parse_parenthesized_deeper hparse htokens hoperand hfirst hlast hparted htext hlimit
  rcases hallows with hlimit | hunmet
  · exact hdeeper hlimit
  · -- A limit that is not met reads as a higher one does.
    have hle : limit ≤ limit + config.maxDepth + 1 := by omega
    obtain ⟨q', hparse', herase⟩ := hdeeper (show config.maxDepth < limit + config.maxDepth + 1 by omega)
    have hsame := Outcome.ofText_of_unmet hle hunmet
    refine ⟨q', ?_, herase⟩
    rw [parse, ← hsame]
    exact hparse'

/-- A call and its suffixes, in the condition of a comprehension. -/
private def sliceOfCall : String := "MATCH (n) RETURN [x IN n.xs WHERE f(x)[1..2].b > 1 | x]"

theorem parse_parenthesized_sliceOfCall :
    ∃ q q', parse sliceOfCall = .ok q
      ∧ parse "MATCH (n) RETURN [x IN n.xs WHERE (f(x)[1..2].b) > 1 | x]" = .ok q'
      ∧ q'.erase = q.erase := by
  obtain ⟨q, hq⟩ := exists_parse_of_isOk sliceOfCall (by decide +kernel)
  have htokens : (TokenStream.ofText sliceOfCall).tokens
      = (TokenStream.ofText sliceOfCall).tokens.take 12
        ++ (((TokenStream.ofText sliceOfCall).tokens.drop 12).take 11
          ++ (TokenStream.ofText sliceOfCall).tokens.drop 23) := by decide +kernel
  obtain ⟨q', hq', herase⟩ := parse_parenthesized hq htokens (by decide +kernel)
    (show _ = some ⟨.identifier "f", ⟨34, 35⟩, 1, "f"⟩ by decide +kernel)
    (show _ = some ⟨.identifier "b", ⟨45, 46⟩, 1, "b"⟩ by decide +kernel) (by decide +kernel)
    (show "MATCH (n) RETURN [x IN n.xs WHERE (f(x)[1..2].b) > 1 | x]" = _ by decide +kernel)
    (.inr (by decide +kernel : ∀ d ∈ (Outcome.ofText _ ⟨256, true⟩).diagnostics, d.code ≠ some "P006"))
  exact ⟨q, q', hq, hq', herase⟩

/-- A list is taken from a value. Behind a parenthesis it would be what is said of a
relationship. -/
theorem exists_parenthesized_refused :
    ∃ text q front t rest, parse text = .ok q
      ∧ (TokenStream.ofText text).tokens = front ++ ([t] ++ rest)
      ∧ (TokenStream.ofText text).hasOperand 256 [t] rest = true
      ∧ Grammar.relationshipAhead rest = true
      ∧ ∀ q', parse (String.ofList (Text.parenthesize text.toList t.span)) ≠ .ok q' := by
  obtain ⟨q, hq⟩ := exists_parse_of_isOk "RETURN a - [1]" (by decide +kernel)
  refine ⟨"RETURN a - [1]", q, (TokenStream.ofText "RETURN a - [1]").tokens.take 1,
    ⟨.identifier "a", ⟨7, 8⟩, 1, "a"⟩, (TokenStream.ofText "RETURN a - [1]").tokens.drop 2, hq,
    by decide +kernel, by decide +kernel, by decide +kernel, fun q' hq' => ?_⟩
  have hrefused : (parse (String.ofList (Text.parenthesize "RETURN a - [1]".toList ⟨7, 8⟩))).isOk
      = false := by decide +kernel
  rw [hq'] at hrefused
  cases hrefused

end Cypher
