import Cypher.Proofs.Reading.Path

/-!
# The first tokens of an expression

Where an expression is due its first token tells much, and what may be due
instead is told from it. A name, a parenthesis and a bracket tell too
little: there the parsers look further, and the tokens of a plain
expression are such that the look finds what stands there.
-/

namespace Cypher

namespace Grammar

open Token (Kind)

/-- The tokens an atom may start with. -/
def startsAtom : Kind → Bool
  | .integer _ | .float _ | .string _ | .parameter _ | .identifier _ | .operator .star
  | .punctuation .lparen | .punctuation .lbracket | .punctuation .lbrace
  | .keyword .TRUE | .keyword .FALSE | .keyword .NULL | .keyword .CASE
  | .keyword .EXISTS => true
  | _ => false

/-- The tokens an expression may start with: those of an atom and the
signs. -/
def startsExpression (kind : Kind) : Bool :=
  startsAtom kind || kind = .operator .minus || kind = .keyword .DISTINCT

/-- The token of a literal. -/
def literalToken : Literal → Token
  | .integer digits => .ofKind (.integer digits)
  | .float digits => .ofKind (.float digits)
  | .string value => .ofKind (.string value)
  | .boolean true => Keyword.TRUE.token
  | .boolean false => Keyword.FALSE.token
  | .null => Keyword.NULL.token

theorem tokens_literal {v : Literal} (h : v.Formed) (s : Span) :
    (Expression.literal v s).tokens = [literalToken v] := by
  cases v with
  | integer digits =>
    have hpoint : '.' ∉ digits.toList := fun hmem =>
      absurd (h.2 _ hmem) (by decide)
    have hkind : Glyph.numberKind digits = .integer digits := if_neg hpoint
    simp [Expression.tokens, Expression.glyphs, Literal.glyph, Glyph.tokens_cons,
      Glyph.token?, hkind, literalToken]
  | float digits =>
    obtain ⟨whole, fraction, hdigits, -, -⟩ := h
    have hkind : Glyph.numberKind digits = .float digits :=
      if_pos (by rw [hdigits]; simp)
    simp [Expression.tokens, Expression.glyphs, Literal.glyph, Glyph.tokens_cons,
      Glyph.token?, hkind, literalToken]
  | boolean b => cases b <;> rfl
  | _ => rfl

/-- A name that is not reserved is read as an identifier. -/
theorem symbolToken_of_free {n : String} (h : Keyword.ofName? n = none) :
    Glyph.symbolToken n = .ofKind (.identifier n) := by
  unfold Glyph.symbolToken
  rw [h]

/-- The tokens of a path that is a condition. -/
theorem tokens_patternPredicate {p : Pattern} (h : p.name = none) :
    (Expression.patternPredicate p).tokens = chainTokens p.start p.chain := by
  obtain ⟨name, start, chain, s⟩ := p
  cases h
  exact Pattern.tokens_mk none start chain s

/-- A suffix starts with a mark that goes on with an operand. -/
theorem continuesOperand_suffix {e t : Expression} (he : e.Formed)
    (h : e.target? = some t) (ts : List Token) :
    continuesOperand (headKind (e.suffixTokens ++ ts)) = true := by
  cases e <;> cases h
  · rfl
  · rfl
  · rfl
  · rw [Expression.suffixTokens, headKind_labelTokens he]
    rfl

/-- The first token of an expression without signs starts an atom. -/
theorem startsAtom_tokens {e : Expression} (he : e.Plain) (hsigns : e.signs = [])
    (ts : List Token) : startsAtom (headKind (e.tokens ++ ts)) = true := by
  induction e using Expression.suffixInduction generalizing ts with
  | suffix e t htarget ih =>
    rw [Expression.tokens_of_target htarget, List.append_assoc]
    exact ih (he.target htarget).1 (he.target htarget).2 _
  | atom e hatom =>
    have hformed := he.here.1
    have hclear := he.here.2
    cases e with
    | literal v s =>
      rw [tokens_literal hformed]
      cases v with
      | boolean b => cases b <;> rfl
      | _ => rfl
    | «variable» | parameter | star => rfl
    | list => rw [Expression.tokens_list]; rfl
    | listComprehension => rw [Expression.tokens_listComprehension]; rfl
    | patternComprehension => rw [Expression.tokens_patternComprehension]; rfl
    | patternPredicate p =>
      rw [tokens_patternPredicate hformed.2.1, chainTokens, List.append_assoc,
        headKind_nodeTokens]
      rfl
    | map => rw [Expression.tokens_mapLiteral]; rfl
    | mapProjection => rw [Expression.tokens_mapProjection]; rfl
    | call name es s =>
      rw [Expression.tokens_call]
      cases name with
      | nil => exact absurd rfl hformed
      | cons first others =>
        rw [dottedTokens, List.cons_append, List.cons_append, headKind_cons]
        rcases hclear with hexists | hfree
        · cases hexists
          rfl
        · rw [symbolToken_of_free (hfree first rfl)]
          rfl
    | «case» => rw [Expression.tokens_case]; rfl
    | prefixed op =>
      cases op with
      | not => rw [tokens_grouped rfl]; rfl
      | negate | distinct => cases hsigns
    | infixed | nullCheck => rw [tokens_grouped rfl]; rfl
    | property | index | slice | labelCheck => cases hatom
    | hole => exact hformed.elim

theorem startsExpression_tokens {e : Expression} (he : e.Plain) (ts : List Token) :
    startsExpression (headKind (e.tokens ++ ts)) = true := by
  have hcore := startsAtom_tokens he.core e.signs_core ts
  rw [Expression.tokens_signs, List.append_assoc]
  unfold startsExpression
  rcases hsigns : e.signs with - | ⟨op, ops⟩
  · rw [List.map_nil, List.nil_append, hcore]
    rfl
  · cases op with
    | distinct => rfl
    | negate => rfl
    | not =>
      exfalso
      fun_induction Expression.signs e with
      | case1 => cases hsigns
      | case2 => cases hsigns
      | case3 => cases hsigns

/-- An expression has at least one token. -/
theorem tokens_ne_nil {e : Expression} (he : e.Plain) : e.tokens ≠ [] := by
  intro h
  have hstart := startsExpression_tokens he []
  rw [h] at hstart
  exact absurd hstart (by decide)

/-- An expression starts with no token of another kind. -/
theorem headKind_tokens_ne {e : Expression} (he : e.Plain) {kind : Kind}
    (h : startsExpression kind = false) (ts : List Token) :
    headKind (e.tokens ++ ts) ≠ kind := by
  intro heq
  have hstart := startsExpression_tokens he ts
  rw [heq, h] at hstart
  exact absurd hstart Bool.false_ne_true

/-- The tokens between the parentheses of a group are at least two, the
parentheses not counted. -/
theorem length_grouped {e : Expression} (he : e.Plain) (h : e.isGrouped = true) :
    3 ≤ e.tokens.length := by
  rw [tokens_grouped h]
  have hinside : e.inside ≠ [] := by
    match e with
    | .prefixed .not .. => exact List.cons_ne_nil _ _
    | .infixed .. | .nullCheck .. => simp [Expression.inside]
  have hpos := List.length_pos_iff.2 hinside
  simp only [List.length_cons, List.length_append, List.length_nil]
  omega

/-- An expression that does not start with a star is not taken for one. -/
theorem headKind_ne_star {e : Expression} (he : e.Plain) (hstar : e.leadsStar = false)
    (ts : List Token) : headKind (e.tokens ++ ts) ≠ .operator .star := by
  have hbase : e.signs = [] → ∀ s, e.base ≠ .star s := by
    intro hsigns s hs
    rw [Expression.leadsStar, hsigns, hs] at hstar
    cases hstar
  induction e using Expression.suffixInduction generalizing ts with
  | suffix e t htarget ih =>
    obtain ⟨ht, hsigns⟩ := he.target htarget
    have hbase' := hbase (Expression.signs_suffix htarget)
    rw [Expression.base_of_target htarget] at hbase'
    rw [Expression.tokens_of_target htarget, List.append_assoc]
    refine ih ht ?_ _ fun _ => hbase'
    unfold Expression.leadsStar
    split
    · next s _ hs => exact absurd hs (hbase' s)
    · rfl
  | atom e hatom =>
    have hformed := he.here.1
    cases e with
    | literal v s =>
      rw [tokens_literal hformed]
      cases v with
      | boolean b => cases b <;> simp [literalToken]
      | _ => simp [literalToken]
    | «variable» | parameter =>
      intro h
      cases h
    | star s => exact absurd rfl (hbase rfl s)
    | list => rw [Expression.tokens_list]; simp
    | listComprehension => rw [Expression.tokens_listComprehension]; simp
    | patternComprehension => rw [Expression.tokens_patternComprehension]; simp
    | patternPredicate p =>
      rw [tokens_patternPredicate hformed.2.1, chainTokens, List.append_assoc,
        headKind_nodeTokens]
      simp
    | map => rw [Expression.tokens_mapLiteral]; simp [mapTokens]
    | mapProjection => rw [Expression.tokens_mapProjection]; simp
    | call name es s =>
      rw [Expression.tokens_call]
      cases name with
      | nil => exact absurd rfl hformed
      | cons first others =>
        rw [dottedTokens, List.cons_append, List.cons_append, headKind_cons,
          Glyph.symbolToken]
        split <;> simp
    | «case» => rw [Expression.tokens_case]; simp
    | prefixed op e s =>
      cases op with
      | not => rw [tokens_grouped rfl]; simp
      | negate | distinct =>
        intro h
        cases h
    | infixed | nullCheck => rw [tokens_grouped rfl]; simp
    | property | index | slice | labelCheck => cases hatom
    | hole => exact hformed.elim

/-! ## Looking past the first token -/

/-- A name at the start of an expression goes on as an operand does, or the
expression ends with it. -/
theorem headKind_tail_ne {e : Expression} (he : e.Plain) {kind : Kind}
    (hkind : continuesOperand kind = false) {ts : List Token} (hts : headKind ts ≠ kind)
    {n : String} (hhead : headKind (e.tokens ++ ts) = .identifier n) :
    headKind (e.tokens ++ ts).tail ≠ kind := by
  have hcontinues {k : Kind} (hk : continuesOperand k = true) : k ≠ kind := by
    rintro rfl
    rw [hk] at hkind
    cases hkind
  induction e using Expression.suffixInduction generalizing ts with
  | suffix e t htarget ih =>
    rw [Expression.tokens_of_target htarget, List.append_assoc] at hhead ⊢
    exact ih (he.target htarget).1
      (hcontinues (continuesOperand_suffix he.here.1 htarget ts)) hhead
  | atom e hatom =>
    have hformed := he.here.1
    cases e with
    | literal v s =>
      rw [tokens_literal hformed] at hhead
      cases v with
      | boolean b => cases b <;> cases hhead
      | _ => cases hhead
    | «variable» => exact hts
    | parameter | star => cases hhead
    | list => rw [Expression.tokens_list] at hhead; cases hhead
    | listComprehension => rw [Expression.tokens_listComprehension] at hhead; cases hhead
    | patternComprehension =>
      rw [Expression.tokens_patternComprehension] at hhead
      cases hhead
    | patternPredicate p =>
      rw [tokens_patternPredicate hformed.2.1, chainTokens, List.append_assoc,
        headKind_nodeTokens] at hhead
      cases hhead
    | map => rw [Expression.tokens_mapLiteral] at hhead; cases hhead
    | mapProjection =>
      rw [Expression.tokens_mapProjection]
      exact hcontinues rfl
    | call name es s =>
      rw [Expression.tokens_call]
      rcases name with _ | ⟨n, _ | ⟨m, ns⟩⟩
      · exact absurd rfl hformed
      · exact hcontinues rfl
      · exact hcontinues rfl
    | «case» => rw [Expression.tokens_case] at hhead; cases hhead
    | prefixed op =>
      cases op with
      | not => rw [tokens_grouped rfl] at hhead; cases hhead
      | negate | distinct => cases hhead
    | infixed | nullCheck => rw [tokens_grouped rfl] at hhead; cases hhead
    | property | index | slice | labelCheck => cases hatom
    | hole => exact hformed.elim

/-- What follows the group at the start of an expression goes on as an
operand does, or follows the expression. -/
theorem afterGroup_tokens {e : Expression} (he : e.Plain)
    (hbase : e.base.isPatternPredicate = false) {ts : List Token}
    (hhead : headKind (e.tokens ++ ts) = .punctuation .lparen) :
    ∃ after, afterGroup 0 (e.tokens ++ ts) = some after
      ∧ (after = ts ∨ continuesOperand (headKind after) = true) := by
  induction e using Expression.suffixInduction generalizing ts with
  | suffix e t htarget ih =>
    rw [Expression.base_of_target htarget] at hbase
    rw [Expression.tokens_of_target htarget, List.append_assoc] at hhead ⊢
    obtain ⟨after, hafter, heq | hcont⟩ := ih (he.target htarget).1 hbase hhead
    · exact ⟨after, hafter, .inr (heq ▸ continuesOperand_suffix he.here.1 htarget ts)⟩
    · exact ⟨after, hafter, .inr hcont⟩
  | atom e hatom =>
    by_cases hgroup : e.isGrouped = true
    · exact ⟨ts, afterGroup_grouped hgroup ts, .inl rfl⟩
    exfalso
    have hformed := he.here.1
    cases e with
    | literal v s =>
      rw [tokens_literal hformed] at hhead
      cases v with
      | boolean b => cases b <;> cases hhead
      | _ => cases hhead
    | «variable» | parameter | star => cases hhead
    | list => rw [Expression.tokens_list] at hhead; cases hhead
    | listComprehension => rw [Expression.tokens_listComprehension] at hhead; cases hhead
    | patternComprehension =>
      rw [Expression.tokens_patternComprehension] at hhead
      cases hhead
    | patternPredicate => cases hbase
    | map => rw [Expression.tokens_mapLiteral] at hhead; cases hhead
    | mapProjection => rw [Expression.tokens_mapProjection] at hhead; cases hhead
    | call name es s =>
      rw [Expression.tokens_call] at hhead
      cases name with
      | nil => exact hformed rfl
      | cons first others => exact headKind_symbolToken first _ hhead
    | «case» => rw [Expression.tokens_case] at hhead; cases hhead
    | prefixed op =>
      cases op with
      | not => exact hgroup rfl
      | negate | distinct => cases hhead
    | infixed | nullCheck => exact hgroup rfl
    | property | index | slice | labelCheck => cases hatom
    | hole => exact hformed

theorem kindAt_zero_eq {ts : List Token} {kind : Kind} (h : kindAt ts 0 = some kind) :
    headKind ts = kind := by
  rw [kindAt_zero] at h
  cases ts with
  | nil => cases h
  | cons t ts => exact Option.some.inj h

/-- No relationship goes on with an operand, and neither does what may
follow the node of a comprehension. -/
theorem relationshipAhead_of_continues {ts : List Token}
    (h : continuesOperand (headKind ts) = true) :
    relationshipAhead ts = false ∧ kindAt ts 0 ≠ some (.keyword .WHERE)
      ∧ kindAt ts 0 ≠ some (.operator .pipe) := by
  refine ⟨?_, ?_, ?_⟩
  · unfold relationshipAhead
    split
    · next hkind => rw [kindAt_zero_eq hkind] at h; cases h
    · next hkind => rw [kindAt_zero_eq hkind] at h; cases h
    · rfl
  · intro hkind
    rw [kindAt_zero_eq hkind] at h
    cases h
  · intro hkind
    rw [kindAt_zero_eq hkind] at h
    cases h

/-- A list with items is not taken for a comprehension. -/
theorem comprehensionAhead_list {e : Expression} (he : e.Plain)
    (hbase : e.base.isPatternPredicate = false) {ts : List Token} (t : Token)
    (hts : stopsExpression (headKind ts) = true) (hin : headKind ts ≠ .keyword .IN)
    (hwhere : headKind ts ≠ .keyword .WHERE) (hbar : headKind ts ≠ .operator .pipe) :
    listComprehensionAhead (t :: (e.tokens ++ ts)) = false
      ∧ patternComprehensionAhead (e.tokens ++ ts) = false := by
  have htail (n : Nat) : kindAt (e.tokens ++ ts) (n + 1) = kindAt (e.tokens ++ ts).tail n := by
    cases e.tokens ++ ts <;> rfl
  have heq : headKind ts ≠ .operator .eq := by
    intro h
    rw [h] at hts
    exact absurd hts (by decide)
  constructor
  · unfold listComprehensionAhead
    split
    · next n hname hword =>
      have hhead : headKind (e.tokens ++ ts) = .identifier n := kindAt_zero_eq hname
      have hnext : headKind (e.tokens ++ ts).tail = .keyword .IN :=
        kindAt_zero_eq ((htail 0).symm.trans hword)
      exact absurd hnext (headKind_tail_ne he rfl hin hhead)
    · rfl
  · unfold patternComprehensionAhead
    split
    · next n hname hsign =>
      have hnext : headKind (e.tokens ++ ts).tail = .operator .eq :=
        kindAt_zero_eq ((htail 0).symm.trans hsign)
      exact absurd hnext (headKind_tail_ne he rfl heq (kindAt_zero_eq hname))
    · by_cases hnode : nodeAhead (e.tokens ++ ts) = true
      · have hhead : headKind (e.tokens ++ ts) = .punctuation .lparen := by
          unfold nodeAhead at hnode
          rw [Bool.and_eq_true, decide_eq_true_iff] at hnode
          exact kindAt_zero_eq hnode.1
        obtain ⟨after, hafter, hends⟩ := afterGroup_tokens he hbase hhead
        have hnone : relationshipAhead after = false
            ∧ kindAt after 0 ≠ some (.keyword .WHERE)
            ∧ kindAt after 0 ≠ some (.operator .pipe) := by
          rcases hends with rfl | hcont
          · exact ⟨relationshipAhead_of_stops hts, fun h => hwhere (kindAt_zero_eq h),
              fun h => hbar (kindAt_zero_eq h)⟩
          · exact relationshipAhead_of_continues hcont
        simp only [hafter, hnone, decide_false, Bool.or_false, Bool.and_false]
      · simp only [Bool.not_eq_true _ |>.mp hnode, Bool.false_and]

/-- A comprehension over the matches of a path is seen to be one. -/
theorem patternComprehensionAhead_tokens (p : Pattern) {ts : List Token}
    (hts : headKind ts = .keyword .WHERE ∨ headKind ts = .operator .pipe) :
    patternComprehensionAhead (p.tokens ++ ts) = true := by
  obtain ⟨name, start, chain, s⟩ := p
  have hnode : comprehensionAfterNode (chainTokens start chain ++ ts) = true := by
    unfold comprehensionAfterNode
    rw [chainTokens, List.append_assoc, nodeAhead_tokens, afterGroup_node, Bool.true_and]
    cases chain with
    | nil =>
      cases ts with
      | nil => rcases hts with h | h <;> cases h
      | cons t ts =>
        rcases hts with h | h <;> rw [headKind_cons] at h <;>
          simp [kindAt, h]
    | cons l ls =>
      obtain ⟨r, n⟩ := l
      rw [List.flatMap_cons, Link.tokens_mk, List.append_assoc, List.append_assoc]
      simp only [relationshipAhead_tokens, Bool.true_or]
  rw [Pattern.tokens_mk, List.append_assoc]
  rw [patternComprehensionAhead_eq]
  cases name with
  | none =>
    have hhead : kindAt (chainTokens start chain ++ ts) 0
        = some (.punctuation .lparen) := by
      obtain ⟨name, labels, p, s⟩ := start
      rw [chainTokens, NodePattern.tokens_mk]
      rfl
    simp only [Option.toList_none, List.flatMap_nil, List.nil_append, hhead]
    exact hnode
  | some n => exact hnode

/-- The tokens of a path do not start like those of a list comprehension. -/
theorem listComprehensionAhead_pattern (p : Pattern) (t : Token) (ts : List Token) :
    listComprehensionAhead (t :: (p.tokens ++ ts)) = false := by
  obtain ⟨name, ⟨n, ls, ps, s'⟩, chain, s⟩ := p
  rw [Pattern.tokens_mk, chainTokens, NodePattern.tokens_mk]
  cases name <;> rfl

/-- A call is seen behind the first part of its name. -/
theorem callAhead_dotted (names : List String) (ts : List Token) :
    callAhead ((names.flatMap fun n => [.ofKind (.punctuation .dot), Glyph.symbolToken n])
      ++ .ofKind (.punctuation .lparen) :: ts) = true := by
  induction names with
  | nil => cases ts <;> rfl
  | cons n names ih =>
    rw [List.flatMap_cons, List.append_assoc]
    simp [callAhead, ih]

end Grammar

end Cypher
