import Cypher.Grammar.Clause
import Cypher.Proofs.Reading.Atom
import Cypher.Proofs.Token.Query

/-!
# Reading clauses

A clause is read from its tokens wherever another clause, a `UNION` or the
end of the text follows. No part of a clause can be told from what follows
it by more than one token; that is why nothing is asked of the clause
behind it.
-/

namespace Cypher

namespace Grammar

open Token (Kind)

/-- The tokens that may follow a clause. -/
def endsClause (kind : Kind) : Bool := kind = .eof || kind.startsClause

theorem ne_of_endsClause {kind other : Kind} (h : endsClause kind = true)
    (hother : endsClause other = false) : kind ≠ other := by
  rintro rfl
  rw [hother] at h
  cases h

/-- Expressions stop where a clause does. -/
theorem stops_of_endsClause {kind : Kind} (h : endsClause kind = true) :
    stopsExpression kind = true := by
  cases kind with
  | eof => rfl
  | keyword word => cases word <;> first | rfl | cases h
  | _ => cases h

section

variable {d : Nat} {expr : Parser Expression} {rest : List Token}

/-- The parser reads a plain expression. -/
def ReadsPlain (d : Nat) (expr : Parser Expression) (e : Expression) : Prop :=
  e.Plain ∧ ReadsTree d expr e

/-! ## Items -/

theorem reads_optionalAlias {n : Option String} (h : headKind rest ≠ .keyword .AS) :
    Reads d optionalAlias (aliasTokens n ++ rest) rest (· = n) := by
  unfold optionalAlias
  cases n with
  | none => exact Reads.behind_absent h
  | some n =>
    refine (Reads.behind rfl (Reads.variableName rfl)).mono ?_
    rintro _ ⟨_, rfl, rfl⟩
    rfl

theorem reads_assignment (how : Assignment) :
    Reads d assignment (how.token :: rest) rest (· = how) := by
  unfold assignment
  cases how with
  | replace =>
    refine (Reads.consume rfl).bindEq ?_
    rw [if_pos rfl]
    exact .pure rfl
  | extend =>
    refine (Reads.consume_absent (by simp [Assignment.token])).bindEq ?_
    rw [if_neg Bool.false_ne_true]
    refine (Reads.consume rfl).bindEq ?_
    rw [if_pos rfl]
    exact .pure rfl

theorem reads_setItem {i : SetItem} (hi : i.Formed)
    (he : ∀ e ∈ i.value?, ReadsTree d expr e)
    (hstop : stopsExpression (headKind rest) = true) :
    Reads d (setItem expr) (i.tokens ++ rest) rest fun a => a.erase = i.erase := by
  unfold setItem
  refine Reads.start.bind fun begin _ => ?_
  match i with
  | .property target how e s =>
    rw [SetItem.tokens_property, PropertyPath.tokens]
    simp only [List.cons_append, List.nil_append]
    refine (Reads.variableName rfl).bindEq ?_
    refine Reads.current.bind fun t ht => ?_
    have hkind : t.kind = .punctuation .dot := ht
    simp only [hkind]
    unfold setProperty
    refine Reads.advance.bind fun _ _ => ?_
    refine (Reads.symbolicName (Glyph.symbolicName?_symbolToken _)).bindEq ?_
    refine Reads.spanFrom.bind fun sp _ => ?_
    refine (reads_assignment how).bindEq ?_
    refine (he e rfl _ hstop).bind fun a ha => ?_
    refine Reads.spanFrom.bind fun sp' _ => .pure ?_
    exact congrArg (SetItem.property ⟨_, _, .nowhere⟩ how · .nowhere) ha
  | .variable n how e s =>
    rw [SetItem.tokens_variable]
    simp only [List.cons_append]
    refine (Reads.variableName rfl).bindEq ?_
    refine Reads.current.bind fun t ht => ?_
    have hkind : t.kind = how.token.kind := ht
    have hset : Reads d (setVariable expr n begin) (how.token :: (e.tokens ++ rest)) rest
        fun a => a.erase = (SetItem.variable n how e s).erase := by
      unfold setVariable
      refine (reads_assignment how).bindEq ?_
      refine (he e rfl _ hstop).bind fun a ha => ?_
      refine Reads.spanFrom.bind fun sp' _ => .pure ?_
      exact congrArg (SetItem.variable n how · .nowhere) ha
    cases how <;> simp only [hkind, Assignment.token, Token.kind_ofKind] <;> exact hset
  | .labels n names s =>
    rw [SetItem.tokens_labels]
    simp only [List.cons_append]
    refine (Reads.variableName rfl).bindEq ?_
    refine Reads.current.bind fun t ht => ?_
    have hkind : t.kind = .punctuation .colon := ht.trans (headKind_labelTokens hi rest)
    simp only [hkind]
    unfold setLabels
    refine (reads_labelList hi ?_).bindEq ?_
    · intro h
      rw [h] at hstop
      cases hstop
    · exact Reads.spanFrom.bind fun sp' _ => .pure rfl

theorem reads_setItems {items : List SetItem} (hne : items ≠ [])
    (hitems : ∀ i ∈ items, i.Formed)
    (hes : ∀ e ∈ items.filterMap SetItem.value?, ReadsTree d expr e)
    (hstop : stopsExpression (headKind rest) = true)
    (hcomma : headKind rest ≠ .punctuation .comma) :
    Reads d (setItems expr) (commaTokens (items.map SetItem.tokens) ++ rest) rest
      fun as => as.map SetItem.erase = items.map SetItem.erase := by
  unfold setItems
  refine Reads.commaSeparated (S := (stopsExpression · = true)) hne rfl hstop hcomma
    fun i hi ts hts => ?_
  exact reads_setItem (hitems i hi) (fun e he => hes e (List.mem_filterMap.2 ⟨i, hi, he⟩)) hts

theorem reads_mergeAction {a : MergeAction} (ha : a.Formed)
    (hes : ∀ e ∈ a.items.filterMap SetItem.value?, ReadsTree d expr e)
    (hstop : stopsExpression (headKind rest) = true)
    (hcomma : headKind rest ≠ .punctuation .comma) :
    Reads d (mergeAction expr) (a.tokens ++ rest) rest
      fun o => ∃ b, o = some b ∧ b.erase = a.erase := by
  rw [MergeAction.tokens_eq]
  simp only [List.cons_append]
  unfold mergeAction
  refine Reads.start.bind fun begin _ => ?_
  refine (Reads.consume rfl).bindEq ?_
  rw [if_pos rfl]
  have htrigger {ts : List Token} :
      Reads d mergeTrigger (a.trigger.word.token :: ts) ts (· = a.trigger) := by
    unfold mergeTrigger
    cases a.trigger with
    | onCreate =>
      refine (Reads.consume rfl).bindEq ?_
      rw [if_pos rfl]
      exact .pure rfl
    | onMatch =>
      refine (Reads.consume_absent (by simp [MergeTrigger.word])).bindEq ?_
      rw [if_neg Bool.false_ne_true]
      refine (Reads.consume rfl).bindEq ?_
      rw [if_pos rfl]
      exact .pure rfl
  refine htrigger.bindEq ?_
  refine (Reads.expect rfl).bind fun _ _ => ?_
  refine (reads_setItems ha.1 ha.2 hes hstop hcomma).bind fun items hitems => ?_
  refine Reads.spanFrom.bind fun sp _ => .pure ⟨_, rfl, ?_⟩
  exact congrArg (MergeAction.mk a.trigger · .nowhere) hitems

theorem reads_mergeAction_absent (h : headKind rest ≠ .keyword .ON) :
    Reads d (mergeAction expr) rest rest (· = none) := by
  unfold mergeAction
  refine Reads.start.bind fun begin _ => ?_
  refine (Reads.consume_absent h).bindEq ?_
  exact .pure rfl

theorem reads_removeItem {i : RemoveItem} (hi : i.Formed)
    (hcolon : headKind rest ≠ .punctuation .colon) :
    Reads d removeItem (i.tokens ++ rest) rest fun a => a.erase = i.erase := by
  unfold removeItem
  refine Reads.start.bind fun begin _ => ?_
  match i with
  | .property target =>
    refine (Reads.variableName (t := .ofKind (.identifier target.name)) rfl).bindEq ?_
    unfold removeTail
    refine (Reads.consume (t := .ofKind (.punctuation .dot)) rfl).bindEq ?_
    rw [if_pos rfl]
    refine (Reads.symbolicName (Glyph.symbolicName?_symbolToken target.key)).bindEq ?_
    exact Reads.spanFrom.bind fun sp _ => .pure rfl
  | .labels n names s =>
    rw [RemoveItem.tokens_labels, List.cons_append]
    refine (Reads.variableName rfl).bindEq ?_
    unfold removeTail
    refine (Reads.consume_absent (by rw [headKind_labelTokens hi]; simp)).bindEq ?_
    rw [if_neg Bool.false_ne_true]
    refine (reads_labelList hi hcolon).bindEq ?_
    exact Reads.spanFrom.bind fun sp _ => .pure rfl

theorem reads_projectionItem {i : ProjectionItem} (hi : i.Clear)
    (he : ∀ e ∈ i.value?, ReadsPlain d expr e)
    (hstop : stopsExpression (headKind rest) = true) (has : headKind rest ≠ .keyword .AS) :
    Reads d (projectionItem expr) (i.tokens ++ rest) rest fun a => a.erase = i.erase := by
  unfold projectionItem
  refine Reads.current.bind fun t ht => ?_
  match i with
  | .everything s =>
    have hkind : t.kind = .operator .star := ht
    rw [if_pos hkind]
    exact (Reads.advance (t := .ofKind (.operator .star))).bind fun _ _ => .pure rfl
  | .expression e n s =>
    obtain ⟨hplain, hread⟩ := he e rfl
    rw [ProjectionItem.tokens_expression, List.append_assoc] at ht ⊢
    rw [if_neg (ht ▸ headKind_ne_star hplain hi _)]
    unfold expressionItem
    have hnext : stopsExpression (headKind (aliasTokens n ++ rest)) = true := by
      cases n with
      | none => exact hstop
      | some n => rfl
    refine (hread _ hnext).bind fun a ha => ?_
    refine (reads_optionalAlias has).bindEq ?_
    refine Reads.spanFrom.bind fun sp _ => .pure ?_
    exact congrArg (ProjectionItem.expression · n .nowhere) ha

theorem reads_projection {p : Projection} (hne : p.items ≠ []) (hp : p.Clear)
    (hes : ∀ e ∈ p.values, ReadsPlain d expr e)
    (hstop : stopsExpression (headKind rest) = true) (has : headKind rest ≠ .keyword .AS)
    (hcomma : headKind rest ≠ .punctuation .comma) :
    Reads d (projection expr) (p.tokens ++ rest) rest fun a => a.erase = p.erase := by
  obtain ⟨distinct, items, s⟩ := p
  rw [Projection.tokens_mk, List.append_assoc]
  unfold projection
  refine Reads.start.bind fun begin _ => ?_
  have hdistinct : Reads d (consume (.keyword .DISTINCT))
      ((if distinct then [Keyword.DISTINCT.token] else [])
        ++ (commaTokens (items.map ProjectionItem.tokens) ++ rest))
      (commaTokens (items.map ProjectionItem.tokens) ++ rest) (· = distinct) := by
    cases distinct with
    | true => exact Reads.consume rfl
    | false =>
      refine Reads.consume_absent ?_
      cases items with
      | nil => exact absurd rfl hne
      | cons i items =>
        rw [List.map_cons, commaTokens, if_neg Bool.false_ne_true, List.nil_append,
          List.append_assoc]
        cases i with
        | everything s =>
          intro h
          cases h
        | expression e n s =>
          have hsign := hp.2 rfl e n s rfl
          obtain ⟨hplain, -⟩ := hes e (by simp [Projection.values, ProjectionItem.value?])
          rw [ProjectionItem.tokens_expression, Expression.tokens_signs, List.append_assoc,
            List.append_assoc]
          cases hsigns : e.signs with
          | nil =>
            have hatom := startsAtom_tokens hplain.core e.signs_core
            intro h
            have := hatom (aliasTokens n ++ (List.flatMap
              (Token.ofKind (.punctuation .comma) :: ·)
                (List.map ProjectionItem.tokens items) ++ rest))
            rw [List.map_nil, List.nil_append] at h
            rw [h] at this
            cases this
          | cons op ops =>
            rw [hsigns] at hsign
            cases op with
            | distinct => exact absurd rfl hsign
            | not => simp [PrefixOperator.token]
            | negate => simp [PrefixOperator.token]
  refine hdistinct.bindEq ?_
  refine (Reads.commaSeparated (S := fun kind => stopsExpression kind = true
    ∧ kind ≠ .keyword .AS) (g := ProjectionItem.erase) (h := ProjectionItem.erase) hne
    ⟨rfl, by simp⟩ ⟨hstop, has⟩ hcomma fun i hi ts hts => ?_).bind fun as has' => ?_
  · exact reads_projectionItem (hp.1 i hi)
      (fun e he => hes e (List.mem_filterMap.2 ⟨i, hi, he⟩)) hts.1 hts.2
  · refine Reads.spanFrom.bind fun sp _ => .pure ?_
    exact congrArg (Projection.mk distinct · .nowhere) has'

theorem reads_sortItem {i : SortItem} (he : ReadsTree d expr i.key)
    (hstop : stopsExpression (headKind rest) = true)
    (hdirection : headKind rest ∉ [.keyword .ASC, .keyword .ASCENDING, .keyword .DESC,
      .keyword .DESCENDING]) :
    Reads d (sortItem expr) (i.tokens ++ rest) rest fun a => a.erase = i.erase := by
  obtain ⟨e, dir, s⟩ := i
  rw [SortItem.tokens_mk, List.append_assoc]
  unfold sortItem
  refine Reads.start.bind fun begin _ => ?_
  have hnext : stopsExpression (headKind (dir.tokens ++ rest)) = true := by
    cases dir with
    | ascending => exact hstop
    | descending => rfl
  refine (he _ hnext).bind fun a ha => ?_
  have hdir : Reads d sortDirection (dir.tokens ++ rest) rest (· = dir) := by
    unfold sortDirection
    refine Reads.current.bind fun t ht => ?_
    cases dir with
    | ascending =>
      have hkind : t.kind = headKind rest := ht
      rw [← hkind] at hdirection
      split
      · next h => exact absurd (h ▸ hdirection) (by simp)
      · next h => exact absurd (h ▸ hdirection) (by simp)
      · next h => exact absurd (h ▸ hdirection) (by simp)
      · next h => exact absurd (h ▸ hdirection) (by simp)
      · exact .pure rfl
    | descending =>
      have hkind : t.kind = .keyword .DESC := ht
      simp only [hkind]
      exact (Reads.advance (t := Keyword.DESC.token)).bind fun _ _ => .pure rfl
  refine hdir.bindEq ?_
  refine Reads.spanFrom.bind fun sp _ => .pure ?_
  exact congrArg (SortItem.mk · dir .nowhere) ha

theorem reads_yieldItem {i : YieldItem} (has : headKind rest ≠ .keyword .AS) :
    Reads d yieldItem (i.tokens ++ rest) rest fun a => a.erase = i.erase := by
  obtain ⟨field, n, s⟩ := i
  rw [YieldItem.tokens_mk, List.cons_append]
  unfold yieldItem
  refine Reads.start.bind fun begin _ => ?_
  refine (Reads.variableName rfl).bindEq ?_
  refine (reads_optionalAlias has).bindEq ?_
  exact Reads.spanFrom.bind fun sp _ => .pure rfl

/-! ## Clauses -/

theorem reads_optionalWhere {o : Option Expression} (ho : ∀ e ∈ o, ReadsTree d expr e)
    (hend : endsClause (headKind rest) = true) :
    Reads d (optionalWhere expr) (behindTokens [Keyword.WHERE.token] o ++ rest) rest
      fun a => a.map Expression.erase = o.map Expression.erase :=
  reads_behind rfl ho (stops_of_endsClause hend) (ne_of_endsClause hend rfl)

/-- Where a condition may follow, so may what follows the clause. -/
theorem headKind_where (o : Option Expression) (hend : endsClause (headKind rest) = true) :
    stopsExpression (headKind (behindTokens [Keyword.WHERE.token] o ++ rest)) = true
      ∧ headKind (behindTokens [Keyword.WHERE.token] o ++ rest) ≠ .punctuation .comma
      ∧ headKind (behindTokens [Keyword.WHERE.token] o ++ rest) ≠ .keyword .AS := by
  rcases headKind_behindTokens Keyword.WHERE.token o rest with h | h <;> rw [h]
  · exact ⟨stops_of_endsClause hend, ne_of_endsClause hend rfl, ne_of_endsClause hend rfl⟩
  · exact ⟨rfl, by simp, by simp⟩

theorem reads_matchClause {kind : MatchKind} {begin : Nat} {ps : List Pattern}
    {filter : Option Expression} (hne : ps ≠ []) (hps : ∀ p ∈ ps, p.Formed)
    (hvalues : ∀ e ∈ ps.flatMap Pattern.values, ReadsTree d expr e)
    (hfilter : ∀ e ∈ filter, ReadsTree d expr e)
    (hend : endsClause (headKind rest) = true) :
    Reads d (matchClause expr kind begin)
      (commaTokens (ps.map Pattern.tokens)
        ++ (behindTokens [Keyword.WHERE.token] filter ++ rest)) rest
      fun a => ∀ s, a.erase = (Clause.matchPatterns kind ps filter s).erase := by
  obtain ⟨hstop, hcomma, -⟩ := headKind_where filter hend
  unfold matchClause
  refine (reads_patternList hne hps hvalues hstop hcomma).bind fun as has => ?_
  refine (reads_optionalWhere hfilter hend).bind fun f hf => ?_
  refine Reads.spanFrom.bind fun sp _ => .pure fun s => ?_
  exact congrArg₂ (Clause.matchPatterns kind · · .nowhere) has hf

theorem reads_mergeClause {begin : Nat} {ps : List Pattern} {actions : List MergeAction}
    (hne : ps ≠ []) (hps : ∀ p ∈ ps, p.Formed)
    (hvalues : ∀ e ∈ ps.flatMap Pattern.values, ReadsTree d expr e)
    (hactions : ∀ a ∈ actions, a.Formed)
    (hes : ∀ e ∈ actions.flatMap fun a => a.items.filterMap SetItem.value?,
      ReadsTree d expr e)
    (hend : endsClause (headKind rest) = true) :
    Reads d (mergeClause expr begin)
      (commaTokens (ps.map Pattern.tokens) ++ (actions.flatMap MergeAction.tokens ++ rest))
      rest fun a => ∀ s, a.erase = (Clause.merge ps actions s).erase := by
  have hstop := stops_of_endsClause hend
  have hcomma : headKind rest ≠ .punctuation .comma := ne_of_endsClause hend rfl
  have hnext : stopsExpression (headKind (actions.flatMap MergeAction.tokens ++ rest)) = true
      ∧ headKind (actions.flatMap MergeAction.tokens ++ rest) ≠ .punctuation .comma := by
    cases actions with
    | nil => exact ⟨hstop, hcomma⟩
    | cons a as =>
      rw [List.flatMap_cons, MergeAction.tokens_eq]
      exact ⟨rfl, by simp⟩
  unfold mergeClause
  refine (reads_patternList hne hps hvalues hnext.1 hnext.2).bind fun as has => ?_
  refine (Reads.many (S := fun ts => stopsExpression (headKind ts) = true
    ∧ headKind ts ≠ .punctuation .comma) (g := MergeAction.erase) (h := MergeAction.erase)
    ⟨hstop, hcomma⟩ (reads_mergeAction_absent (ne_of_endsClause hend rfl)) (fun a _ => ?_)
    fun a ha ts hts => ⟨?_, ?_⟩).bind fun bs hbs => ?_
  · rw [MergeAction.tokens_eq]
    exact List.cons_ne_nil _ _
  · rw [MergeAction.tokens_eq]
    exact ⟨rfl, by simp⟩
  · exact reads_mergeAction (hactions a ha)
      (fun e he => hes e (List.mem_flatMap.2 ⟨a, ha, he⟩)) hts.1 hts.2
  · refine Reads.spanFrom.bind fun sp _ => .pure fun s => ?_
    exact congrArg₂ (Clause.merge · · .nowhere) has hbs

theorem reads_withClause {begin : Nat} {p : Projection} {filter : Option Expression}
    (hne : p.items ≠ []) (hp : p.Clear) (hes : ∀ e ∈ p.values, ReadsPlain d expr e)
    (hfilter : ∀ e ∈ filter, ReadsTree d expr e)
    (hend : endsClause (headKind rest) = true) :
    Reads d (withClause expr begin)
      (p.tokens ++ (behindTokens [Keyword.WHERE.token] filter ++ rest)) rest
      fun a => ∀ s, a.erase = (Clause.withProjection p filter s).erase := by
  obtain ⟨hstop, hcomma, has⟩ := headKind_where filter hend
  unfold withClause
  refine (reads_projection hne hp hes hstop has hcomma).bind fun q hq => ?_
  refine (reads_optionalWhere hfilter hend).bind fun f hf => ?_
  refine Reads.spanFrom.bind fun sp _ => .pure fun s => ?_
  exact congrArg₂ (Clause.withProjection · · .nowhere) hq hf

theorem reads_procedureName {names : List String} (hne : names ≠ [])
    (hdot : headKind rest ≠ .punctuation .dot) :
    Reads d procedureName (dottedTokens names ++ rest) rest (· = names) := by
  cases names with
  | nil => exact absurd rfl hne
  | cons first others =>
    unfold procedureName
    rw [dottedTokens, List.cons_append]
    refine (Reads.symbolicName (Glyph.symbolicName?_symbolToken first)).bindEq ?_
    exact (reads_dottedTail hdot).bind fun as has => .pure (by rw [has])

theorem reads_callClause {begin : Nat} {procedure : List String}
    {arguments : Option (List Expression)} {fields : Option (List YieldItem)}
    {filter : Option Expression} (hne : procedure ≠ []) (hfields : fields ≠ some [])
    (hes : ∀ e ∈ arguments.getD [], ReadsPlain d expr e)
    (hfilter : ∀ e ∈ filter, ReadsTree d expr e)
    (hend : endsClause (headKind rest) = true) :
    Reads d (callClause expr begin)
      (dottedTokens procedure ++ (argumentTokens arguments
        ++ (yieldTokens fields ++ (behindTokens [Keyword.WHERE.token] filter ++ rest)))) rest
      fun a => ∀ s, a.erase = (Clause.call procedure arguments fields filter s).erase := by
  -- Each part that may be left out is told from those behind it.
  have hwhere := headKind_behindTokens Keyword.WHERE.token filter rest
  have hyield {kind : Kind} (h : endsClause kind = false) (hw : kind ≠ .keyword .WHERE)
      (hy : kind ≠ .keyword .YIELD) :
      headKind (yieldTokens fields ++ (behindTokens [Keyword.WHERE.token] filter ++ rest))
        ≠ kind := by
    cases fields with
    | none =>
      rcases hwhere with hhead | hhead
      · exact hhead ▸ ne_of_endsClause hend h
      · exact hhead ▸ hw.symm
    | some fs => exact hy.symm
  unfold callClause
  refine (reads_procedureName hne ?_).bindEq ?_
  · cases arguments with
    | none => exact hyield rfl (by simp) (by simp)
    | some es => simp [argumentTokens]
  have harguments : Reads d (behind (.punctuation .lparen) (procedureArguments expr))
      (argumentTokens arguments
        ++ (yieldTokens fields ++ (behindTokens [Keyword.WHERE.token] filter ++ rest)))
      (yieldTokens fields ++ (behindTokens [Keyword.WHERE.token] filter ++ rest))
      fun a => a.map (List.map Expression.erase)
        = arguments.map (List.map Expression.erase) := by
    cases arguments with
    | none =>
      refine (Reads.behind_absent (hyield rfl (by simp) (by simp))).mono fun a ha => ?_
      rw [ha]
    | some es =>
      simp only [argumentTokens, List.cons_append, List.append_assoc, List.nil_append]
      unfold procedureArguments
      refine (Reads.behind rfl (Q := fun as => as.map Expression.erase
        = es.map Expression.erase) ?_).mono ?_
      · refine (reads_arguments rfl rfl (by simp) rfl (fun e he => (hes e he).1)
          fun e he => (hes e he).2).bind fun as has => ?_
        exact (Reads.expect rfl).bind fun _ _ => .pure has
      · rintro _ ⟨as, rfl, has⟩
        exact congrArg some has
  refine harguments.bind fun as has => ?_
  have hfieldsRead : Reads d (behind (.keyword .YIELD) (commaSeparated yieldItem))
      (yieldTokens fields ++ (behindTokens [Keyword.WHERE.token] filter ++ rest))
      (behindTokens [Keyword.WHERE.token] filter ++ rest)
      fun a => a.map (List.map YieldItem.erase) = fields.map (List.map YieldItem.erase) := by
    obtain ⟨-, hcomma, has⟩ := headKind_where filter hend
    cases fields with
    | none =>
      refine (Reads.behind_absent ?_).mono fun a ha => by rw [ha]
      show headKind (behindTokens [Keyword.WHERE.token] filter ++ rest) ≠ _
      rcases hwhere with hhead | hhead
      · exact hhead ▸ ne_of_endsClause hend rfl
      · simp [hhead]
    | some fs =>
      have hfs : fs ≠ [] := fun h => hfields (congrArg some h)
      refine (Reads.behind rfl (Reads.commaSeparated (S := (· ≠ .keyword .AS))
        (g := YieldItem.erase) (h := YieldItem.erase) hfs (by simp) has hcomma
        fun i _ ts hts => reads_yieldItem hts)).mono ?_
      rintro _ ⟨as, rfl, has⟩
      exact congrArg some has
  refine hfieldsRead.bind fun fs hfs => ?_
  refine (reads_optionalWhere hfilter hend).bind fun f hf => ?_
  refine Reads.spanFrom.bind fun sp _ => .pure fun s => ?_
  show Clause.call procedure (as.map (List.map Expression.erase))
    (fs.map (List.map YieldItem.erase)) (f.map Expression.erase) .nowhere = _
  rw [has, hfs, hf]
  rfl

/-- A clause is read from its tokens. -/
theorem reads_clause {c : Clause} (hc : c.Plain) (hes : ∀ e ∈ c.values, ReadsTree d expr e)
    (hend : endsClause (headKind rest) = true) :
    Reads d (clause expr) (c.tokens ++ rest) rest
      fun o => ∃ a, o = some a ∧ a.erase = c.erase := by
  have hstop := stops_of_endsClause hend
  have hcomma : headKind rest ≠ .punctuation .comma := ne_of_endsClause hend rfl
  have hplain : ∀ e ∈ c.values, ReadsPlain d expr e := fun e he =>
    ⟨hc.values e he, hes e he⟩
  have hformed := hc.formed
  have hclear := hc.clear
  simp only [Clause.values, List.forall_mem_append] at hes hplain
  -- A word that starts a clause is followed by the rest of the clause.
  have hword {word : Keyword} {tail : List Token} {p : Nat → Parser Clause}
      (htokens : c.tokens = word.token :: tail)
      (hbehind : ∀ begin, clauseBehind expr word begin = some (p begin))
      (hp : ∀ begin, Reads d (p begin) (tail ++ rest) rest fun a => a.erase = c.erase) :
      Reads d (clause expr) (c.tokens ++ rest) rest
        fun o => ∃ a, o = some a ∧ a.erase = c.erase := by
    rw [htokens, List.cons_append]
    unfold clause
    refine Reads.current.bind fun t ht => ?_
    have hkind : t.kind = .keyword word := ht
    simp only [hkind, hbehind]
    refine Reads.advance.bind fun _ _ => ?_
    exact (hp _).bind fun a ha => .pure ⟨a, rfl, ha⟩
  cases c with
  | matchPatterns kind ps filter s =>
    have hmatch (begin : Nat) : Reads d (matchClause expr kind begin) _ rest _ :=
      reads_matchClause hformed.1 hformed.2 hes.1 (fun e he => hes.2 e (Option.mem_toList.2 he)) hend
    cases kind with
    | regular =>
      refine hword (Clause.tokens_eq _) (fun _ => rfl) fun begin => ?_
      rw [List.append_assoc]
      exact (hmatch begin).mono fun a ha => ha s
    | optional | mandatory =>
      refine hword (Clause.tokens_eq _) (fun _ => rfl) fun begin => ?_
      show Reads d _ (Keyword.MATCH.token
        :: ((commaTokens (ps.map Pattern.tokens) ++ behindTokens [Keyword.WHERE.token] filter)
          ++ rest)) rest _
      rw [List.append_assoc]
      refine (Reads.expect rfl).bind fun _ _ => ?_
      exact (hmatch begin).mono fun a ha => ha s
  | create ps s =>
    refine hword (Clause.tokens_eq _) (fun _ => rfl) fun begin => ?_
    refine (reads_patternList hformed.1 hformed.2 hes.1 hstop hcomma).bind fun as has => ?_
    refine Reads.spanFrom.bind fun sp _ => .pure ?_
    exact congrArg (Clause.create · .nowhere) has
  | merge ps actions s =>
    refine hword (Clause.tokens_eq _) (fun _ => rfl) fun begin => ?_
    rw [List.append_assoc]
    exact (reads_mergeClause hformed.1.1 hformed.1.2 hes.1 hformed.2 hes.2 hend).mono
      fun a ha => ha s
  | set items s =>
    refine hword (Clause.tokens_eq _) (fun _ => rfl) fun begin => ?_
    refine (reads_setItems hformed.1 hformed.2 hes.2 hstop hcomma).bind fun as has => ?_
    refine Reads.spanFrom.bind fun sp _ => .pure ?_
    exact congrArg (Clause.set · .nowhere) has
  | delete detach es s =>
    have hdelete (begin : Nat) : Reads d (deleteClause expr detach begin)
        (commaTokens (es.map Expression.tokens) ++ rest) rest
        fun a => a.erase = (Clause.delete detach es s).erase := by
      unfold deleteClause
      refine (Reads.commaSeparated (S := (stopsExpression · = true)) (g := Expression.erase)
        (h := Expression.erase) hformed rfl hstop hcomma
        fun e he ts hts => hes.2 e he ts hts).bind fun as has => ?_
      refine Reads.spanFrom.bind fun sp _ => .pure ?_
      exact congrArg (Clause.delete detach · .nowhere) has
    cases detach with
    | false => exact hword (Clause.tokens_eq _) (fun _ => rfl) hdelete
    | true =>
      refine hword (Clause.tokens_eq _) (fun _ => rfl) fun begin => ?_
      show Reads d _ (Keyword.DELETE.token
        :: (commaTokens (es.map Expression.tokens) ++ rest)) rest _
      exact (Reads.expect rfl).bind fun _ _ => hdelete begin
  | remove items s =>
    refine hword (Clause.tokens_eq _) (fun _ => rfl) fun begin => ?_
    refine (Reads.commaSeparated (S := (stopsExpression · = true)) (g := RemoveItem.erase)
      (h := RemoveItem.erase) hformed.1 rfl hstop hcomma fun i hi ts hts => ?_).bind
      fun as has => ?_
    · refine reads_removeItem (hformed.2 i hi) fun h => ?_
      rw [h] at hts
      cases hts
    · refine Reads.spanFrom.bind fun sp _ => .pure ?_
      exact congrArg (Clause.remove · .nowhere) has
  | withProjection p filter s =>
    refine hword (Clause.tokens_eq _) (fun _ => rfl) fun begin => ?_
    rw [List.append_assoc]
    have hvalues := hplain.2
    simp only [Clause.expressions, List.forall_mem_append, Option.mem_toList] at hvalues
    exact (reads_withClause hformed hclear hvalues.1 (fun e he => (hvalues.2 e he).2)
      hend).mono fun a ha => ha s
  | unwind e n s =>
    refine hword (Clause.tokens_eq _) (fun _ => rfl) fun begin => ?_
    rw [List.append_assoc]
    refine (hes.2 e (by simp [Clause.expressions]) _ rfl).bind fun a ha => ?_
    refine (Reads.expect rfl).bind fun _ _ => ?_
    refine (Reads.variableName (t := .ofKind (.identifier n)) rfl).bindEq ?_
    refine Reads.spanFrom.bind fun sp _ => .pure ?_
    exact congrArg (Clause.unwind · n .nowhere) ha
  | returnProjection p s =>
    refine hword (Clause.tokens_eq _) (fun _ => rfl) fun begin => ?_
    refine (reads_projection hformed hclear hplain.2 hstop (ne_of_endsClause hend rfl)
      hcomma).bind fun q hq => ?_
    refine Reads.spanFrom.bind fun sp _ => .pure ?_
    exact congrArg (Clause.returnProjection · .nowhere) hq
  | orderBy items s =>
    refine hword (Clause.tokens_eq _) (fun _ => rfl) fun begin => ?_
    rw [List.cons_append]
    refine (Reads.expect rfl).bind fun _ _ => ?_
    refine (Reads.commaSeparated (S := fun kind => stopsExpression kind = true
      ∧ kind ∉ [.keyword .ASC, .keyword .ASCENDING, .keyword .DESC, .keyword .DESCENDING])
      (g := SortItem.erase) (h := SortItem.erase) hformed ⟨rfl, by simp⟩
      ⟨hstop, ?_⟩ hcomma fun i hi ts hts => ?_).bind fun as has => ?_
    · simp only [List.mem_cons, List.not_mem_nil, or_false, not_or]
      exact ⟨ne_of_endsClause hend rfl, ne_of_endsClause hend rfl,
        ne_of_endsClause hend rfl, ne_of_endsClause hend rfl⟩
    · exact reads_sortItem (hes.2 _ (List.mem_map_of_mem hi)) hts.1 hts.2
    · refine Reads.spanFrom.bind fun sp _ => .pure ?_
      exact congrArg (Clause.orderBy · .nowhere) has
  | skip e s =>
    refine hword (Clause.tokens_eq _) (fun _ => rfl) fun begin => ?_
    refine (hes.2 e (by simp [Clause.expressions]) _ hstop).bind fun a ha => ?_
    refine Reads.spanFrom.bind fun sp _ => .pure ?_
    exact congrArg (Clause.skip · .nowhere) ha
  | limit e s =>
    refine hword (Clause.tokens_eq _) (fun _ => rfl) fun begin => ?_
    refine (hes.2 e (by simp [Clause.expressions]) _ hstop).bind fun a ha => ?_
    refine Reads.spanFrom.bind fun sp _ => .pure ?_
    exact congrArg (Clause.limit · .nowhere) ha
  | call procedure arguments fields filter s =>
    refine hword (Clause.tokens_eq _) (fun _ => rfl) fun begin => ?_
    simp only [List.append_assoc]
    have hvalues := hplain.2
    simp only [Clause.expressions, List.forall_mem_append, Option.mem_toList] at hvalues
    exact (reads_callClause hformed.1 hformed.2 hvalues.1 (fun e he => (hvalues.2 e he).2)
      hend).mono fun a ha => ha s

/-- No clause is read where none starts. -/
theorem reads_clause_absent (h : headKind rest = .eof ∨ headKind rest = .keyword .UNION) :
    Reads d (clause expr) rest rest (· = none) := by
  unfold clause
  refine Reads.current.bind fun t ht => ?_
  rcases h with h | h <;> rw [h] at ht <;> simp only [ht] <;> exact .pure rfl

/-- A clause starts with a word that starts clauses, and is none of those
that do not. -/
theorem headKind_clause (c : Clause) (ts : List Token) :
    (headKind (c.tokens ++ ts)).startsClause = true
      ∧ headKind (c.tokens ++ ts) ≠ .keyword .UNION := by
  rw [Clause.tokens_eq]
  cases c with
  | matchPatterns kind => cases kind <;> exact ⟨rfl, by simp [MatchKind.tokens]⟩
  | delete detach => cases detach <;> exact ⟨rfl, by simp⟩
  | _ => exact ⟨rfl, by simp⟩

end

end Grammar

end Cypher
