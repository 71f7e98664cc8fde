import Cypher.Proofs.Reading.Atom

/-!
# Reading operands

An operand without signs is read from its tokens: the atom first, and then
suffix by suffix. The recursion of the proof is that of the tree, from the
last suffix inwards, while the loop that reads goes the other way. So the
statement is about what the loop does from the operand on: if it reads
`rest` from there, the whole reads the operand and `rest`.
-/

namespace Cypher

namespace Grammar

open Token (Kind)

variable {config : Config} {d k : Nat} {expr : Parser Expression} {rest after : List Token}

/-- The expressions inside one of height `k + 1` are read. -/
theorem ReadsUpTo.children {limit : Nat} (h : ReadsUpTo limit d k expr) {e : Expression} (he : e.Plain)
    (hk : e.height ≤ k + 1) : ∀ c ∈ e.children, c.Plain ∧ ReadsTree d expr c := by
  intro c hc
  have hplain : c.Plain := he.inside c hc
  exact ⟨hplain, h.tree c hplain (Expression.height_children_le hk c hc)⟩

/-- An atom is read from its tokens. -/
theorem reads_atom (hexpr : ReadsUpTo config.maxDepth d k expr) {e : Expression}
    (he : e.Plain) (hk : e.height ≤ k + 1) (hlimit : e.height ≤ config.maxDepth)
    (hatom : e.target? = none) (hsigns : e.signs = [])
    (hrest : Follows e rest) :
    Reads d (atom config expr) (e.tokens ++ rest) rest fun a => a.erase = e.erase := by
  have hchildren := hexpr.children he hk
  have hformed := he.here.1
  have hclear := he.here.2
  unfold atom
  refine Reads.current.bind fun t ht => ?_
  cases e with
  | literal v s =>
    rw [tokens_literal hformed] at ht ⊢
    cases v with
    | integer digits | float digits | string value | null =>
      have hkind := ht.trans (headKind_cons ..)
      simp only [literalToken, Token.kind_ofKind, Keyword.kind_token] at hkind
      simp only [hkind]
      exact reads_leaf.mono fun a ha => by obtain ⟨sp, rfl⟩ := ha; rfl
    | boolean b =>
      cases b <;>
      · have hkind := ht.trans (headKind_cons ..)
        simp only [literalToken, Keyword.kind_token] at hkind
        simp only [hkind]
        exact reads_leaf.mono fun a ha => by obtain ⟨sp, rfl⟩ := ha; rfl
  | «variable» n s =>
    have hkind : t.kind = .identifier n := ht
    simp only [hkind]
    exact (reads_variable hrest.call hrest.brace).mono fun a ha => ha s
  | parameter n s =>
    have hkind : t.kind = .parameter n := ht
    simp only [hkind]
    exact reads_leaf.mono fun a ha => by obtain ⟨sp, rfl⟩ := ha; rfl
  | star s =>
    have hkind : t.kind = .operator .star := ht
    simp only [hkind]
    exact reads_leaf.mono fun a ha => by obtain ⟨sp, rfl⟩ := ha; rfl
  | list es s =>
    rw [Expression.tokens_list, List.cons_append, List.append_assoc] at ht ⊢
    have hkind : t.kind = .punctuation .lbracket := ht
    simp only [hkind]
    exact (reads_list (fun e he => (hchildren e he).1) (fun e he => (hchildren e he).2)
      hclear).mono fun a ha => ha s
  | listComprehension n e filter projection s =>
    rw [Expression.tokens_listComprehension] at ht ⊢
    have hkind : t.kind = .punctuation .lbracket := ht
    simp only [hkind, List.cons_append, List.append_assoc, List.nil_append]
    simp only [Expression.children, List.forall_mem_cons, List.forall_mem_append,
      Option.mem_toList] at hchildren
    obtain ⟨hsource, hfilter, hprojection⟩ := hchildren
    exact (reads_bracket_listComprehension hsource.2 (fun e he => (hfilter e he).2)
      fun e he => (hprojection e he).2).mono fun a ha => ha s
  | patternComprehension p filter e s =>
    rw [Expression.tokens_patternComprehension] at ht ⊢
    have hkind : t.kind = .punctuation .lbracket := ht
    simp only [hkind, List.cons_append, List.append_assoc, List.nil_append]
    simp only [Expression.children, List.forall_mem_append, List.forall_mem_singleton,
      Option.mem_toList] at hchildren
    obtain ⟨hvalues, hfilter, hprojection⟩ := hchildren
    exact (reads_bracket_patternComprehension hformed (fun e he => (hvalues e he).2)
      (fun e he => (hfilter e he).2) hprojection.2).mono fun a ha => ha s
  | patternPredicate p =>
    obtain ⟨name, start, chain, s⟩ := p
    obtain ⟨hpath, hname, hne⟩ := hformed
    cases hname
    rw [tokens_patternPredicate rfl] at ht ⊢
    have hkind : t.kind = .punctuation .lparen := by
      rw [ht, chainTokens, List.append_assoc, headKind_nodeTokens]
    simp only [hkind]
    simp only [Expression.children, Pattern.values, List.forall_mem_append] at hchildren
    exact (reads_patternPredicate hpath.2 hne (fun e he => (hchildren.1 e he).2)
      (fun e he => (hchildren.2 e he).2) (hrest.path rfl)).mono fun a ha => ha s
  | map entries s =>
    rw [Expression.tokens_mapLiteral] at ht ⊢
    have hkind : t.kind = .punctuation .lbrace := ht
    simp only [hkind]
    unfold mapLiteral
    refine (reads_mapEntries fun e he => (hchildren e he).2).bind fun r hr => .pure ?_
    rw [Expression.erase_map, Expression.erase_map, hr]
  | mapProjection n selectors s =>
    rw [Expression.tokens_mapProjection] at ht ⊢
    have hkind : t.kind = .identifier n := ht
    simp only [hkind, List.cons_append, List.append_assoc, List.nil_append]
    exact (reads_named_mapProjection fun e he => (hchildren e he).2).mono fun a ha => ha s
  | call name es s =>
    rw [Expression.tokens_call] at ht ⊢
    have hplain : ∀ e ∈ es, e.Plain := fun e he => (hchildren e he).1
    have hes : ∀ e ∈ es, ReadsTree d expr e := fun e he => (hchildren e he).2
    cases name with
    | nil => exact absurd rfl hformed
    | cons first others =>
      rcases hclear with hexists | hfree
      · cases hexists
        have hkind : t.kind = .keyword .EXISTS := ht
        simp only [hkind, dottedTokens, List.flatMap_nil, List.cons_append,
          List.append_assoc, List.nil_append]
        unfold existsCall
        refine Reads.advance.bind fun _ _ => ?_
        exact (reads_callArguments hplain hes).mono fun a ha => ha s
      · have hfirst := symbolToken_of_free (hfree first rfl)
        rw [dottedTokens, hfirst] at ht ⊢
        have hkind : t.kind = .identifier first := ht
        simp only [hkind, List.cons_append, List.append_assoc, List.nil_append]
        exact (reads_named_call hplain hes).mono fun a ha => ha s
  | «case» o branches otherwise s =>
    rw [Expression.tokens_case] at ht ⊢
    have hkind : t.kind = .keyword .CASE := ht
    simp only [hkind, List.cons_append, List.append_assoc, List.nil_append]
    simp only [Expression.children, List.forall_mem_append, Option.mem_toList] at hchildren
    obtain ⟨ho, hbranches, hotherwise⟩ := hchildren
    exact (reads_case hformed (fun e he => (ho e he).1) (fun e he => (ho e he).2)
      (fun e he => (hbranches e he).2) fun e he => (hotherwise e he).2).mono fun a ha => ha s
  | prefixed op e s =>
    cases op with
    | negate | distinct => cases hsigns
    | not =>
      have hkind : t.kind = .punctuation .lparen := ht
      simp only [hkind]
      exact reads_group hexpr he hk hlimit rfl hrest.path
  | infixed | nullCheck =>
    have hkind : t.kind = .punctuation .lparen := by rw [ht, tokens_grouped rfl]; rfl
    simp only [hkind]
    exact reads_group hexpr he hk hlimit rfl hrest.path
  | property | index | slice | labelCheck => cases hatom
  | hole => exact hformed.elim

/-! ## Suffixes -/

/-- The operand is the expression, up to its spans, and its height is right. -/
def Holds (o : Operand) (e : Expression) : Prop :=
  o.tree.erase = e.erase ∧ o.height = e.height

theorem reads_checkHeight {height : Nat} (h : height ≤ config.maxDepth) :
    Reads d (checkHeight config height) rest rest fun _ => True := by
  unfold checkHeight
  rw [if_pos h]
  exact .pure trivial

theorem reads_grown {o : Operand} {tree e : Expression} {inner : Nat}
    (htree : tree.erase = e.erase) (hheight : max o.height inner + 1 = e.height)
    (hlimit : e.height ≤ config.maxDepth) :
    Reads d (grown config o tree inner) rest rest
      fun r => ∃ o', r = .yield o' ∧ Holds o' e := by
  unfold grown
  refine (reads_checkHeight (hheight ▸ hlimit)).bind fun _ _ => ?_
  exact .pure ⟨_, rfl, htree, hheight⟩

theorem heightOption_congr {o o' : Option Expression}
    (h : o.map Expression.erase = o'.map Expression.erase) :
    heightOption o = heightOption o' := by
  match o, o', h with
  | none, none, _ => rfl
  | some e, some e', h =>
    exact Expression.height_eq_of_erase_eq (Option.some.inj h)

theorem reads_subscript_index {o : Operand} {e i : Expression} {s : Span}
    (ho : Holds o e) (hplain : i.Plain) (hi : ReadsTree d expr i)
    (hlimit : (Expression.index e i s).height ≤ config.maxDepth) :
    Reads d (subscript config expr o)
      (.ofKind (.punctuation .lbracket)
        :: (i.tokens ++ .ofKind (.punctuation .rbracket) :: rest)) rest
      fun r => ∃ o', r = .yield o' ∧ Holds o' (.index e i s) := by
  unfold subscript
  refine (Reads.expect rfl).bind fun _ _ => ?_
  have hdots : headKind (i.tokens ++ .ofKind (.punctuation .rbracket) :: rest)
      ≠ .operator .dotDot := headKind_tokens_ne hplain rfl _
  refine (Reads.unlessDue hdots (hi _ rfl)).bind ?_
  rintro _ ⟨a, rfl, ha⟩
  refine Reads.current.bind fun t ht => ?_
  have hkind : t.kind = .punctuation .rbracket := ht
  simp only [hkind, reduceCtorEq, if_false]
  unfold indexTail
  refine (Reads.expect rfl).bind fun _ _ => ?_
  refine Reads.spanFrom.bind fun sp _ => reads_grown ?_ ?_ hlimit
  · rw [Expression.erase_index, Expression.erase_index, ho.1, ha]
  · rw [ho.2, Expression.height_eq_of_erase_eq ha, Expression.height]

theorem reads_subscript_slice {o : Operand} {e : Expression} {low high : Option Expression}
    {s : Span} (ho : Holds o e) (hplain : ∀ c ∈ low, c.Plain)
    (hlow : ∀ c ∈ low, ReadsTree d expr c) (hplain' : ∀ c ∈ high, c.Plain)
    (hhigh : ∀ c ∈ high, ReadsTree d expr c)
    (hlimit : (Expression.slice e low high s).height ≤ config.maxDepth) :
    Reads d (subscript config expr o)
      (.ofKind (.punctuation .lbracket)
        :: (behindTokens [] low ++ .ofKind (.operator .dotDot)
          :: (behindTokens [] high ++ .ofKind (.punctuation .rbracket) :: rest))) rest
      fun r => ∃ o', r = .yield o' ∧ Holds o' (.slice e low high s) := by
  have htail (found : Option Expression)
      (hfound : found.map Expression.erase = low.map Expression.erase) :
      Reads d (sliceTail config expr o found)
        (.ofKind (.operator .dotDot)
          :: (behindTokens [] high ++ .ofKind (.punctuation .rbracket) :: rest)) rest
        fun r => ∃ o', r = .yield o' ∧ Holds o' (.slice e low high s) := by
    unfold sliceTail
    refine (Reads.expect rfl).bind fun _ _ => ?_
    refine (reads_unlessDue rfl hplain' hhigh rfl fun _ => rfl).bind fun b hb => ?_
    refine (Reads.expect rfl).bind fun _ _ => ?_
    refine Reads.spanFrom.bind fun sp _ => reads_grown ?_ ?_ hlimit
    · rw [Expression.erase_slice, Expression.erase_slice, ho.1, hfound, hb]
    · rw [ho.2, heightOption_congr hfound, heightOption_congr hb, Expression.height]
  unfold subscript
  refine (Reads.expect rfl).bind fun _ _ => ?_
  refine (reads_unlessDue rfl hplain hlow rfl fun _ => rfl).bind fun found hfound => ?_
  refine Reads.current.bind fun t ht => ?_
  have hkind : t.kind = .operator .dotDot := ht
  cases found with
  | none => exact htail none hfound
  | some a =>
    simp only [hkind, if_true]
    exact htail (some a) hfound

/-- One suffix is read behind its target. -/
theorem reads_suffix (hexpr : ReadsUpTo config.maxDepth d k expr) {e t : Expression}
    (he : e.Plain)
    (hk : e.height ≤ k + 1) (hlimit : k + 1 ≤ config.maxDepth)
    (htarget : e.target? = some t) {o : Operand} (ho : Holds o t)
    (hcolon : e.isLabelCheck = true → headKind rest ≠ .punctuation .colon) :
    Reads d (suffix config expr o) (e.suffixTokens ++ rest) rest
      fun r => ∃ o', r = .yield o' ∧ Holds o' e := by
  have hchildren := hexpr.children he hk
  have hformed := he.here.1
  have hlimit := Nat.le_trans hk hlimit
  unfold suffix
  refine Reads.current.bind fun u hu => ?_
  cases e with
  | property e n s =>
    cases htarget
    have hkind : u.kind = .punctuation .dot := hu
    simp only [hkind]
    unfold propertyAccess
    refine Reads.advance.bind fun _ _ => ?_
    refine (Reads.symbolicName (Glyph.symbolicName?_symbolToken n)).bindEq ?_
    refine Reads.spanFrom.bind fun sp _ => reads_grown ?_ ?_ hlimit
    · rw [Expression.erase_property, Expression.erase_property, ho.1]
    · rw [ho.2, Nat.max_zero, Expression.height]
  | index e i s =>
    cases htarget
    have hkind : u.kind = .punctuation .lbracket := hu
    have hi := hchildren i (by simp [Expression.children])
    simp only [hkind, Expression.suffixTokens, List.cons_append, List.append_assoc,
      List.nil_append]
    exact reads_subscript_index ho hi.1 hi.2 hlimit
  | slice e low high s =>
    cases htarget
    have hkind : u.kind = .punctuation .lbracket := hu
    simp only [Expression.children, List.forall_mem_cons, List.forall_mem_append,
      Option.mem_toList] at hchildren
    obtain ⟨-, hlow, hhigh⟩ := hchildren
    simp only [hkind, Expression.suffixTokens, List.cons_append, List.append_assoc,
      List.nil_append]
    exact reads_subscript_slice ho (fun c hc => (hlow c hc).1) (fun c hc => (hlow c hc).2)
      (fun c hc => (hhigh c hc).1) (fun c hc => (hhigh c hc).2) hlimit
  | labelCheck e ls s =>
    cases htarget
    have hkind : u.kind = .punctuation .colon := hu.trans (headKind_labelTokens hformed rest)
    simp only [hkind]
    refine Reads.lookAhead.bind fun ahead hahead => ?_
    have hname : (ahead[1]?.bind Token.symbolicName?).isSome = true := by
      have hbare : (ahead.map Token.bare)[1]?.bind Token.symbolicName?
          = ahead[1]?.bind Token.symbolicName? := by
        rw [List.getElem?_map, Option.bind_map]
        exact congrArg (ahead[1]?.bind) (funext fun t => Token.symbolicName?_bare t)
      rw [← hbare, hahead]
      cases ls with
      | nil => exact absurd rfl hformed
      | cons l ls =>
        show ((Glyph.symbolToken l).symbolicName?).isSome = true
        rw [Glyph.symbolicName?_symbolToken]
        rfl
    rw [if_pos hname]
    unfold labelCheck
    refine (reads_labelList hformed (hcolon rfl)).bindEq ?_
    refine Reads.spanFrom.bind fun sp _ => reads_grown ?_ ?_ hlimit
    · rw [Expression.erase_labelCheck, Expression.erase_labelCheck, ho.1]
    · rw [ho.2, Nat.max_zero, Expression.height]
  | _ => cases htarget

/-- Only a point and a parenthesis lead on to a call. -/
theorem callAhead_of_ne (hdot : headKind rest ≠ .punctuation .dot)
    (hparen : headKind rest ≠ .punctuation .lparen) : callAhead rest = false := by
  match rest with
  | [] => rfl
  | [t] => simpa [callAhead] using hparen
  | t :: u :: ts =>
    rw [headKind_cons] at hdot hparen
    simp [callAhead, hdot, hparen]

/-- No suffix leads on to a call that does not follow it. -/
theorem callAhead_suffix {e t : Expression} (he : e.Formed) (h : e.target? = some t)
    (hrest : callAhead rest = false) : callAhead (e.suffixTokens ++ rest) = false := by
  cases e with
  | property e n s =>
    show callAhead (.ofKind (.punctuation .dot) :: Glyph.symbolToken n :: rest) = false
    unfold callAhead
    rw [Glyph.symbolicName?_symbolToken, if_pos ⟨rfl, rfl⟩]
    exact hrest
  | index | slice =>
    exact callAhead_of_ne (by simp [Expression.suffixTokens])
      (by simp [Expression.suffixTokens])
  | labelCheck e ls s =>
    have hcolon := headKind_labelTokens he rest
    exact callAhead_of_ne (by simp [Expression.suffixTokens, hcolon])
      (by simp [Expression.suffixTokens, hcolon])
  | _ => cases h

/-- A target may stand before the suffix behind it. -/
theorem Follows.target {e t : Expression} (he : e.Plain) (h : e.target? = some t)
    (hrest : Follows e rest) : Follows t (e.suffixTokens ++ rest) := by
  have hcont := continuesOperand_suffix he.here.1 h rest
  refine ⟨callAhead_suffix he.here.1 h hrest.call, ?_, ?_,
    fun _ => (relationshipAhead_of_continues hcont).1⟩
  · cases e <;> cases h
    · simp [Expression.suffixTokens]
    · simp [Expression.suffixTokens]
    · simp [Expression.suffixTokens]
    · rw [Expression.suffixTokens, headKind_labelTokens he.here.1]
      simp
  · intro hlabel
    cases e <;> cases h
    · simp [Expression.suffixTokens]
    · simp [Expression.suffixTokens]
    · simp [Expression.suffixTokens]
    · exact absurd (he.here.2.2.symm.trans hlabel) Bool.false_ne_true

theorem suffixTokens_ne_nil {e t : Expression} (he : e.Formed) (h : e.target? = some t) :
    0 < e.suffixTokens.length := by
  cases e <;> cases h
  · exact Nat.succ_pos _
  · exact Nat.succ_pos _
  · exact Nat.succ_pos _
  · refine List.length_pos_iff.2 fun hnil => ?_
    have hhead := headKind_labelTokens he []
    rw [Expression.suffixTokens] at hnil
    rw [hnil] at hhead
    cases hhead

/-- The operand is read up to the expression, and on from there. -/
theorem reads_spine (hexpr : ReadsUpTo config.maxDepth d k expr)
    (hlimit : k + 1 ≤ config.maxDepth)
    {Q : Operand → Prop} {e : Expression} (he : e.Plain) (hk : e.height ≤ k + 1)
    (hsigns : e.signs = []) (hrest : Follows e rest)
    (hnext : ∀ o, Holds o e → Iterates d (suffix config expr) o rest after Q) :
    Reads d (operand config expr) (e.tokens ++ rest) after Q := by
  induction e using Expression.suffixInduction generalizing rest with
  | suffix e t htarget ih =>
    have hheight : t.height ≤ k + 1 := by
      have := Expression.height_lt_of_mem_children (Expression.mem_children_of_target htarget)
      omega
    rw [Expression.tokens_of_target htarget, List.append_assoc]
    refine ih (he.target htarget).1 hheight (he.target htarget).2 (hrest.target he htarget)
      fun o ho => ?_
    refine Iterates.next (reads_suffix hexpr he hk hlimit htarget ho hrest.colon) ?_ hnext
    rw [List.length_append]
    have := suffixTokens_ne_nil he.here.1 htarget
    omega
  | atom e hatom =>
    unfold operand
    refine (reads_atom hexpr he hk (by omega) hatom hsigns hrest).bind fun a ha => ?_
    have hheight := Expression.height_eq_of_erase_eq ha
    refine (reads_checkHeight (by omega)).bind fun _ _ => ?_
    exact (hnext ⟨a, a.height⟩ ⟨ha, hheight⟩).reads

/-- What may follow a whole operand. -/
structure Ends (e : Expression) (rest : List Token) : Prop where
  continues : continuesOperand (headKind rest) = false
  path : e.leadsPath = true → relationshipAhead rest = false

theorem Ends.follows {e : Expression} (h : Ends e rest) : Follows e rest := by
  have hmark {m : Punctuation} (hm : continuesOperand (.punctuation m) = true) :
      headKind rest ≠ .punctuation m := by
    intro heq
    have := h.continues
    rw [heq, hm] at this
    cases this
  exact ⟨callAhead_of_ne (hmark rfl) (hmark rfl), hmark rfl, fun _ => hmark rfl, h.path⟩

/-- An operand is read from its tokens. -/
theorem reads_operand (hexpr : ReadsUpTo config.maxDepth d k expr)
    (hlimit : k + 1 ≤ config.maxDepth)
    {e : Expression} (he : e.Plain) (hk : e.height ≤ k + 1) (hsigns : e.signs = [])
    (hrest : Ends e rest) :
    Reads d (operand config expr) (e.tokens ++ rest) rest fun o => Holds o e := by
  refine reads_spine hexpr hlimit he hk hsigns hrest.follows fun o ho => ?_
  refine Iterates.last ?_
  unfold suffix
  refine Reads.current.bind fun t ht => ?_
  have hcont := hrest.continues
  rw [← ht] at hcont
  split
  · next hkind => rw [hkind] at hcont; cases hcont
  · next hkind => rw [hkind] at hcont; cases hcont
  · next hkind => rw [hkind] at hcont; cases hcont
  · exact .pure ⟨o, rfl, ho⟩

end Grammar

end Cypher
