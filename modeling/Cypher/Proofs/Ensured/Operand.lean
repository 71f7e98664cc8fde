import Cypher.Grammar.Operand
import Cypher.Proofs.Compared.Basic
import Cypher.Proofs.Ensured.Pattern

/-!
# What reading an operand ensures

Every node that the grammar builds is MADE of expressions that the parser of
expressions has answered, and can be written and read, unless a hole stands
in its place. An operand is the same node after node: each suffix makes one
more of the operand before it, and none higher than the limit.

So a property is known of all operands if it passes on from the children of
such a node to the node itself; that is the parameter `V` here.
-/

namespace Cypher.Grammar

variable {clean : Prop} {config : Config} {expr : Parser Expression} {V : Expression → Prop}

/-- A path that is read because a relationship of it is seen ahead has one, unless a fault is
got over on the way. -/
def Foresees (expr : Parser Expression) : Prop :=
  ∀ ⦃s p s' begin⦄, s.Sound → patternPredicateAhead s.ahead = true →
    patternChain expr none begin s = .ok p s' → s'.faults = s.faults → p.chain ≠ []

/-- The node can be written and read if no fault is on record, and its children have the
property. -/
def Made (clean : Prop) (V : Expression → Prop) (e : Expression) : Prop :=
  (clean → e.Formed) ∧ ∀ c ∈ e.children, V c

/-- A node within the limit has the property as soon as it is made of expressions
that have it. -/
def Inherited (clean : Prop) (config : Config) (V : Expression → Prop) : Prop :=
  ∀ e, Made clean V e → e.height ≤ config.maxDepth → V e

/-- An operand carries the height of its tree, which is within the limit, and
the tree has the property. -/
structure Measured (config : Config) (V : Expression → Prop) (o : Operand) : Prop where
  height : o.height = o.tree.height
  low : o.height ≤ config.maxDepth
  holds : V o.tree

/-- A node within the limit that is made of expressions with the property is a
measured operand, if its height has been kept. -/
theorem Measured.of_made (hV : Inherited clean config V) {tree : Expression} {height : Nat}
    (hmade : Made clean V tree) (hheight : height = tree.height)
    (hlow : height ≤ config.maxDepth) : Measured config V ⟨tree, height⟩ :=
  ⟨hheight, hlow, hV tree hmade (hheight ▸ hlow)⟩

/-! ## Atoms -/

/-- A hole is made of nothing, and leaves a fault on record. -/
theorem ensures_recoverExpression :
    Ensures clean (recoverExpression config) fun e => Made clean V e ∧ e.height = 1 := by
  unfold recoverExpression
  split
  · constructor
    · intro s e s' hrun
      have hfaults : s'.faults = s.faults ++ [⟨.expectedExpression, s.current.site⟩] := by
        have hreported := reported_skipOperand s
        rwa [hrun] at hreported
      have hrecord (fs : List Fault) : s.Advances { s with faults := s.faults ++ fs } :=
        ⟨List.suffix_refl _, rfl, List.prefix_append _ _, rfl⟩
      cases hrun
      refine ⟨(hrecord _).trans (.advanceBy _ _), fun _ hclean => ⟨⟨fun hc => ?_, ?_⟩, rfl⟩⟩
      · have hnone := hclean hc
        rw [hfaults] at hnone
        exact absurd hnone (List.append_ne_nil_of_right_ne_nil _ (List.cons_ne_nil _ _))
      · exact List.forall_mem_nil _
    · intro s fault s' hrun
      cases hrun
  · exact .fail

theorem ensures_leaf {make : Span → Expression} {Q : Expression → Prop} (h : ∀ s, Q (make s)) :
    Ensures clean (leaf make) Q := by
  unfold leaf
  exact .next .current fun t => .map .advance fun _ _ => h t.span

theorem ensures_callArguments (hexpr : Ensures clean expr V) {name : List String}
    (hname : name ≠ []) {begin : Nat} :
    Ensures clean (callArguments expr name begin) (Made clean V) := by
  unfold callArguments
  refine .next .expect fun _ => ?_
  refine hexpr.commaSeparatedUntil.bind fun arguments => ?_
  refine .next .expect fun _ => ?_
  exact .map .spanFrom fun s _ harguments => ⟨fun _ => hname, harguments⟩

theorem ensures_call (hexpr : Ensures clean expr V) {first : String} {begin : Nat} :
    Ensures clean (call expr first begin) (Made clean V) := by
  unfold call
  refine .next .advance fun _ => ?_
  refine .next Ensures.symbolicName.behind.many fun others => ?_
  exact ensures_callArguments hexpr (List.cons_ne_nil _ _)

theorem ensures_mapSelector (hexpr : Ensures clean expr V) :
    Ensures clean (mapSelector expr) fun s => ∀ c ∈ s.values, V c := by
  have hdot {begin : Nat} : Ensures clean (dotSelector begin) fun s => ∀ c ∈ s.values, V c := by
    unfold dotSelector
    refine .next .consume fun due => ?_
    split
    · exact .map .spanFrom fun s _ => List.forall_mem_nil _
    · refine .next .symbolicName fun key => ?_
      exact .map .spanFrom fun s _ => List.forall_mem_nil _
  unfold mapSelector
  refine .next .start fun begin => ?_
  refine .next .consume fun due => ?_
  split
  · exact hdot
  · refine .next .lookAhead fun ahead => ?_
    split
    · exact (ensures_mapEntry hexpr).map fun entry hentry => List.forall_mem_singleton.2 hentry
    · unfold variableSelector
      refine .next .current fun t => ?_
      exact .map .variableName fun name _ => List.forall_mem_nil _

theorem ensures_mapProjection (hexpr : Ensures clean expr V) {name : String} {begin : Nat} :
    Ensures clean (mapProjection expr name begin) (Made clean V) := by
  unfold mapProjection
  refine .next .expect fun _ => ?_
  refine (ensures_mapSelector hexpr).commaSeparatedUntil.bind fun selectors => ?_
  refine .next .expect fun _ => ?_
  refine .map .spanFrom fun s _ hselectors => ⟨fun _ => trivial, fun c hc => ?_⟩
  obtain ⟨selector, hselector, hmem⟩ := List.mem_flatMap.1 hc
  exact hselectors selector hselector c hmem

theorem ensures_named (hexpr : Ensures clean expr V) {name : String} {span : Span} :
    Ensures clean (named expr name span) (Made clean V) := by
  unfold named
  refine .next .lookAhead fun ahead => ?_
  split
  · exact ensures_call hexpr
  · refine .next .advance fun _ => ?_
    refine .next .current fun t => ?_
    split
    · exact ensures_mapProjection hexpr
    · exact .pure ⟨fun _ => trivial, List.forall_mem_nil _⟩

theorem ensures_mapLiteral (hexpr : Ensures clean expr V) :
    Ensures clean (mapLiteral expr) (Made clean V) := by
  unfold mapLiteral
  refine (ensures_mapEntries hexpr).map fun found hfound => ⟨fun _ => trivial, ?_⟩
  rw [Expression.children, List.forall_mem_map]
  exact hfound

theorem ensures_optionalWhere (hexpr : Ensures clean expr V) :
    Ensures clean (optionalWhere expr) fun o => ∀ c ∈ o.toList, V c :=
  hexpr.behind.mono fun _ ho c hc => ho c (Option.mem_toList.1 hc)

theorem ensures_listComprehension (hexpr : Ensures clean expr V) {begin : Nat} :
    Ensures clean (listComprehension expr begin) (Made clean V) := by
  unfold listComprehension
  refine .next .expect fun _ => ?_
  refine .next .variableName fun name => ?_
  refine .next .expect fun _ => ?_
  refine hexpr.bind fun source => ?_
  refine (ensures_optionalWhere hexpr).bind fun filter => ?_
  refine hexpr.behind.bind fun projection => ?_
  refine .next .expect fun _ => ?_
  refine .map .spanFrom fun s _ hprojection hfilter hsource => ⟨fun _ => trivial, ?_⟩
  rw [Expression.children, List.forall_mem_cons, List.forall_mem_append]
  exact ⟨hsource, hfilter, fun c hc => hprojection c (Option.mem_toList.1 hc)⟩

theorem ensures_patternComprehension (hexpr : Ensures clean expr V) {begin : Nat} :
    Ensures clean (patternComprehension expr begin) (Made clean V) := by
  unfold patternComprehension
  refine .next .expect fun _ => ?_
  refine (ensures_pattern hexpr).bind fun path => ?_
  refine (ensures_optionalWhere hexpr).bind fun filter => ?_
  refine .next .expect fun _ => ?_
  refine hexpr.bind fun projection => ?_
  refine .next .expect fun _ => ?_
  refine .map .spanFrom fun s _ hprojection hfilter hpath => ⟨fun _ => hpath.1, ?_⟩
  rw [Expression.children, List.forall_mem_append, List.forall_mem_append,
    List.forall_mem_singleton]
  exact ⟨hpath.2, hfilter, hprojection⟩

theorem ensures_listLiteral (hexpr : Ensures clean expr V) {begin : Nat} :
    Ensures clean (listLiteral expr begin) (Made clean V) := by
  unfold listLiteral
  refine .next .expect fun _ => ?_
  refine hexpr.commaSeparatedUntil.bind fun items => ?_
  refine .next .expect fun _ => ?_
  exact .map .spanFrom fun s _ hitems => ⟨fun _ => trivial, hitems⟩

theorem ensures_bracket (hexpr : Ensures clean expr V) {begin : Nat} :
    Ensures clean (bracket expr begin) (Made clean V) := by
  unfold bracket
  refine .next .lookAhead fun ahead => ?_
  split
  · exact ensures_listComprehension hexpr
  · split
    · exact ensures_patternComprehension hexpr
    · exact ensures_listLiteral hexpr

theorem ensures_caseBranch (hexpr : Ensures clean expr V) :
    Ensures clean (caseBranch expr) fun o => ∀ b ∈ o, ∀ c ∈ b.values, V c := by
  unfold caseBranch
  refine .next .start fun begin => ?_
  refine .next .consume fun due => ?_
  split
  · refine hexpr.bind fun condition => ?_
    refine .next .expect fun _ => ?_
    refine hexpr.bind fun result => ?_
    refine .map .spanFrom fun s _ hresult hcondition b hb => ?_
    cases hb
    rw [CaseBranch.values, List.forall_mem_cons, List.forall_mem_singleton]
    exact ⟨hcondition, hresult⟩
  · exact .pure fun b hb => by cases hb

theorem ensures_caseExpression (hexpr : Ensures clean expr V) {begin : Nat} :
    Ensures clean (caseExpression expr begin) (Made clean V) := by
  unfold caseExpression
  refine .next .expect fun _ => ?_
  refine hexpr.unlessDue.bind fun operand => ?_
  refine (ensures_caseBranch hexpr).many.bind fun branches => ?_
  split
  · exact .fail
  · next hsome =>
    refine hexpr.behind.bind fun otherwise => ?_
    refine .next .expect fun _ => ?_
    refine .map .spanFrom fun s _ hotherwise hbranches hoperand => ⟨fun _ => ?_, ?_⟩
    · rintro rfl
      exact hsome rfl
    · rw [Expression.children, List.forall_mem_append, List.forall_mem_append]
      refine ⟨fun c hc => hoperand c (Option.mem_toList.1 hc), fun c hc => ?_,
        fun c hc => hotherwise c (Option.mem_toList.1 hc)⟩
      obtain ⟨b, hb, hmem⟩ := List.mem_flatMap.1 hc
      exact hbranches b hb c hmem

theorem ensures_existsCall (hexpr : Ensures clean expr V) {begin : Nat} :
    Ensures clean (existsCall expr begin) (Made clean V) := by
  unfold existsCall
  refine .next .advance fun _ => ?_
  exact ensures_callArguments hexpr (List.cons_ne_nil _ _)

/-- Parentheses leave no node: what is in them has been answered by the
parser of expressions. -/
theorem ensures_group (hexpr : Ensures clean expr V) (hforesees : Foresees expr)
    {begin : Nat} : Ensures clean (group expr begin) fun e => Made clean V e ∨ V e := by
  have htold {s p s'} (hs : s.Sound) (hahead : patternPredicateAhead s.ahead = true)
      (hrun : patternChain expr none begin s = .ok p s') (hclean : clean → s'.faults = [])
      (hc : clean) : p.chain ≠ [] := by
    have hnone := ((ensures_patternChain hexpr).ok hrun).1.faults_nil (hclean hc)
    exact hforesees hs hahead hrun ((hclean hc).trans hnone.symm)
  unfold group
  refine .ifAhead (ensures_patternChain hexpr) htold (fun p => ?_) ?_
  · exact .pure fun hchain hp => .inl ⟨fun hc => ⟨hp.2.1, hp.1, hchain hc⟩, hp.2.2⟩
  · unfold parenthesized
    refine .next .expect fun _ => ?_
    refine hexpr.bind fun inner => ?_
    exact .map .expect fun _ _ hinner => .inr hinner

/-- A node without children is made as soon as it is formed. -/
theorem Made.bare {e : Expression} (hformed : e.Formed) (hnone : e.children = []) :
    Made clean V e :=
  ⟨fun _ => hformed, by rw [hnone]; exact List.forall_mem_nil _⟩

theorem ensures_atom (hexpr : Ensures clean expr V) (hforesees : Foresees expr) :
    Ensures clean (atom config expr) fun e => Made clean V e ∨ V e := by
  unfold atom
  refine .bind .current fun t => ?_
  -- A leaf is as well-formed as the token it is made of.
  have hleaf {make : Span → Expression} (hformed : t.Sound → ∀ s, (make s).Formed)
      (hnone : ∀ s, (make s).children = []) :
      Ensures clean (leaf make) fun e => t.Sound → Made clean V e ∨ V e :=
    ensures_leaf fun s ht => .inl (.bare (hformed ht s) (hnone s))
  have hnode {p : Parser Expression} (hp : Ensures clean p (Made clean V)) :
      Ensures clean p fun e => t.Sound → Made clean V e ∨ V e :=
    hp.mono fun _ he _ => .inl he
  split
  · next hkind =>
    refine hleaf (fun ht _ => ?_) fun _ => rfl
    rwa [Token.Sound, hkind] at ht
  · next hkind =>
    refine hleaf (fun ht _ => ?_) fun _ => rfl
    rwa [Token.Sound, hkind] at ht
  · exact hleaf (fun _ _ => trivial) fun _ => rfl
  · exact hleaf (fun _ _ => trivial) fun _ => rfl
  · exact hleaf (fun _ _ => trivial) fun _ => rfl
  · exact hleaf (fun _ _ => trivial) fun _ => rfl
  · next hkind =>
    refine hleaf (fun ht _ => ?_) fun _ => rfl
    rwa [Token.Sound, hkind] at ht
  · exact hleaf (fun _ _ => trivial) fun _ => rfl
  · exact (ensures_group hexpr hforesees).mono fun _ he _ => he
  · exact hnode (ensures_bracket hexpr)
  · exact hnode (ensures_mapLiteral hexpr)
  · exact hnode (ensures_caseExpression hexpr)
  · exact hnode (ensures_existsCall hexpr)
  · exact hnode (ensures_named hexpr)
  · exact hnode (ensures_recoverExpression.mono fun _ he => he.1)

/-! ## Suffixes -/

section Suffixes

variable {o : Operand}

/-- A node on top of the operand is one more measured operand, if it is as high
as the operand and the rest of its children let it be. What it takes for the
node to be made may come from what has been read since. -/
theorem ensures_grown (hV : Inherited clean config V)
    {tree : Expression} {inner : Nat} {K : Prop}
    (hheight : tree.height = max o.tree.height inner + 1)
    (hmade : K → V o.tree → Made clean V tree) :
    Ensures clean (grown config o tree inner) fun r =>
      K → Measured config V o → Measured config V r.run := by
  unfold grown
  refine .map .checkHeight fun _ hlow hk ho => ?_
  exact .of_made hV (hmade hk ho.holds) (by rw [hheight, ho.height]) hlow

theorem ensures_propertyAccess (hV : Inherited clean config V) :
    Ensures clean (propertyAccess config o) fun r =>
      Measured config V o → Measured config V r.run := by
  unfold propertyAccess
  refine .next .advance fun _ => ?_
  refine .bind .symbolicName fun key => ?_
  refine .next .spanFrom fun span => ?_
  exact ensures_grown hV (by simp [Expression.height]) fun _ ho =>
    ⟨fun _ => trivial, List.forall_mem_singleton.2 ho⟩

theorem ensures_indexTail (hV : Inherited clean config V) {position : Expression} :
    Ensures clean (indexTail config o position) fun r =>
      V position → Measured config V o → Measured config V r.run := by
  unfold indexTail
  refine .next .expect fun _ => ?_
  refine .next .spanFrom fun span => ?_
  refine ensures_grown hV (by simp [Expression.height]) fun hposition ho =>
    ⟨fun _ => trivial, ?_⟩
  rw [Expression.children, List.forall_mem_cons, List.forall_mem_singleton]
  exact ⟨ho, hposition⟩

theorem ensures_sliceTail (hV : Inherited clean config V) (hexpr : Ensures clean expr V)
    {lower : Option Expression} :
    Ensures clean (sliceTail config expr o lower) fun r =>
      (∀ e ∈ lower, V e) → Measured config V o → Measured config V r.run := by
  unfold sliceTail
  refine .next .expect fun _ => ?_
  refine hexpr.unlessDue.bind fun upper => ?_
  refine .next .expect fun _ => ?_
  refine .next .spanFrom fun span => ?_
  have hheight : (Expression.slice o.tree lower upper span).height
      = max o.tree.height (max (heightOption lower) (heightOption upper)) + 1 := by
    simp [Expression.height]
  have hmade (h : (∀ e ∈ upper, V e) ∧ ∀ e ∈ lower, V e) (ho : V o.tree) :
      Made clean V (.slice o.tree lower upper span) := by
    refine ⟨fun _ => trivial, ?_⟩
    rw [Expression.children, List.forall_mem_cons, List.forall_mem_append]
    exact ⟨ho, fun c hc => h.2 c (Option.mem_toList.1 hc),
      fun c hc => h.1 c (Option.mem_toList.1 hc)⟩
  exact (ensures_grown hV hheight hmade).mono fun r hr hupper hlower => hr ⟨hupper, hlower⟩

theorem ensures_subscript (hV : Inherited clean config V) (hexpr : Ensures clean expr V) :
    Ensures clean (subscript config expr o) fun r =>
      Measured config V o → Measured config V r.run := by
  unfold subscript
  refine .next .expect fun _ => ?_
  refine hexpr.unlessDue.bind fun lower => ?_
  refine .next .current fun t => ?_
  cases lower with
  | none => exact (ensures_sliceTail hV hexpr).mono fun r hr _ => hr nofun
  | some position =>
    dsimp only
    split
    · exact ensures_sliceTail hV hexpr
    · exact (ensures_indexTail hV).mono fun r hr hlower => hr (hlower position rfl)

theorem ensures_labelCheck (hV : Inherited clean config V) :
    Ensures clean (labelCheck config o) fun r =>
      Measured config V o → Measured config V r.run := by
  unfold labelCheck
  refine .bind .labelList fun labels => ?_
  refine .next .spanFrom fun span => ?_
  exact ensures_grown hV (by simp [Expression.height]) fun hlabels ho =>
    ⟨fun _ => hlabels, List.forall_mem_singleton.2 ho⟩

theorem ensures_suffix (hV : Inherited clean config V) (hexpr : Ensures clean expr V) :
    Ensures clean (suffix config expr o) fun r =>
      Measured config V o → Measured config V r.run := by
  have hdone : Ensures clean (pure (.done o) : Parser (ForInStep Operand)) fun r =>
      Measured config V o → Measured config V r.run := .pure id
  unfold suffix
  refine .next .current fun t => ?_
  split
  · exact ensures_propertyAccess hV
  · exact ensures_subscript hV hexpr
  · refine .next .lookAhead fun ahead => ?_
    split
    · exact ensures_labelCheck hV
    · exact hdone
  · exact hdone

end Suffixes

/-- An operand is as high as its tree, however many suffixes it has, and is
within the limit. -/
theorem ensures_operand (hV : Inherited clean config V) (hexpr : Ensures clean expr V)
    (hforesees : Foresees expr) :
    Ensures clean (operand config expr) (Measured config V) := by
  unfold operand
  refine (ensures_atom hexpr hforesees).bind fun tree => ?_
  refine .bind .checkHeight fun _ => ?_
  refine (Ensures.iterate (fun _ => ensures_suffix hV hexpr) _).mono
    fun o ho hlow hmade => ho ⟨rfl, hlow, ?_⟩
  exact hmade.elim (fun h => hV tree h hlow) id

end Cypher.Grammar
