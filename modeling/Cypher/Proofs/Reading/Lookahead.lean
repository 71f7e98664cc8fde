import Cypher.Grammar.Lookahead
import Cypher.Proofs.Token.Tree
import Cypher.Proofs.Tree.Clear
import Cypher.Proofs.Tree.Glyphs

/-!
# Looking ahead

The questions about the tokens ahead are answered by kinds alone, so bare
tokens answer them alike. Those that pass over a group count parentheses.
The parentheses of a tree's glyphs balance, whatever the tree: a group is
passed over to the parenthesis that closes it.
-/

namespace Cypher

namespace Grammar

open Token (Kind)

/-! ## Bare tokens -/

/-- Where a token stands and what it was spelled like do not tell its kind. -/
@[simp] theorem kindAt_bare (ts : List Token) (n : Nat) :
    kindAt (ts.map Token.bare) n = kindAt ts n := by
  unfold kindAt
  rw [List.getElem?_map, Option.map_map]
  exact congrArg (fun f => Option.map f ts[n]?) (funext fun t => Token.kind_bare t)

@[simp] theorem relationshipAhead_bare (ts : List Token) :
    relationshipAhead (ts.map Token.bare) = relationshipAhead ts := by
  unfold relationshipAhead
  simp only [kindAt_bare]

theorem kindAt_zero (ts : List Token) :
    kindAt ts 0 = ts.head?.map Token.kind := by
  cases ts <;> rfl

/-- Only kinds are looked at. -/
theorem relationshipAhead_congr {xs ys : List Token}
    (h : xs.map Token.kind = ys.map Token.kind) :
    relationshipAhead xs = relationshipAhead ys := by
  have hkind (n : Nat) : kindAt xs n = kindAt ys n := by
    unfold kindAt
    rw [← List.getElem?_map, h, List.getElem?_map]
  unfold relationshipAhead
  simp only [hkind]

@[simp] theorem nodeAhead_bare (ts : List Token) :
    nodeAhead (ts.map Token.bare) = nodeAhead ts := by
  unfold nodeAhead
  simp only [kindAt_bare]

theorem afterGroup_bare (n : Nat) (ts : List Token) :
    afterGroup n (ts.map Token.bare) = (afterGroup n ts).map (List.map Token.bare) := by
  induction ts generalizing n with
  | nil => rfl
  | cons t ts ih =>
    rw [List.map_cons, afterGroup, afterGroup, Token.kind_bare]
    split
    · exact ih _
    · split
      · rfl
      · exact ih _
    · exact ih _

@[simp] theorem patternPredicateAhead_bare (ts : List Token) :
    patternPredicateAhead (ts.map Token.bare) = patternPredicateAhead ts := by
  unfold patternPredicateAhead
  rw [nodeAhead_bare, afterGroup_bare]
  cases afterGroup 0 ts with
  | none => rfl
  | some rest => simp only [Option.map_some, relationshipAhead_bare]

/-- What is looked for behind the name of a path: a node, and after it more of
the path or the end of it. -/
def comprehensionAfterNode (node : List Token) : Bool :=
  nodeAhead node &&
    match afterGroup 0 node with
    | some rest =>
      relationshipAhead rest || kindAt rest 0 = some (.keyword .WHERE)
        || kindAt rest 0 = some (.operator .pipe)
    | none => false

theorem patternComprehensionAhead_eq (ahead : List Token) :
    patternComprehensionAhead ahead = comprehensionAfterNode
      (match kindAt ahead 0, kindAt ahead 1 with
        | some (.identifier _), some (.operator .eq) => ahead.drop 2
        | _, _ => ahead) :=
  rfl

theorem patternComprehensionAhead_of_name {ahead : List Token} {name : String}
    (hname : kindAt ahead 0 = some (.identifier name))
    (heq : kindAt ahead 1 = some (.operator .eq)) :
    patternComprehensionAhead ahead = comprehensionAfterNode (ahead.drop 2) := by
  rw [patternComprehensionAhead_eq, hname, heq]

theorem patternComprehensionAhead_of_no_name {ahead : List Token}
    (hother : ∀ name, kindAt ahead 0 = some (.identifier name) →
      kindAt ahead 1 = some (.operator .eq) → False) :
    patternComprehensionAhead ahead = comprehensionAfterNode ahead := by
  rw [patternComprehensionAhead_eq]
  split
  · next hname heq => exact (hother _ hname heq).elim
  · rfl

@[simp] theorem comprehensionAfterNode_bare (node : List Token) :
    comprehensionAfterNode (node.map Token.bare) = comprehensionAfterNode node := by
  unfold comprehensionAfterNode
  rw [nodeAhead_bare, afterGroup_bare]
  cases afterGroup 0 node with
  | none => rfl
  | some rest => simp only [Option.map_some, relationshipAhead_bare, kindAt_bare]

@[simp] theorem patternComprehensionAhead_bare (ts : List Token) :
    patternComprehensionAhead (ts.map Token.bare) = patternComprehensionAhead ts := by
  simp only [patternComprehensionAhead_eq, kindAt_bare, ← List.map_drop]
  split <;> exact comprehensionAfterNode_bare _

@[simp] theorem listComprehensionAhead_bare (ts : List Token) :
    listComprehensionAhead (ts.map Token.bare) = listComprehensionAhead ts := by
  unfold listComprehensionAhead
  simp only [kindAt_bare]

@[simp] theorem callAhead_bare (ts : List Token) :
    callAhead (ts.map Token.bare) = callAhead ts := by
  fun_induction callAhead ts with
  | case1 => rfl
  | case2 t => simp [callAhead]
  | case3 t part rest h ih => simp [callAhead, h, ih]
  | case4 t part rest h => simp [callAhead, h]

/-! ## Balanced parentheses -/

/-- The number of open parentheses after a run of glyphs, if none is
closed that the run did not open beyond the first `n`. -/
def nesting (n : Nat) : List Glyph → Option Nat
  | [] => some n
  | .mark .lparen :: gs => nesting (n + 1) gs
  | .mark .rparen :: gs =>
    match n with
    | 0 => none
    | n + 1 => nesting n gs
  | _ :: gs => nesting n gs

theorem nesting_append (n : Nat) (xs ys : List Glyph) :
    nesting n (xs ++ ys) = (nesting n xs).bind (nesting · ys) := by
  fun_induction nesting n xs with
  | case1 => rfl
  | case2 n gs ih => rw [List.cons_append, nesting, ih]
  | case3 gs => rfl
  | case4 gs n ih => rw [List.cons_append, nesting, ih]
  | case5 n g gs hopen hclose ih => rw [List.cons_append, nesting, ih] <;> assumption

/-- A run of glyphs that closes what it opens, and no more. -/
def Balanced (gs : List Glyph) : Prop := ∀ n, nesting n gs = some n

/-- Only a mark is read as a mark. -/
theorem eq_mark_of_kind {g : Glyph} {t : Token} {m : Punctuation} (h : g.token? = some t)
    (hkind : t.kind = .punctuation m) : g = .mark m := by
  cases g with
  | mark m' =>
    cases h
    cases hkind
    rfl
  | symbol n =>
    cases h
    unfold Glyph.symbolToken at hkind
    split at hkind <;> cases hkind
  | number digits =>
    cases h
    rw [Token.kind_ofKind, Glyph.numberKind] at hkind
    split at hkind <;> cases hkind
  | space | hole => cases h
  | _ =>
    cases h
    cases hkind

/-- A balanced run is passed over inside a group. -/
theorem afterGroup_nesting {n m : Nat} {gs : List Glyph} (h : nesting n gs = some m)
    (rest : List Token) :
    afterGroup (n + 1) (Glyph.tokens gs ++ rest) = afterGroup (m + 1) rest := by
  fun_induction nesting n gs with
  | case1 n =>
    cases h
    rfl
  | case2 n gs ih =>
    rw [Glyph.tokens_cons]
    exact ih h
  | case3 gs => cases h
  | case4 gs n ih =>
    rw [Glyph.tokens_cons]
    exact ih h
  | case5 n g gs hopen hclose ih =>
    rw [Glyph.tokens_cons, List.append_assoc, ← ih h]
    cases hg : g.token? with
    | none => rfl
    | some t =>
      rw [Option.toList_some, List.singleton_append, afterGroup]
      split
      · next hkind => exact absurd (eq_mark_of_kind hg hkind) fun h => hopen (h ▸ rfl)
      · next hkind => exact absurd (eq_mark_of_kind hg hkind) fun h => hclose (h ▸ rfl)
      · rfl

namespace Balanced

variable {xs ys : List Glyph}

theorem nil : Balanced [] := fun _ => rfl

theorem append (hx : Balanced xs) (hy : Balanced ys) : Balanced (xs ++ ys) := by
  intro n
  rw [nesting_append, hx n, Option.bind_some, hy n]

theorem parenthesized (hx : Balanced xs) :
    Balanced (.mark .lparen :: (xs ++ [.mark .rparen])) := by
  intro n
  rw [nesting, nesting_append, hx, Option.bind_some, nesting, nesting]

theorem joined {between : List Glyph} (hbetween : Balanced between)
    {runs : List (List Glyph)} (h : ∀ run ∈ runs, Balanced run) :
    Balanced (Glyph.joined between runs) := by
  induction runs with
  | nil => exact nil
  | cons run runs ih =>
    rw [List.forall_mem_cons] at h
    cases runs with
    | nil => exact h.1
    | cons next runs => exact (h.1.append hbetween).append (ih h.2)

theorem separated {runs : List (List Glyph)} (h : ∀ run ∈ runs, Balanced run) :
    Balanced (Glyph.separated runs) :=
  joined (fun _ => rfl) h

theorem flatMap {α : Type} {f : α → List Glyph} {as : List α}
    (h : ∀ a ∈ as, Balanced (f a)) : Balanced (as.flatMap f) := by
  induction as with
  | nil => exact nil
  | cons a as ih =>
    rw [List.forall_mem_cons] at h
    exact h.1.append (ih h.2)

theorem spaced (hx : Balanced xs) (hy : Balanced ys) : Balanced (spaced xs ys) := by
  unfold Cypher.spaced
  split
  · exact hx.append hy
  · exact hx.append fun n => by rw [nesting, hy n] <;> nofun

/-! ### Trees -/

/-- The glyphs of the expression are balanced. -/
private abbrev Closed (e : Expression) : Prop := Balanced e.glyphs

theorem labels (names : List String) : Balanced (Glyph.labels names) :=
  flatMap fun _ _ _ => rfl

private theorem entry {e : MapEntry} (h : Closed e.value) : Balanced e.glyphs := by
  obtain ⟨k, v, s⟩ := e
  intro n
  simp [MapEntry.glyphs, nesting, h n]

private theorem entries {es : List MapEntry} (h : ∀ c ∈ es.map MapEntry.value, Closed c) :
    Balanced (.mark .lbrace :: Glyph.separated (es.map MapEntry.glyphs)
      ++ [.mark .rbrace]) := by
  have hruns : Balanced (Glyph.separated (es.map MapEntry.glyphs)) := by
    refine separated fun run hrun => ?_
    obtain ⟨e, he, rfl⟩ := List.mem_map.1 hrun
    exact entry (h _ (List.mem_map_of_mem he))
  intro n
  simp [nesting_append, nesting, hruns n]

private theorem properties {p : Option Properties}
    (h : ∀ c ∈ p.toList.flatMap Properties.values, Closed c) :
    Balanced (glyphsProperties p) := by
  match p with
  | none => exact nil
  | some (.parameter _ _) => exact fun _ => rfl
  | some (.map es _) =>
    rw [glyphsProperties, Properties.glyphs, glyphsEntries_eq]
    exact entries (by simpa [Properties.values] using h)

private theorem node_group_of {n : NodePattern} (h : ∀ c ∈ n.values, Closed c) :
    ∃ gs, Balanced gs ∧ n.glyphs = .mark .lparen :: (gs ++ [.mark .rparen]) := by
  obtain ⟨name, ls, p, s⟩ := n
  refine ⟨_, spaced (append ?_ (labels ls)) (properties h), by rw [NodePattern.glyphs]; rfl⟩
  cases name <;> exact fun _ => rfl

private theorem node {n : NodePattern} (h : ∀ c ∈ n.values, Closed c) :
    Balanced n.glyphs := by
  obtain ⟨gs, hgs, hn⟩ := node_group_of h
  rw [hn]
  exact parenthesized hgs

private theorem relationship {r : RelationshipPattern} (h : ∀ c ∈ r.values, Closed c) :
    Balanced r.glyphs := by
  obtain ⟨dir, name, types, hops, p, s⟩ := r
  rw [RelationshipPattern.glyphs]
  have hleft : Balanced (name.toList.map Glyph.name ++ typeGlyphs types
      ++ hops.toList.flatMap HopRange.glyphs) := by
    refine append (append ?_ ?_) (flatMap fun r _ => ?_)
    · cases name <;> exact fun _ => rfl
    · cases types with
      | nil => exact nil
      | cons t ts => exact append (fun _ => rfl) (flatMap fun _ _ _ => rfl)
    · obtain ⟨low, high⟩ := r
      intro n
      cases low with
      | none => cases high <;> rfl
      | some low =>
        cases high with
        | none => rfl
        | some high =>
          simp only [HopRange.glyphs, nesting]
          split <;> rfl
  have hrun := spaced hleft (properties h)
  have hbrackets : Balanced (bracketed (Cypher.spaced (name.toList.map Glyph.name
      ++ typeGlyphs types ++ hops.toList.flatMap HopRange.glyphs)
        (glyphsProperties p))) := by
    unfold bracketed
    split
    · exact nil
    · intro n
      simp only [List.cons_append, nesting_append, nesting, hrun n, Option.bind_some]
  cases dir <;> exact (append (fun _ => rfl) hbrackets).append fun _ => rfl

private theorem link {l : Link} (h : ∀ c ∈ l.values, Closed c) : Balanced l.glyphs := by
  obtain ⟨r, n⟩ := l
  rw [Link.values, List.forall_mem_append] at h
  rw [Link.glyphs]
  exact (relationship h.1).append (node h.2)

theorem pattern_of {p : Pattern} (h : ∀ c ∈ p.values, Closed c) : Balanced p.glyphs := by
  obtain ⟨name, start, chain, s⟩ := p
  rw [Pattern.values, List.forall_mem_append] at h
  have hpath : Balanced (start.glyphs ++ glyphsLinks chain) := by
    rw [glyphsLinks_eq]
    exact (node h.1).append (flatMap fun l hl => link fun c hc =>
      h.2 c (List.mem_flatMap_of_mem hl hc))
  cases name with
  | none => exact hpath
  | some name =>
    intro n
    simpa [Pattern.glyphs, nesting] using hpath n

private theorem option {e : Option Expression} (h : ∀ c ∈ e.toList, Closed c) (n : Nat) :
    nesting n (glyphsOption e) = some n ∧ nesting n (glyphsWhere e) = some n
      ∧ nesting n (glyphsBar e) = some n ∧ nesting n (glyphsSpaced e) = some n
      ∧ nesting n (glyphsElse e) = some n := by
  cases e with
  | none => exact ⟨rfl, rfl, rfl, rfl, rfl⟩
  | some e =>
    have he : nesting n e.glyphs = some n := h e (by simp) n
    exact ⟨he, he, he, he, he⟩

private theorem list {es : List Expression} (h : ∀ c ∈ es, Closed c) :
    Balanced (Glyph.separated (es.map Expression.glyphs)) := by
  refine separated fun run hrun => ?_
  obtain ⟨e, he, rfl⟩ := List.mem_map.1 hrun
  exact h e he

private theorem nesting_after (word : Keyword) (n : Nat) (gs : List Glyph) :
    nesting n (Glyph.after word gs) = nesting n gs := rfl

private theorem nesting_ofInfix (op : InfixOperator) (n : Nat) (gs : List Glyph) :
    nesting n (Glyph.ofInfix op :: gs) = nesting n gs := by
  cases op <;> rfl

/-- The parentheses of an expression are balanced, whatever it is. -/
theorem expression (e : Expression) : Balanced e.glyphs := by
  induction e using Expression.childInduction with
  | step e ih =>
    intro n
    cases e with
    | literal v _ =>
      cases v with
      | boolean b => cases b <;> rfl
      | _ => rfl
    | «variable» | parameter | star | hole => rfl
    | property e k _ =>
      have he : Closed e := ih e (by simp [Expression.children])
      simp [Expression.glyphs, nesting_append, nesting, he n]
    | index l r _ =>
      simp only [Expression.children, List.forall_mem_cons] at ih
      simp [Expression.glyphs, nesting_append, nesting, ih.1 n, ih.2.1 n]
    | slice e low high _ =>
      simp only [Expression.children, List.forall_mem_cons, List.forall_mem_append] at ih
      simp [Expression.glyphs, nesting_append, nesting, ih.1 n, option ih.2.1 n,
        option ih.2.2 n]
    | list es _ =>
      have hes : Balanced (Glyph.separated (es.map Expression.glyphs)) := list ih
      simp [Expression.glyphs, nesting_append, nesting, hes n]
    | listComprehension name e filter projection _ =>
      simp only [Expression.children, List.forall_mem_cons, List.forall_mem_append] at ih
      simp [Expression.glyphs, nesting_append, nesting, nesting_after, ih.1 n,
        option ih.2.1 n, option ih.2.2 n]
    | patternComprehension p filter e _ =>
      simp only [Expression.children, List.forall_mem_append, List.forall_mem_singleton] at ih
      simp [Expression.glyphs, nesting_append, nesting, pattern_of ih.1 n,
        option ih.2.1 n, ih.2.2 n]
    | patternPredicate p => exact pattern_of ih n
    | map es _ =>
      rw [Expression.glyphs, glyphsEntries_eq]
      exact entries ih n
    | mapProjection name ss _ =>
      have hruns : Balanced (Glyph.separated (ss.map MapSelector.glyphs)) := by
        refine separated fun run hrun => ?_
        obtain ⟨s, hs, rfl⟩ := List.mem_map.1 hrun
        have hvalues : ∀ c ∈ s.values, Closed c := fun c hc =>
          ih c (List.mem_flatMap_of_mem hs hc)
        cases s with
        | entry e => exact entry (hvalues _ (List.mem_singleton_self _))
        | property | everything | «variable» => exact fun _ => rfl
      simp [Expression.glyphs, nesting_append, nesting, hruns n]
    | call name es _ =>
      have hname : Balanced (Glyph.dotted name) := by
        refine joined (fun _ => rfl) fun run hrun => ?_
        obtain ⟨part, -, rfl⟩ := List.mem_map.1 hrun
        exact fun _ => rfl
      have hes : Balanced (Glyph.separated (es.map Expression.glyphs)) := list ih
      simp [Expression.glyphs, nesting_append, nesting, hname n, hes (n + 1)]
    | «case» e branches otherwise _ =>
      simp only [Expression.children, List.forall_mem_append] at ih
      have hbranches : Balanced (branches.flatMap CaseBranch.glyphs) := by
        refine flatMap fun b hb => ?_
        have hvalues : ∀ c ∈ b.values, Closed c := fun c hc =>
          ih.2.1 c (List.mem_flatMap_of_mem hb hc)
        obtain ⟨c, r, s⟩ := b
        have hc : Closed c := hvalues c (by simp [CaseBranch.values])
        have hr : Closed r := hvalues r (by simp [CaseBranch.values])
        exact append hc hr
      simp only [Expression.glyphs, List.cons_append, nesting_append, nesting, option ih.1 n,
        glyphsBranches_eq, hbranches n, option ih.2.2 n, Option.bind_some]
    | prefixed op e _ =>
      have he : Closed e := ih e (by simp [Expression.children])
      cases op <;> simp [Expression.glyphs, nesting_append, nesting, he n, he (n + 1)]
    | infixed op l r _ =>
      simp only [Expression.children, List.forall_mem_cons] at ih
      simp [Expression.glyphs, nesting_append, nesting, nesting_ofInfix, ih.1 (n + 1),
        ih.2.1 (n + 1)]
    | nullCheck negated e _ =>
      have he : Closed e := ih e (by simp [Expression.children])
      simp [Expression.glyphs, nesting_append, nesting, he (n + 1)]
    | labelCheck e ls _ =>
      have he : Closed e := ih e (by simp [Expression.children])
      simp [Expression.glyphs, nesting_append, he n, labels ls n]

theorem pattern (p : Pattern) : Balanced p.glyphs := pattern_of fun e _ => expression e

/-- A node is a group in parentheses. -/
theorem node_group (n : NodePattern) :
    ∃ gs, Balanced gs ∧ n.glyphs = .mark .lparen :: (gs ++ [.mark .rparen]) :=
  node_group_of fun e _ => expression e

/-- An expression that stands in parentheses of its own is a group too. -/
theorem grouped {e : Expression} (h : e.isGrouped = true) :
    ∃ gs, Balanced gs ∧ e.glyphs = .mark .lparen :: (gs ++ [.mark .rparen])
      ∧ Glyph.tokens gs = e.inside := by
  match e with
  | .prefixed .not e _ =>
    exact ⟨.keyword .NOT :: .space :: e.glyphs, fun n => expression e n, rfl, rfl⟩
  | .infixed op l r _ =>
    refine ⟨l.glyphs ++ .space :: Glyph.ofInfix op :: .space :: r.glyphs, ?_, ?_, ?_⟩
    · refine (expression l).append fun n => ?_
      rw [nesting, nesting_ofInfix, nesting, expression r n] <;> nofun
    · simp [Expression.glyphs]
    · rw [Glyph.tokens_append]
      cases op <;> rfl
  | .nullCheck negated e _ =>
    refine ⟨e.glyphs ++ [.space, .operator (if negated then .isNotNull else .isNull)],
      (expression e).append fun _ => rfl, ?_, ?_⟩
    · simp [Expression.glyphs]
    · rw [Glyph.tokens_append]
      rfl

end Balanced

/-- What follows a group in parentheses. -/
theorem afterGroup_parenthesized {gs : List Glyph} (h : Balanced gs) (rest : List Token) :
    afterGroup 0 (.ofKind (.punctuation .lparen)
      :: (Glyph.tokens gs ++ .ofKind (.punctuation .rparen) :: rest)) = some rest := by
  have hinner := afterGroup_nesting (h 0) (.ofKind (.punctuation .rparen) :: rest)
  exact hinner

/-- A node is passed over as a group. -/
theorem afterGroup_node (n : NodePattern) (rest : List Token) :
    afterGroup 0 (n.tokens ++ rest) = some rest := by
  obtain ⟨gs, hgs, hn⟩ := Balanced.node_group n
  have htokens : n.tokens = .ofKind (.punctuation .lparen)
      :: (Glyph.tokens gs ++ [.ofKind (.punctuation .rparen)]) := by
    rw [NodePattern.tokens, hn, Glyph.tokens_cons, Glyph.tokens_append]
    rfl
  rw [htokens, List.cons_append, List.append_assoc]
  exact afterGroup_parenthesized hgs rest

/-- The tokens of an expression in parentheses of its own. -/
theorem tokens_grouped {e : Expression} (h : e.isGrouped = true) :
    e.tokens = .ofKind (.punctuation .lparen)
      :: (e.inside ++ [.ofKind (.punctuation .rparen)]) := by
  obtain ⟨gs, -, he, hinside⟩ := Balanced.grouped h
  rw [Expression.tokens, he, Glyph.tokens_cons, Glyph.tokens_append, hinside]
  rfl

/-- A group is passed over to what follows it. -/
theorem afterGroup_grouped {e : Expression} (h : e.isGrouped = true) (rest : List Token) :
    afterGroup 0 (e.tokens ++ rest) = some rest := by
  obtain ⟨gs, hgs, -, hinside⟩ := Balanced.grouped h
  rw [tokens_grouped h, ← hinside, List.cons_append, List.append_assoc]
  exact afterGroup_parenthesized hgs rest

/-- What lies beyond the third token does not make a node. -/
theorem nodeAhead_append {xs : List Token} (h : 3 ≤ xs.length) (ys : List Token) :
    nodeAhead (xs ++ ys) = nodeAhead xs := by
  match xs, h with
  | a :: b :: c :: xs, _ => rfl

/-- What lies beyond the third token does not make a relationship. -/
theorem relationshipAhead_append {xs : List Token} (h : 3 ≤ xs.length)
    (ys : List Token) : relationshipAhead (xs ++ ys) = relationshipAhead xs := by
  match xs, h with
  | a :: b :: c :: xs, _ => rfl

end Grammar

end Cypher
