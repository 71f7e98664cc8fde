import Cypher.Proofs.Outcome
import Cypher.Proofs.RoundTrip

/-!
# Clean queries

A query is CLEAN when its text says no more and no less than its tree. The
conditions are such that a writer of trees can see to them, one node at a
time: stars and `DISTINCT` stand only where they are the arguments of a
call, no suffix stands behind a sign, a sum or a comparison has no right
side that would make a path of it.

A clean query is read back from its canonical text, whatever else it holds.
-/

namespace Cypher

open Token (Kind)

/-- The name does not lead an operator, in any case of its letters. -/
def Unled (n : String) : Prop :=
  Keyword.ofName? n ≠ some .STARTS ∧ Keyword.ofName? n ≠ some .ENDS

theorem Unled.leadsIn {n : String} (h : Unled n) : Glyph.LeadsIn (· = .IS) n := by
  intro w hw hleads
  cases w with
  | IS => rfl
  | STARTS => exact absurd hw h.1
  | ENDS => exact absurd hw h.2
  | _ => cases hleads

def SetItem.labelNames : SetItem → List String
  | .labels _ names _ => names
  | _ => []

def RemoveItem.labelNames : RemoveItem → List String
  | .labels _ names _ => names
  | _ => []

namespace Expression

/-- A star or a `DISTINCT`, which only a call takes for an argument. -/
def isArgument : Expression → Bool
  | .star _ | .prefixed .distinct _ _ => true
  | _ => false

def isCall : Expression → Bool
  | .call .. => true
  | _ => false

/-- The node is clean. -/
structure Clean (e : Expression) : Prop where
  formed : e.Formed
  predicate : e.isPatternPredicate = false
  arguments : e.isCall = false → ∀ c ∈ e.children, c.isArgument = false
  /-- A suffix stands behind no sign. -/
  target : ∀ t ∈ e.target?, t.signs = []
  labelCheck : e.isLabelCheck = true → ∀ t ∈ e.target?, t.isLabelCheck = false
  labels : ∀ t ls s, e = .labelCheck t ls s → ∀ l ∈ ls, Unled l
  /-- What stands behind `-` and `<` does not look like the rest of an arrow. -/
  side : ∀ op l r s, e = .infixed op l r s → op = .subtract ∨ op = .lt →
    ∀ c ∈ r.text.toList.head?, c ≠ '-' ∧ c ≠ '['
  function : ∀ name es s, e = .call name es s →
    name = ["exists"] ∨ ∀ n ∈ name.head?, Keyword.ofName? n = none

variable {e : Expression}

/-- A clean expression has no `DISTINCT` among its signs, unless it is an
argument. -/
theorem distinct_not_mem_signs (h : e.Everywhere Clean) (he : e.isArgument = false) :
    .distinct ∉ e.signs := by
  fun_induction signs e with
  | case1 e s ih =>
    have hchild : e ∈ (prefixed .negate e s).children := List.mem_singleton_self e
    rw [List.mem_cons, not_or]
    exact ⟨by simp, ih (h.inside e hchild) (h.here.arguments rfl e hchild)⟩
  | case2 e s ih => cases he
  | case3 e hneg hdist => exact List.not_mem_nil

/-- No star is the base of a clean expression, unless it is an argument. -/
theorem leadsStar_of_clean (h : e.Everywhere Clean) (he : e.isArgument = false) :
    e.leadsStar = false := by
  have hbase (s : Span) : e.base ≠ .star s := by
    induction e using suffixInduction with
    | suffix e t htarget ih =>
      have ht := mem_children_of_target htarget
      have hcall : e.isCall = false := by cases e <;> first | rfl | cases htarget
      rw [base_of_target htarget]
      exact ih (h.inside t ht) (h.here.arguments hcall t ht)
    | atom e hatom =>
      cases e with
      | star s => cases he
      | property | index | slice | labelCheck => cases hatom
      | _ => exact nofun
  unfold leadsStar
  split
  · next s _ hs => exact absurd hs (hbase s)
  · rfl

/-- The first glyph of a plain expression is a token. -/
theorem glyphs_head (h : e.Plain) :
    ∃ g gs t, e.glyphs = g :: gs ∧ g.token? = some t := by
  induction e using suffixInduction with
  | suffix e t htarget ih =>
    obtain ⟨g, gs, u, hgs, hg⟩ := ih (h.target htarget).1
    have htail : ∃ tail, e.glyphs = t.glyphs ++ tail := by
      cases e <;> cases htarget
      · exact ⟨_, rfl⟩
      · exact ⟨_, List.append_assoc _ _ _⟩
      · simp only [glyphs, List.append_assoc]
        exact ⟨_, rfl⟩
      · exact ⟨_, rfl⟩
    obtain ⟨tail, htail⟩ := htail
    exact ⟨g, gs ++ tail, u, by rw [htail, hgs]; rfl, hg⟩
  | atom e hatom =>
    have hformed := h.here.1
    cases e with
    | literal v s =>
      cases v with
      | boolean b => cases b <;> exact ⟨_, _, _, rfl, rfl⟩
      | _ => exact ⟨_, _, _, rfl, rfl⟩
    | call name es s =>
      rcases name with _ | ⟨n, _ | ⟨m, ns⟩⟩
      · exact absurd rfl hformed
      · exact ⟨.symbol n, _, _, rfl, rfl⟩
      · exact ⟨.symbol n, _, _, rfl, rfl⟩
    | patternPredicate p =>
      obtain ⟨name, ⟨_, _, _, _⟩, chain, s⟩ := p
      cases hformed.2.1
      exact ⟨.mark .lparen, _, _, rfl, rfl⟩
    | prefixed op e s => cases op <;> exact ⟨_, _, _, rfl, rfl⟩
    | property | index | slice | labelCheck => cases hatom
    | hole => exact hformed.elim
    | _ => exact ⟨_, _, _, rfl, rfl⟩

/-- What starts like the rest of an arrow shows it in its text. -/
theorem text_head (h : e.Plain)
    (hhead : Grammar.goesOnAsRelationship (some (Grammar.headKind e.tokens)) = true) :
    ∃ c, e.text.toList.head? = some c ∧ (c = '-' ∨ c = '[') := by
  obtain ⟨g, gs, t, hgs, hg⟩ := glyphs_head h
  have hkind : Grammar.headKind e.tokens = t.kind := by
    rw [tokens, hgs, Glyph.tokens_cons, hg]
    rfl
  have htext : e.text.toList = g.chars ++ gs.flatMap Glyph.chars := by
    rw [text, hgs]
    exact String.toList_ofList
  have hstart := Grammar.startsExpression_tokens h []
  rw [List.append_nil, hkind] at hstart
  rw [hkind] at hhead
  rw [htext]
  cases hk : t.kind with
  | punctuation m =>
    rw [hk] at hhead
    have hm : m = .lbracket := by cases m <;> first | rfl | cases hhead
    subst hm
    rw [Grammar.eq_mark_of_kind hg hk]
    exact ⟨'[', rfl, .inr rfl⟩
  | operator op =>
    rw [hk] at hhead hstart
    have hop : op = .minus := by
      cases op with
      | minus => rfl
      | arrow => exact absurd hstart (by decide)
      | _ => cases hhead
    subst hop
    have hminus : g = .operator .minus := by
      cases g with
      | operator op =>
        cases hg
        cases hk
        rfl
      | symbol n =>
        cases hg
        unfold Glyph.symbolToken at hk
        split at hk <;> cases hk
      | number digits =>
        cases hg
        rw [Token.kind_ofKind, Glyph.numberKind] at hk
        split at hk <;> cases hk
      | space | hole => cases hg
      | _ =>
        cases hg
        cases hk
    rw [hminus]
    exact ⟨'-', rfl, .inl rfl⟩
  | _ =>
    rw [hk] at hhead
    cases hhead

/-- No relationship starts at an operator whose right side does not look
like one. -/
theorem relationshipAhead_of_side {op : InfixOperator} {r : Expression} (hr : r.Plain)
    (hside : op = .subtract ∨ op = .lt → ∀ c ∈ r.text.toList.head?, c ≠ '-' ∧ c ≠ '[')
    (rest : List Token) : Grammar.relationshipAhead (op.token :: (r.tokens ++ rest)) = false := by
  obtain ⟨t, ts, hts⟩ := List.exists_cons_of_ne_nil (Grammar.tokens_ne_nil hr)
  have hnot (hop : op = .subtract ∨ op = .lt) :
      Grammar.goesOnAsRelationship (some t.kind) = false := by
    cases hgoes : Grammar.goesOnAsRelationship (some t.kind) with
    | false => rfl
    | true =>
      have hhead : Grammar.headKind r.tokens = t.kind := by
        rw [hts]
        rfl
      obtain ⟨c, hc, hlook⟩ := text_head hr (by rw [hhead]; exact hgoes)
      obtain ⟨hminus, hbracket⟩ := hside hop c hc
      rcases hlook with rfl | rfl
      · exact absurd rfl hminus
      · exact absurd rfl hbracket
  rw [hts]
  cases op with
  | subtract => exact hnot (.inl rfl)
  | lt =>
    have hne : t.kind ≠ .operator .minus := fun hkind => by
      have hfalse := hnot (.inr rfl)
      rw [hkind] at hfalse
      cases hfalse
    show (some t.kind = some (.operator .minus) && _) = false
    rw [Bool.and_eq_false_iff, decide_eq_false_iff_not]
    exact .inl fun h => hne (Option.some.inj h)
  | _ => rfl

/-- A clean expression is plain. -/
theorem plain_of_clean (h : e.Everywhere Clean) : e.Plain := by
  induction h with
  | @intro e self nested ih =>
    refine ⟨⟨self.formed, ?_⟩, ih⟩
    cases e with
    | property t | index t | slice t => exact self.target t rfl
    | labelCheck t ls s => exact ⟨self.target t rfl, self.labelCheck rfl t rfl⟩
    | list es s =>
      intro e he
      have hmem : e ∈ es := List.mem_of_mem_head? he
      have hbase : ∀ e : Expression, e.Everywhere Clean → e.base.isPatternPredicate = false := by
        intro e he
        induction e using suffixInduction with
        | suffix e t htarget ih =>
          rw [base_of_target htarget]
          exact ih (he.inside t (mem_children_of_target htarget))
        | atom e hatom =>
          have hself := he.here.predicate
          cases e with
          | property | index | slice | labelCheck => cases hatom
          | _ => exact hself
      exact hbase e (nested e hmem)
    | call name es s => exact self.function name es s rfl
    | infixed op l r s =>
      have hl : l ∈ (infixed op l r s).children := by simp [children]
      have hr : r ∈ (infixed op l r s).children := by simp [children]
      refine ⟨distinct_not_mem_signs (nested l hl) (self.arguments rfl l hl), fun _ => ?_⟩
      exact relationshipAhead_of_side (ih r hr) (self.side op l r s rfl) _
    | nullCheck negated t s =>
      have ht : t ∈ (nullCheck negated t s).children := by simp [children]
      exact distinct_not_mem_signs (nested t ht) (self.arguments rfl t ht)
    | _ => trivial

theorem labelsIn_of_clean (h : e.Clean) : e.LabelsIn (· = .IS) := by
  cases e with
  | labelCheck t ls s => exact fun l hl => (h.labels t ls s rfl l hl).leadsIn
  | _ => trivial

end Expression

/-! ## Clauses and queries -/

/-- The labels that a clause may end with, and the name of a procedure that
it may end with. -/
def Clause.trailingNames : Clause → List String
  | .merge _ actions _ => actions.flatMap fun a => a.items.flatMap SetItem.labelNames
  | .set items _ => items.flatMap SetItem.labelNames
  | .remove items _ => items.flatMap RemoveItem.labelNames
  | .call [procedure] _ _ _ _ => [procedure]
  | _ => []

/-- The clause is clean, with all that is nested in it. -/
structure Clause.Clean (c : Clause) : Prop where
  formed : c.Formed
  names : ∀ n ∈ c.trailingNames, Unled n
  values : ∀ e ∈ c.values, e.Everywhere Expression.Clean
  arguments : ∀ e ∈ c.values, e.isArgument = false

/-- The query is clean, and within the limit. -/
structure Query.Clean (q : Query) (limit : Nat) : Prop where
  formed : q.Formed
  clauses : ∀ c ∈ q.clauses, c.Clean
  heights : ∀ c ∈ q.clauses, ∀ e ∈ c.values, e.height ≤ limit
  parts : q.body.parts.length ≤ limit

namespace Clause

variable {c : Clause}

theorem projection_clear {p : Projection}
    (h : ∀ e ∈ p.values, e.Everywhere Expression.Clean)
    (harguments : ∀ e ∈ p.values, e.isArgument = false) : p.Clear := by
  have hmem {e : Expression} {n : Option String} {s : Span}
      (hi : ProjectionItem.expression e n s ∈ p.items) : e ∈ p.values :=
    List.mem_filterMap.2 ⟨_, hi, rfl⟩
  refine ⟨fun i hi => ?_, fun _ e n s hhead hsigns => ?_⟩
  · cases i with
    | everything s => trivial
    | expression e n s =>
      exact Expression.leadsStar_of_clean (h e (hmem hi)) (harguments e (hmem hi))
  · have he := hmem (List.mem_of_mem_head? hhead)
    refine Expression.distinct_not_mem_signs (h e he) (harguments e he) ?_
    exact List.mem_of_mem_head? hsigns

theorem plain_of_clean (h : c.Clean) : c.Plain := by
  refine ⟨h.formed, ?_, fun e he => Expression.plain_of_clean (h.values e he)⟩
  have hvalues := h.values
  have harguments := h.arguments
  unfold values at hvalues harguments
  rw [List.forall_mem_append] at hvalues harguments
  cases c with
  | withProjection p filter s =>
    have hv := hvalues.2
    have ha := harguments.2
    rw [expressions, List.forall_mem_append] at hv ha
    exact projection_clear hv.1 ha.1
  | returnProjection p s => exact projection_clear hvalues.2 harguments.2
  | _ => trivial

theorem labelsIn_of_clean (h : c.Clean) : c.LabelsIn (· = .IS) := by
  have hset {i : SetItem} (hi : ∀ n ∈ i.labelNames, Unled n) : i.LabelsIn (· = .IS) := by
    cases i with
    | labels n names s => exact fun n hn => (hi n hn).leadsIn
    | _ => trivial
  have hnames := h.names
  cases c with
  | merge ps actions s =>
    exact fun a ha i hi => hset fun n hn =>
      hnames n (List.mem_flatMap.2 ⟨a, ha, List.mem_flatMap.2 ⟨i, hi, hn⟩⟩)
  | set items s =>
    exact fun i hi => hset fun n hn => hnames n (List.mem_flatMap.2 ⟨i, hi, hn⟩)
  | remove items s =>
    intro i hi
    have hi' : ∀ n ∈ i.labelNames, Unled n :=
      fun n hn => hnames n (List.mem_flatMap.2 ⟨i, hi, hn⟩)
    cases i with
    | property => trivial
    | labels n names s => exact fun n hn => (hi' n hn).leadsIn
  | call procedure arguments fields filter s =>
    rintro n rfl
    exact (hnames n (List.mem_singleton_self n)).leadsIn
  | _ => trivial

/-- A clean clause can have any clause behind it. -/
theorem not_unfinished_of_clean (h : c.Clean) : ¬ c.Unfinished := by
  rintro ⟨w, hjoins, hrun⟩
  have hlegible := Clause.legible h.formed (labelsIn_of_clean h) fun e he =>
    Expression.legible ((h.values e he).mono fun e he => ⟨he.formed, e.labelsIn_of_clean he⟩)
  obtain ⟨e, hrun', he⟩ := hlegible.run .clear rfl
  rw [hrun, Option.some.injEq] at hrun'
  have hw := he.words w hrun'.symm
  subst hw
  cases hjoins

end Clause

/-- A clean query can be read back. -/
theorem Query.Clean.retrievable {q : Query} {limit : Nat} (h : q.Clean limit) :
    q.Retrievable limit where
  formed := h.formed
  plain := fun c hc => c.plain_of_clean (h.clauses c hc)
  heights := h.heights
  parts := h.parts.trans (Nat.le_max_right 1 limit)
  parted := by
    intro p hp
    refine List.Pairwise.isChain ?_
    refine List.pairwise_of_forall_mem_list fun c hc d _ _ => ?_
    exact Clause.not_unfinished_of_clean (h.clauses c (List.mem_flatMap_of_mem hp hc))

/-- A clean query is accepted in its canonical text, and read as the tree it
is, up to the places of its parts. -/
theorem Query.parse_text_of_clean {q : Query} {config : Config} (h : q.Clean config.maxDepth) :
    ∃ q', parse q.text config = .ok q' ∧ q'.erase = q.erase :=
  h.retrievable.parse_text

/-- `count(*)`. -/
private def countAll : Expression := .call ["count"] [.star .nowhere] .nowhere

/-- `(n.age - 1)`. -/
private def yearAgo : Expression :=
  .infixed .subtract (.property (.variable "n" .nowhere) "age" .nowhere)
    (.literal (.integer "1") .nowhere) .nowhere

private theorem countAll_clean : countAll.Everywhere Expression.Clean := by
  refine .intro ⟨nofun, rfl, nofun, nofun, nofun, nofun, nofun, ?_⟩ fun c hc => ?_
  · rintro _ _ _ ⟨⟩
    exact .inr (by decide)
  · rw [List.mem_singleton.1 hc]
    exact .intro ⟨trivial, rfl, nofun, nofun, nofun, nofun, nofun, nofun⟩ nofun

private theorem yearAgo_clean : yearAgo.Everywhere Expression.Clean := by
  refine .intro ⟨trivial, rfl, fun _ => ?_, nofun, nofun, nofun, ?_, nofun⟩ fun c hc => ?_
  · decide
  · rintro _ _ r _ heq _ c hc
    have hr : r.text.toList.head? = some '1' := by
      cases heq
      rfl
    rw [hr] at hc
    cases hc
    exact ⟨by decide, by decide⟩
  · have hc : c ∈ [_, _] := hc
    rw [List.mem_pair] at hc
    rcases hc with rfl | rfl
    · refine .intro ⟨trivial, rfl, fun _ => ?_, ?_, nofun, nofun, nofun, nofun⟩ fun c hc => ?_
      · decide
      · rintro t ⟨⟩
        rfl
      · rw [List.mem_singleton.1 hc]
        exact .intro ⟨trivial, rfl, nofun, nofun, nofun, nofun, nofun, nofun⟩ nofun
    · refine .intro ⟨?_, rfl, nofun, nofun, nofun, nofun, nofun, nofun⟩ nofun
      exact ⟨by decide, List.all_eq_true.1 (by decide)⟩

/-- Two parts, a header, and in the parts a star and a difference. -/
private def countedUnion : Query :=
  ⟨some "9", .union true (.single ⟨[.returnProjection
    ⟨false, [.expression countAll (some "all") .nowhere], .nowhere⟩ .nowhere], .nowhere⟩)
    ⟨[.returnProjection ⟨false, [.expression yearAgo none .nowhere], .nowhere⟩ .nowhere],
      .nowhere⟩ .nowhere, .nowhere⟩

private theorem countedUnion_clean : countedUnion.Clean 3 := by
  have hclauses : ∀ c ∈ countedUnion.clauses, c.Clean
      ∧ ∀ e ∈ c.values, e.height ≤ 3 := by
    intro c hc
    have hc : c ∈ [_, _] := hc
    rw [List.mem_pair] at hc
    rcases hc with rfl | rfl
    · refine ⟨⟨nofun, nofun, ?_, ?_⟩, ?_⟩ <;> intro e he <;> rw [List.mem_singleton.1 he]
      · exact countAll_clean
      · rfl
      · decide
    · refine ⟨⟨nofun, nofun, ?_, ?_⟩, ?_⟩ <;> intro e he <;> rw [List.mem_singleton.1 he]
      · exact yearAgo_clean
      · rfl
      · decide
  refine ⟨⟨?_, ?_⟩, fun c hc => (hclauses c hc).1, fun c hc => (hclauses c hc).2, by decide⟩
  · rintro v ⟨⟩
    exact .inl ⟨by decide, List.all_eq_true.1 (by decide)⟩
  · intro p hp
    have hp : p ∈ [_, _] := hp
    rw [List.mem_pair] at hp
    rcases hp with rfl | rfl <;> exact List.cons_ne_nil _ _

/-- `CYPHER 9 RETURN count(*) AS all UNION ALL RETURN (n.age - 1)` is clean, and read
back. -/
theorem parse_text_of_clean_countedUnion :
    countedUnion.Clean 3 ∧ ∃ q', parse countedUnion.text ⟨3, true⟩ = .ok q'
      ∧ q'.erase = countedUnion.erase :=
  ⟨countedUnion_clean, Query.parse_text_of_clean countedUnion_clean⟩

/-! ## Canonical texts

What is read from a canonical text has that text again, and the text tells
one tree from another: so it is for clean queries. It is not for all that
are accepted. A name that had to be quoted where it stood may be written
bare as the name of a function, and a sign is written without parentheses
in front of a suffix. -/

/-- The canonical text of a clean query is accepted, and it is the canonical text
of what is read from it. -/
theorem Query.text_stable_of_clean {q : Query} {config : Config}
    (h : q.Clean config.maxDepth) : ∃ q', parse q.text config = .ok q' ∧ q'.text = q.text :=
  h.retrievable.text_stable

theorem text_stable_of_clean_countedUnion :
    ∃ q', parse countedUnion.text ⟨3, true⟩ = .ok q' ∧ q'.text = countedUnion.text :=
  @Query.text_stable_of_clean countedUnion ⟨3, true⟩ countedUnion_clean

/-- Clean queries that share a canonical text are the same tree, up to places. -/
theorem Query.erase_eq_of_text_eq_of_clean {q q' : Query} {limit : Nat} (h : q.Clean limit)
    (h' : q'.Clean limit) (htext : q.text = q'.text) : q.erase = q'.erase :=
  h.retrievable.erase_eq_of_text_eq h'.retrievable htext

theorem erase_eq_of_text_eq_of_clean_countedUnion :
    ({ countedUnion with span := ⟨0, 58⟩ } : Query).erase = countedUnion.erase := by
  have hmoved : ({ countedUnion with span := ⟨0, 58⟩ } : Query).Clean 3 :=
    ⟨⟨countedUnion_clean.formed.1, countedUnion_clean.formed.2⟩, countedUnion_clean.clauses,
      countedUnion_clean.heights, countedUnion_clean.parts⟩
  exact Query.erase_eq_of_text_eq_of_clean hmoved countedUnion_clean rfl

set_option maxRecDepth 8000 in
/-- The name of a function is written bare even where it starts a clause, and is
then not read as a name. -/
theorem exists_text_refused :
    ∃ q, parse "RETURN \x60match\x60(1)" = .ok q ∧ ∀ q', parse q.text ≠ .ok q' := by
  have htext : (parse "RETURN \x60match\x60(1)").toOption.map Query.text
      = some "RETURN match(1)" := by decide +kernel
  have hagain : (parse "RETURN match(1)").toOption.isSome = false := by decide +kernel
  obtain ⟨q, hparse, hq⟩ := exists_of_map_toOption htext
  refine ⟨q, hparse, fun q' hq' => ?_⟩
  rw [hq] at hq'
  rw [hq'] at hagain
  cases hagain

/-- A property of a negative value and a negated property share a text. -/
theorem exists_text_ambiguous :
    ∃ q q', parse "RETURN (-a).b" = .ok q ∧ parse "RETURN -a.b" = .ok q'
      ∧ q.text = q'.text ∧ q.erase ≠ q'.erase := by
  have hleft : (parse "RETURN (-a).b").toOption.map (fun q => (q.text, q.erase))
      = some ("RETURN -a.b", ⟨none, .single ⟨[.returnProjection ⟨false, [.expression
          (.property (.prefixed .negate (.variable "a" .nowhere) .nowhere) "b" .nowhere)
          none .nowhere], .nowhere⟩ .nowhere], .nowhere⟩, .nowhere⟩) := by cbv
  have hright : (parse "RETURN -a.b").toOption.map (fun q => (q.text, q.erase))
      = some ("RETURN -a.b", ⟨none, .single ⟨[.returnProjection ⟨false, [.expression
          (.prefixed .negate (.property (.variable "a" .nowhere) "b" .nowhere) .nowhere)
          none .nowhere], .nowhere⟩ .nowhere], .nowhere⟩, .nowhere⟩) := by cbv
  obtain ⟨q, hparse, hq⟩ := exists_of_map_toOption hleft
  obtain ⟨q', hparse', hq'⟩ := exists_of_map_toOption hright
  obtain ⟨htext, herase⟩ := Prod.mk.inj hq
  obtain ⟨htext', herase'⟩ := Prod.mk.inj hq'
  refine ⟨q, q', hparse, hparse', htext.trans htext'.symm, ?_⟩
  rw [herase, herase']
  intro hsame
  cases hsame

end Cypher
