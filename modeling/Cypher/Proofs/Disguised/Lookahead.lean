import Cypher.Proofs.Disguised.Basic
import Cypher.Proofs.Leaves.Pattern
import Cypher.Proofs.Reading.Lookahead

/-!
# Looking ahead at names in disguise

The questions about the tokens ahead are about signs, save for two: whether a
name stands behind a parenthesis or a bracket, and whether a word stands behind
a name or a group. No name is due at these places, so none is disguised there.
-/

namespace Cypher.Grammar

open Token (Kind)

variable {f : Token → Token} {tokens : List Token}

/-! ## Signs -/

section Signs

variable (hf : Disguise f tokens)

include hf

/-- At each place there is the same kind, or a name in disguise. -/
theorem kindAt_disguise (ts : List Token) (n : Nat) : kindAt (ts.map f) n = kindAt ts n
    ∨ ∃ name word, kindAt ts n = some (.identifier name)
      ∧ kindAt (ts.map f) n = some (.keyword word) := by
  unfold kindAt
  rw [List.getElem?_map]
  cases ts[n]? with
  | none => exact .inl rfl
  | some t =>
    rcases hf.look t with h | ⟨name, word, hname, h⟩
    · exact .inl (by rw [Option.map_some, Option.map_some, Option.map_some, h])
    · exact .inr ⟨name, word, by rw [Option.map_some, hname],
        by rw [Option.map_some, Option.map_some, h]⟩

theorem kindAt_disguise_iff (ts : List Token) (n : Nat) (kind : Kind) (hkind : kind.isSign = true) :
    kindAt (ts.map f) n = some kind ↔ kindAt ts n = some kind := by
  unfold kindAt
  rw [List.getElem?_map]
  cases ts[n]? with
  | none => rfl
  | some t =>
    simp only [Option.map_some, Option.some.injEq]
    exact hf.kind_iff t hkind

theorem goesOnAsNode_disguise (ts : List Token) (n : Nat) :
    goesOnAsNode (kindAt (ts.map f) n) = goesOnAsNode (kindAt ts n) := by
  rcases kindAt_disguise hf ts n with h | ⟨name, word, hname, h⟩
  · rw [h]
  · rw [h, hname]
    rfl

theorem goesOnAsRelationship_disguise (ts : List Token) (n : Nat) :
    goesOnAsRelationship (kindAt (ts.map f) n) = goesOnAsRelationship (kindAt ts n) := by
  rcases kindAt_disguise hf ts n with h | ⟨name, word, hname, h⟩
  · rw [h]
  · rw [h, hname]
    rfl

theorem relationshipAhead_disguise (ts : List Token) :
    relationshipAhead (ts.map f) = relationshipAhead ts := by
  unfold relationshipAhead
  rcases kindAt_disguise hf ts 0 with h | ⟨name, word, hname, h⟩
  · simp only [h, goesOnAsRelationship_disguise hf, kindAt_disguise_iff hf ts 1 (.operator .minus) rfl]
  · rw [h, hname]

theorem afterGroup_disguise (n : Nat) (ts : List Token) :
    afterGroup n (ts.map f) = (afterGroup n ts).map (List.map f) := by
  induction ts generalizing n with
  | nil => rfl
  | cons t ts ih =>
    rw [List.map_cons, afterGroup, afterGroup]
    rcases hf.look t with h | ⟨name, word, hname, h⟩
    · rw [h]
      split
      · exact ih _
      · split
        · rfl
        · exact ih _
      · exact ih _
    · rw [h, hname]
      exact ih _

theorem callAhead_disguise (ts : List Token) : callAhead (ts.map f) = callAhead ts := by
  have hpunctuation (t : Token) (mark : Punctuation) :
      (f t).kind = .punctuation mark ↔ t.kind = .punctuation mark := hf.kind_iff t rfl
  fun_induction callAhead ts with
  | case1 => rfl
  | case2 t => simp only [List.map_cons, List.map_nil, callAhead, hpunctuation]
  | case3 t part rest h ih =>
    simp only [List.map_cons, callAhead, hpunctuation, hf.symbolicName?_eq, if_pos h, ih]
  | case4 t part rest h =>
    simp only [List.map_cons, callAhead, hpunctuation, hf.symbolicName?_eq, if_neg h]

end Signs

/-! ## Names and words -/

section Met

variable {o : Outlook} {σ : Scan} {ahead : List Token} (hf : Disguise f o.tokens)

include hf

omit hf in
theorem kindAt_fixed {ts : List Token} (hfixed : ∀ t ∈ ts.head?, f t = t) :
    kindAt (ts.map f) 0 = kindAt ts 0 := by
  unfold kindAt
  cases ts with
  | nil => rfl
  | cons t rest =>
    show some (f t).kind = some t.kind
    rw [hfixed t rfl]

omit hf in
/-- Behind a parenthesis, no name is due. -/
theorem Outlook.Met.behindParen {t : Token} (hmet : o.Met σ (t :: ahead))
    (ht : t.kind = .punctuation .lparen ∨ t.kind = .punctuation .rparen) :
    ∃ σ', o.Met σ' ahead ∧ σ'.mode ≠ .name ∧ σ'.mode ≠ .entry := by
  refine ⟨_, hmet.pass, ?_⟩
  rcases ht with ht | ht
  · rw [Scan.pass, ht]
    simp only [Scan.passMark, Scan.enter]
    split <;> simp
  · rw [Scan.pass, ht]
    simp only [Scan.passMark, Scan.leave]
    split <;> simp

theorem Outlook.Met.nodeAhead_disguise (hmet : o.Met σ ahead) :
    nodeAhead (ahead.map f) = nodeAhead ahead := by
  cases ahead with
  | nil => rfl
  | cons t rest =>
    have hfirst := kindAt_disguise_iff hf (t :: rest) 0 (.punctuation .lparen) rfl
    by_cases hopen : t.kind = .punctuation .lparen
    · obtain ⟨σ', hmet', hmode⟩ := hmet.behindParen (.inl hopen)
      have hname : kindAt ((t :: rest).map f) 1 = kindAt (t :: rest) 1 :=
        kindAt_fixed (hmet'.fixed_head hf hmode)
      unfold nodeAhead
      simp only [hfirst, hname, goesOnAsNode_disguise hf]
    · have hclosed : ¬ kindAt (t :: rest) 0 = some (.punctuation .lparen) :=
        fun h => hopen (Option.some.inj h)
      unfold nodeAhead
      rw [decide_eq_false (mt hfirst.1 hclosed), decide_eq_false hclosed, Bool.false_and,
        Bool.false_and]

omit hf in
/-- Behind a group, no name is due. -/
theorem Outlook.Met.afterGroup {n : Nat} {rest : List Token} (hmet : o.Met σ ahead)
    (hrest : afterGroup n ahead = some rest) :
    ∃ σ', o.Met σ' rest ∧ σ'.mode ≠ .name ∧ σ'.mode ≠ .entry := by
  induction ahead generalizing σ n with
  | nil => cases hrest
  | cons t ahead ih =>
    rw [Grammar.afterGroup] at hrest
    split at hrest
    · exact ih hmet.pass hrest
    · next hclosed =>
      split at hrest
      · cases hrest
        exact hmet.behindParen (.inr hclosed)
      · exact ih hmet.pass hrest
    · exact ih hmet.pass hrest

theorem Outlook.Met.patternPredicateAhead_disguise (hmet : o.Met σ ahead) :
    patternPredicateAhead (ahead.map f) = patternPredicateAhead ahead := by
  unfold patternPredicateAhead
  rw [hmet.nodeAhead_disguise hf, afterGroup_disguise hf]
  cases Grammar.afterGroup 0 ahead with
  | none => rfl
  | some rest => simp only [Option.map_some, relationshipAhead_disguise hf]

theorem Outlook.Met.comprehensionAfterNode_disguise (hmet : o.Met σ ahead) :
    comprehensionAfterNode (ahead.map f) = comprehensionAfterNode ahead := by
  unfold comprehensionAfterNode
  rw [hmet.nodeAhead_disguise hf, afterGroup_disguise hf]
  cases hrest : Grammar.afterGroup 0 ahead with
  | none => rfl
  | some rest =>
    obtain ⟨σ', hmet', hmode⟩ := hmet.afterGroup hrest
    simp only [Option.map_some, relationshipAhead_disguise hf,
      kindAt_fixed (hmet'.fixed_head hf hmode)]

/-- The name of a path is told from a node in front of both. -/
theorem Outlook.Met.patternComprehensionAhead_disguise (hmet : o.Met σ ahead)
    (hmode : σ.mode ≠ .name ∧ σ.mode ≠ .entry) :
    patternComprehensionAhead (ahead.map f) = patternComprehensionAhead ahead := by
  have hfirst : kindAt (ahead.map f) 0 = kindAt ahead 0 := kindAt_fixed (hmet.fixed_head hf hmode)
  have hsecond := kindAt_disguise_iff hf ahead 1 (.operator .eq) rfl
  by_cases hname : ∃ name, kindAt ahead 0 = some (.identifier name)
      ∧ kindAt ahead 1 = some (.operator .eq)
  · obtain ⟨name, hname, heq⟩ := hname
    rw [patternComprehensionAhead_of_name hname heq,
      patternComprehensionAhead_of_name (hfirst.trans hname) (hsecond.2 heq), ← List.map_drop]
    cases ahead with
    | nil => rfl
    | cons t rest =>
      cases rest with
      | nil => rfl
      | cons u rest => exact hmet.pass.pass.comprehensionAfterNode_disguise hf
  · rw [patternComprehensionAhead_of_no_name fun name h heq => hname ⟨name, h, heq⟩,
      patternComprehensionAhead_of_no_name fun name h heq =>
        hname ⟨name, hfirst.symm.trans h, hsecond.1 heq⟩]
    exact hmet.comprehensionAfterNode_disguise hf

omit hf in
theorem listComprehensionAhead_of_no_name
    (hother : ∀ name, kindAt ahead 1 ≠ some (.identifier name)) :
    listComprehensionAhead ahead = false := by
  unfold listComprehensionAhead
  split
  · next hname _ => exact absurd hname (hother _)
  · rfl

/-- At a bracket, neither the variable nor what follows it is in disguise. -/
theorem Outlook.Met.listComprehensionAhead_disguise {t : Token} (hmet : o.Met σ (t :: ahead))
    (ht : t.kind = .punctuation .lbracket) :
    listComprehensionAhead ((t :: ahead).map f) = listComprehensionAhead (t :: ahead) := by
  have hinside := hmet.pass
  have hmode : (σ.pass t ahead).2.mode = .value := by rw [Scan.pass, ht]; rfl
  have hfirst : kindAt ((t :: ahead).map f) 1 = kindAt (t :: ahead) 1 :=
    kindAt_fixed (hinside.fixed_head hf (by rw [hmode]; simp))
  by_cases hname : ∃ name, kindAt (t :: ahead) 1 = some (.identifier name)
  · obtain ⟨name, hname⟩ := hname
    cases ahead with
    | nil => cases hname
    | cons u rest =>
      have hu : u.kind = .identifier name := Option.some.inj hname
      have hbehind : ((σ.pass t (u :: rest)).2.pass u rest).2.mode = .call := by
        rw [Scan.pass, hu]
        show (if _ then Mode.key else .call) = _
        rw [hmode]
        rfl
      have hsecond : kindAt ((t :: u :: rest).map f) 2 = kindAt (t :: u :: rest) 2 :=
        kindAt_fixed (hinside.pass.fixed_head hf (by rw [hbehind]; simp))
      unfold listComprehensionAhead
      rw [hfirst, hsecond]
  · rw [listComprehensionAhead_of_no_name fun name h => hname ⟨name, h⟩,
      listComprehensionAhead_of_no_name fun name h => hname ⟨name, hfirst.symm.trans h⟩]

end Met

end Cypher.Grammar
