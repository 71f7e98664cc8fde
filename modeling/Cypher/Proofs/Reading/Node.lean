import Cypher.Grammar.Pattern
import Cypher.Operator.Table
import Cypher.Proofs.Reading.Basic
import Cypher.Proofs.Token.Tree
import Cypher.Proofs.Tree.Formed

/-!
# Reading nodes

A node is read from the tokens of its canonical glyphs, provided that the
values in its property map are. What follows it never matters: the
parenthesis ends it.
-/

namespace Cypher

namespace Grammar

open Token (Kind)

/-- The marks that go on with an operand: those of the suffixes, and those
that make a call or a projection of a name. -/
def continuesOperand : Kind → Bool
  | .punctuation .dot | .punctuation .lbracket | .punctuation .colon
  | .punctuation .lparen | .punctuation .lbrace => true
  | _ => false

/-- Whether an expression stops before a token of this kind: it goes on
with no operand, and it is no operator behind one. -/
def stopsExpression (kind : Kind) : Bool :=
  !continuesOperand kind && (Level.lookup kind .after).isNone
    && (Level.lookup kind .between).isNone

/-- The parser reads this expression wherever expressions stop. -/
def ReadsTree (d : Nat) (expr : Parser Expression) (e : Expression) : Prop :=
  ∀ rest, stopsExpression (headKind rest) = true →
    Reads d expr (e.tokens ++ rest) rest fun a => a.erase = e.erase

section

variable {d : Nat} {expr : Parser Expression} {rest : List Token}

/-! ## Property maps -/

theorem reads_mapEntry {e : MapEntry} (he : ReadsTree d expr e.value)
    (hrest : stopsExpression (headKind rest) = true) :
    Reads d (mapEntry expr) (e.tokens ++ rest) rest fun a => a.erase = e.erase := by
  cases e with
  | mk k v s =>
    have htokens : MapEntry.tokens ⟨k, v, s⟩
        = Glyph.symbolToken k :: .ofKind (.punctuation .colon) :: v.tokens := rfl
    rw [htokens, List.cons_append, List.cons_append]
    unfold mapEntry
    refine Reads.start.bind fun begin _ => ?_
    refine (Reads.symbolicName (Glyph.symbolicName?_symbolToken k)).bindEq ?_
    refine (Reads.expect rfl).bind fun _ _ => ?_
    refine (he _ hrest).bind fun a ha => ?_
    exact Reads.spanFrom.bind fun sp _ => .pure (by rw [MapEntry.erase_mk, ha,
      MapEntry.erase_mk])

theorem headKind_symbolToken (n : String) (ts : List Token) {mark : Punctuation} :
    headKind (Glyph.symbolToken n :: ts) ≠ .punctuation mark := by
  rw [headKind_cons, Glyph.symbolToken]
  split <;> simp

theorem reads_mapEntries {entries : List MapEntry}
    (hes : ∀ e ∈ entries.map MapEntry.value, ReadsTree d expr e) :
    Reads d (mapEntries expr) (mapTokens entries ++ rest) rest
      fun r => r.1.map MapEntry.erase = entries.map MapEntry.erase := by
  unfold mapEntries mapTokens
  rw [List.cons_append, List.append_assoc]
  refine Reads.start.bind fun begin _ => ?_
  refine (Reads.expect rfl).bind fun _ _ => ?_
  have hclose : headKind ([.ofKind (.punctuation .rbrace)] ++ rest)
    = .punctuation .rbrace := rfl
  refine (Reads.commaSeparatedUntil (S := (stopsExpression · = true))
    (g := MapEntry.erase) (h := MapEntry.erase) rfl hclose rfl (by simp) ?_ ?_).bind
    fun as has => ?_
  · rintro ⟨k, v, s⟩ _ ts
    exact headKind_symbolToken k _
  · intro e he ts hts
    exact reads_mapEntry (hes _ (List.mem_map_of_mem he)) hts
  · refine (Reads.expect rfl).bind fun _ _ => ?_
    exact Reads.spanFrom.bind fun sp _ => .pure has

/-- The tokens of a property map that may be absent. -/
def propertyTokens (p : Option Properties) : List Token :=
  Glyph.tokens (glyphsProperties p)

theorem reads_properties {p : Option Properties}
    (hes : ∀ e ∈ p.toList.flatMap Properties.values, ReadsTree d expr e)
    (hbrace : headKind rest ≠ .punctuation .lbrace)
    (hparameter : ∀ n, headKind rest ≠ .parameter n) :
    Reads d (properties expr) (propertyTokens p ++ rest) rest
      fun a => a.map Properties.erase = p.map Properties.erase := by
  unfold properties propertyTokens
  refine Reads.current.bind fun t ht => ?_
  match p with
  | none =>
    simp only [glyphsProperties, Glyph.tokens_nil, List.nil_append] at ht ⊢
    split
    · next h => exact absurd (ht ▸ h) hbrace
    · next n h => exact absurd (ht ▸ h) (hparameter n)
    · exact .pure rfl
  | some (.parameter n s) =>
    have hkind : t.kind = .parameter n := ht
    simp only [hkind]
    exact Reads.advance.bind fun _ _ => .pure rfl
  | some (.map entries s) =>
    have htokens : Glyph.tokens (glyphsProperties (some (.map entries s)))
        = mapTokens entries := by
      rw [glyphsProperties, Properties.glyphs, glyphsEntries_eq, tokens_map]
    have hkind : t.kind = .punctuation .lbrace := by
      rw [ht, htokens]
      rfl
    simp only [hkind, htokens]
    refine (reads_mapEntries fun e he => hes e (by simpa [Properties.values] using he)).bind
      fun r hr => .pure ?_
    simp only [Option.map_some, Properties.erase_map, hr]

/-! ## Nodes -/

theorem reads_labelList {names : List String} (hne : names ≠ [])
    (hrest : headKind rest ≠ .punctuation .colon) :
    Reads d labelList (labelTokens names ++ rest) rest (· = names) := by
  unfold labelList labelTokens
  have hmany : Reads d (many (behind (.punctuation .colon) (symbolicName .label)))
      ((names.flatMap fun n => [.ofKind (.punctuation .colon), Glyph.symbolToken n]) ++ rest)
      rest fun as => as.map id = names.map id := Reads.many (S := fun _ => True) trivial (Reads.behind_absent (p := symbolicName .label) hrest)
    (fun n _ => List.cons_ne_nil _ _) fun n _ ts _ => ⟨trivial,
      ((Reads.symbolicName (Glyph.symbolicName?_symbolToken n)).behind rfl)⟩
  refine hmany.bind fun labels hlabels => ?_
  rw [List.map_id, List.map_id] at hlabels
  subst hlabels
  rw [if_neg (by simpa using hne)]
  exact .pure rfl

theorem headKind_labelTokens {names : List String} (hne : names ≠ []) (ts : List Token) :
    headKind (labelTokens names ++ ts) = .punctuation .colon := by
  cases names with
  | nil => exact absurd rfl hne
  | cons n names => rfl

theorem reads_optionalLabels {names : List String}
    (hrest : headKind rest ≠ .punctuation .colon) :
    Reads d optionalLabels (labelTokens names ++ rest) rest (· = names) := by
  unfold optionalLabels
  refine Reads.current.bind fun t ht => ?_
  by_cases hne : names = []
  · subst hne
    rw [if_neg (ht ▸ hrest)]
    exact .pure rfl
  · rw [if_pos (ht.trans (headKind_labelTokens hne rest))]
    exact reads_labelList hne hrest

/-- The tokens of an optional name. -/
def nameTokens (n : Option String) : List Token :=
  n.toList.map fun n => .ofKind (.identifier n)

theorem tokens_names (n : Option String) :
    Glyph.tokens (n.toList.map Glyph.name) = nameTokens n := by
  cases n <;> rfl

theorem reads_optionalName {n : Option String}
    (hrest : ∀ m, headKind rest ≠ .identifier m) :
    Reads d optionalVariable (nameTokens n ++ rest) rest (· = n) := by
  cases n with
  | none => exact Reads.optionalVariable_absent hrest
  | some n => exact Reads.optionalVariable rfl

/-- What a property map may start with. -/
theorem headKind_propertyTokens (p : Option Properties) (ts : List Token) :
    headKind (propertyTokens p ++ ts) = headKind ts
      ∨ headKind (propertyTokens p ++ ts) = .punctuation .lbrace
      ∨ ∃ n, headKind (propertyTokens p ++ ts) = .parameter n := by
  match p with
  | none => exact .inl rfl
  | some (.map entries s) => exact .inr (.inl rfl)
  | some (.parameter n s) => exact .inr (.inr ⟨n, rfl⟩)

theorem NodePattern.tokens_mk (name : Option String) (labels : List String)
    (p : Option Properties) (s : Span) :
    NodePattern.tokens ⟨name, labels, p, s⟩
      = .ofKind (.punctuation .lparen)
        :: (nameTokens name ++ (labelTokens labels ++ (propertyTokens p
          ++ [.ofKind (.punctuation .rparen)]))) := by
  simp only [NodePattern.tokens, NodePattern.glyphs, List.cons_append, Glyph.tokens_cons,
    Glyph.tokens_append, tokens_spaced, tokens_names, tokens_labels, List.append_assoc]
  rfl

theorem reads_nodePattern {n : NodePattern} (hn : ∀ e ∈ n.values, ReadsTree d expr e) :
    Reads d (nodePattern expr) (n.tokens ++ rest) rest fun a => a.erase = n.erase := by
  cases n with
  | mk name labels p s =>
    rw [NodePattern.tokens_mk]
    simp only [List.cons_append, List.append_assoc, List.nil_append]
    have hclose : headKind (.ofKind (.punctuation .rparen) :: rest)
      = .punctuation .rparen := rfl
    unfold nodePattern
    refine Reads.start.bind fun begin _ => ?_
    refine (Reads.expect rfl).bind fun _ _ => ?_
    refine (reads_optionalName fun m => ?_).bindEq ?_
    · by_cases hne : labels = []
      · subst hne
        rcases headKind_propertyTokens p (.ofKind (.punctuation .rparen) :: rest)
          with h | h | ⟨k, h⟩
        all_goals
          simp only [labelTokens, List.flatMap_nil, List.nil_append, h, hclose]
          simp
      · rw [headKind_labelTokens hne]
        simp
    refine (reads_optionalLabels ?_).bindEq ?_
    · rcases headKind_propertyTokens p (.ofKind (.punctuation .rparen) :: rest)
        with h | h | ⟨k, h⟩
      all_goals
        rw [h]
        simp
    refine (reads_properties hn (by simp) (by simp)).bind fun q hq => ?_
    refine (Reads.expect rfl).bind fun _ _ => ?_
    exact Reads.spanFrom.bind fun sp _ => .pure (by
      rw [NodePattern.erase_mk, NodePattern.erase_mk, hq])

end

end Grammar

end Cypher
