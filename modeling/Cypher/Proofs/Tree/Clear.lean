import Cypher.Grammar.Lookahead
import Cypher.Proofs.Token.Tree
import Cypher.Proofs.Tree.Formed

/-!
# What the text of a tree tells

Operators stand in parentheses of their own, with two exceptions: `-` and
`DISTINCT` are written in front of their operand and nothing else. So an
expression is a run of SIGNS in front of a CORE, and a reader of its text
meets the signs first, whatever is wrapped around the core.

`Clear` names, node by node, the places where that would mislead a reader,
and the other places where the text of a node says something else than the
node: a group that looks like the start of a path, a function whose name
is reserved.
-/

namespace Cypher

namespace Expression

/-- The operators written bare in front of an expression, the first one
first. -/
def signs : Expression → List PrefixOperator
  | .prefixed .negate e _ => .negate :: e.signs
  | .prefixed .distinct e _ => .distinct :: e.signs
  | _ => []

/-- The expression behind all signs. -/
def core : Expression → Expression
  | .prefixed .negate e _ => e.core
  | .prefixed .distinct e _ => e.core
  | e => e

/-- What a suffix is put behind, if the expression ends with one: property
access, a subscript or a label check. -/
def target? : Expression → Option Expression
  | .property e _ _ | .index e _ _ | .slice e _ _ _ | .labelCheck e _ _ => some e
  | _ => none

/-- The innermost target of the suffixes of an expression. -/
def base : Expression → Expression
  | .property e _ _ | .index e _ _ | .slice e _ _ _ | .labelCheck e _ _ => e.base
  | e => e

/-- The tokens of the last suffix. -/
def suffixTokens : Expression → List Token
  | .property _ k _ => [.ofKind (.punctuation .dot), Glyph.symbolToken k]
  | .index _ i _ =>
    .ofKind (.punctuation .lbracket) :: (i.tokens ++ [.ofKind (.punctuation .rbracket)])
  | .slice _ low high _ =>
    .ofKind (.punctuation .lbracket) :: (behindTokens [] low ++ .ofKind (.operator .dotDot)
      :: (behindTokens [] high ++ [.ofKind (.punctuation .rbracket)]))
  | .labelCheck _ ls _ => labelTokens ls
  | _ => []

def isLabelCheck : Expression → Bool
  | .labelCheck .. => true
  | _ => false

def isPatternPredicate : Expression → Bool
  | .patternPredicate _ => true
  | _ => false

/-- Whether an expression stands in parentheses of its own. -/
def isGrouped : Expression → Bool
  | .prefixed .not _ _ | .infixed .. | .nullCheck .. => true
  | _ => false

/-- Whether a relationship behind the expression would make a path of it:
it is one already, or a group in the shape of a node. -/
def leadsPath (e : Expression) : Bool :=
  e.isPatternPredicate || (e.isGrouped && Grammar.nodeAhead e.tokens)

/-- The text of the node tells the node. -/
def Clear : Expression → Prop
  | .property e _ _ | .index e _ _ | .slice e _ _ _ => e.signs = []
  | .labelCheck e _ _ => e.signs = [] ∧ e.isLabelCheck = false
  | .list items _ => ∀ e ∈ items.head?, e.base.isPatternPredicate = false
  | .call name _ _ => name = ["exists"] ∨ ∀ n ∈ name.head?, Keyword.ofName? n = none
  | .infixed op l r _ =>
    .distinct ∉ l.signs ∧
      (l.core.leadsPath = true → Grammar.relationshipAhead
        (op.token :: (r.tokens ++ [.ofKind (.punctuation .rparen)])) = false)
  | .nullCheck _ e _ => .distinct ∉ e.signs
  | _ => True

/-- Every node of the expression is well-formed and clear. -/
def Plain (e : Expression) : Prop := Everywhere (fun e => e.Formed ∧ e.Clear) e

theorem signs_core (e : Expression) : e.core.signs = [] := by
  fun_induction core e with
  | case1 e s ih => exact ih
  | case2 e s ih => exact ih
  | case3 e hneg hdist => rw [signs] <;> assumption

theorem height_core_le (e : Expression) : e.core.height ≤ e.height := by
  fun_induction core e with
  | case1 e s ih => exact Nat.le_succ_of_le ih
  | case2 e s ih => exact Nat.le_succ_of_le ih
  | case3 e hneg hdist => exact Nat.le_refl _

/-- What holds everywhere in an expression holds everywhere in its core. -/
theorem Everywhere.core {P : Expression → Prop} {e : Expression} (h : Everywhere P e) :
    Everywhere P e.core := by
  fun_induction Expression.core e with
  | case1 e s ih => exact ih (h.inside e (by simp [children]))
  | case2 e s ih => exact ih (h.inside e (by simp [children]))
  | case3 e hneg hdist => exact h

theorem tokens_signs (e : Expression) :
    e.tokens = e.signs.map PrefixOperator.token ++ e.core.tokens := by
  fun_induction core e with
  | case1 e s ih =>
    rw [signs, List.map_cons, List.cons_append, ← ih]
    rfl
  | case2 e s ih =>
    rw [signs, List.map_cons, List.cons_append, ← ih]
    rfl
  | case3 e hneg hdist =>
    rw [signs, List.map_nil, List.nil_append]
    · exact hneg
    · exact hdist

/-! ## Suffixes -/

/-- What holds of an expression without suffixes, and behind one more
suffix if it holds before it, holds of all expressions. -/
theorem suffixInduction {motive : Expression → Prop}
    (suffix : ∀ e t : Expression, e.target? = some t → motive t → motive e)
    (atom : ∀ e : Expression, e.target? = none → motive e) (e : Expression) : motive e := by
  fun_induction base e with
  | case1 e k s ih | case2 e i s ih | case3 e low high s ih | case4 e ls s ih =>
    exact suffix _ e rfl ih
  | case5 e hproperty hindex hslice hlabel =>
    refine atom e ?_
    cases e with
    | property e k s => exact absurd rfl (hproperty e k s)
    | index e i s => exact absurd rfl (hindex e i s)
    | slice e low high s => exact absurd rfl (hslice e low high s)
    | labelCheck e ls s => exact absurd rfl (hlabel e ls s)
    | _ => rfl

section Target

variable {e t : Expression}

theorem mem_children_of_target (h : e.target? = some t) : t ∈ e.children := by
  cases e <;> cases h <;> exact List.mem_cons_self

theorem base_of_target (h : e.target? = some t) : e.base = t.base := by
  cases e <;> cases h <;> rfl

theorem tokens_of_target (h : e.target? = some t) : e.tokens = t.tokens ++ e.suffixTokens := by
  cases e <;> cases h
  · exact tokens_property ..
  · exact tokens_index ..
  · exact tokens_slice ..
  · exact tokens_labelCheck ..

theorem signs_of_target (h : e.target? = some t) (hclear : e.Clear) : t.signs = [] := by
  cases e <;> cases h
  · exact hclear
  · exact hclear
  · exact hclear
  · exact hclear.1

/-- A target is plain and has no signs where the whole is plain. -/
theorem Plain.target (he : e.Plain) (h : e.target? = some t) : t.Plain ∧ t.signs = [] :=
  ⟨he.inside t (mem_children_of_target h), signs_of_target h he.here.2⟩

/-- A suffix has no signs in front of it. -/
theorem signs_suffix (h : e.target? = some t) : e.signs = [] := by
  cases e <;> cases h <;> rfl

end Target

end Expression

/-! ## Projections -/

/-- The text of an expression starts with a star. -/
def Expression.leadsStar (e : Expression) : Bool :=
  match e.signs, e.base with
  | [], .star _ => true
  | _, _ => false

/-- The item is not taken for the star that stands for everything. -/
def ProjectionItem.Clear : ProjectionItem → Prop
  | .everything _ => True
  | .expression e _ _ => e.leadsStar = false

/-- No item is taken for everything, and no sign of the first one for the
`DISTINCT` of the whole. -/
def Projection.Clear (p : Projection) : Prop :=
  (∀ i ∈ p.items, i.Clear) ∧
    (p.distinct = false → ∀ e n s, p.items.head? = some (.expression e n s) →
      e.signs.head? ≠ some .distinct)

def Clause.Clear : Clause → Prop
  | .withProjection p _ _ | .returnProjection p _ => p.Clear
  | _ => True

/-- The clause is well-formed and clear, and so is all that is nested in
it. -/
structure Clause.Plain (c : Clause) : Prop where
  formed : c.Formed
  clear : c.Clear
  values : ∀ e ∈ c.values, e.Plain

end Cypher
