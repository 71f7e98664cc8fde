import Cypher.Grammar.Pattern
import Cypher.Glyph
import Cypher.Proofs.Tree.Children

/-!
# Well-formed trees

The types of trees admit more than the grammar can produce: a number whose
digits are no digits, a parameter whose name is no word, a call without a
name. `Formed` leaves these out, node by node. It asks nothing of the names
that can be quoted, nor of the height.
-/

namespace Cypher

/-! ## Patterns -/

/-- A bound is a number that the grammar takes. -/
def HopRange.Bounded (r : HopRange) : Prop :=
  ∀ n, r.min = some n ∨ r.max = some n → n < Grammar.hopLimit

/-- A parameter in the place of a property map can be written. -/
def Properties.Formed : Properties → Prop
  | .map .. => True
  | .parameter n _ => Lexeme.isWord n.toList

def NodePattern.Formed (n : NodePattern) : Prop := ∀ p ∈ n.properties, p.Formed

def RelationshipPattern.Formed (r : RelationshipPattern) : Prop :=
  (∀ p ∈ r.properties, p.Formed) ∧ ∀ h ∈ r.hops, h.Bounded

def Link.Formed (l : Link) : Prop := l.relationship.Formed ∧ l.node.Formed

/-- The parts of a path that are no expressions can be written and read. -/
def Pattern.Formed (p : Pattern) : Prop := p.start.Formed ∧ ∀ l ∈ p.chain, l.Formed

/-! ## Expressions -/

/-- Digits, at least one. -/
def Digits (cs : List Char) : Prop := cs ≠ [] ∧ ∀ c ∈ cs, c.isDigit

/-- The digits of a number with a point, on both sides of it. -/
def PointedDigits (cs : List Char) : Prop :=
  ∃ whole fraction, cs = whole ++ '.' :: fraction ∧ Digits whole ∧ Digits fraction

def Literal.Formed : Literal → Prop
  | .integer digits => Digits digits.toList
  | .float digits => PointedDigits digits.toList
  | _ => True

/-- The node of an expression can be written and read. -/
def Expression.Formed : Expression → Prop
  | .literal v _ => v.Formed
  | .parameter n _ => Lexeme.isWord n.toList
  | .call name _ _ => name ≠ []
  | .case _ branches _ _ => branches ≠ []
  | .labelCheck _ labels _ => labels ≠ []
  | .patternComprehension p _ _ _ => p.Formed
  | .patternPredicate p => p.Formed ∧ p.name = none ∧ p.chain ≠ []
  | .hole _ => False
  | _ => True

/-! ## Clauses and queries -/

def SetItem.Formed : SetItem → Prop
  | .labels _ names _ => names ≠ []
  | _ => True

def RemoveItem.Formed : RemoveItem → Prop
  | .labels _ names _ => names ≠ []
  | .property _ => True

def MergeAction.Formed (a : MergeAction) : Prop := a.items ≠ [] ∧ ∀ i ∈ a.items, i.Formed

/-- The parts of a clause that are no expressions can be written and read. -/
def Clause.Formed : Clause → Prop
  | .matchPatterns _ ps _ _ | .create ps _ => ps ≠ [] ∧ ∀ p ∈ ps, p.Formed
  | .merge ps actions _ =>
    (ps ≠ [] ∧ ∀ p ∈ ps, p.Formed) ∧ ∀ a ∈ actions, a.Formed
  | .set items _ => items ≠ [] ∧ ∀ i ∈ items, i.Formed
  | .delete _ targets _ => targets ≠ []
  | .remove items _ => items ≠ [] ∧ ∀ i ∈ items, i.Formed
  | .withProjection p _ _ | .returnProjection p _ => p.items ≠ []
  | .orderBy items _ => items ≠ []
  | .call procedure _ fields _ _ => procedure ≠ [] ∧ fields ≠ some []
  | .unwind .. | .skip .. | .limit .. => True

/-- The parts of a query that are no clauses can be written and read. -/
structure Query.Formed (q : Query) : Prop where
  version : ∀ v ∈ q.version, Digits v.toList ∨ PointedDigits v.toList
  parts : ∀ p ∈ q.body.parts, p.clauses ≠ []

end Cypher
