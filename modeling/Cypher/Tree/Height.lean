import Cypher.Tree.Expression

/-!
# The height of an expression

The height counts the nested expressions of an expression, itself
included, and looks through everything that holds expressions: maps,
branches, and the property maps of patterns. It is what the nesting limit
bounds, so that a walk over any tree the reader answers stays shallow.

A pattern's property map counts as one level more than its values, since
it is a map that no node of its own stands for.
-/

namespace Cypher

mutual

/-- The number of nested levels, the expression's own included. -/
def Expression.height : Expression → Nat
  | .literal .. | .variable .. | .parameter .. | .star _ | .hole _ => 1
  | .property inner _ _ | .prefixed _ inner _ | .nullCheck _ inner _
  | .labelCheck inner _ _ => inner.height + 1
  | .index left right _ | .infixed _ left right _ =>
    max left.height right.height + 1
  | .slice target lower upper _ =>
    max target.height (max (heightOption lower) (heightOption upper)) + 1
  | .list items _ => heightList items + 1
  | .call _ arguments _ => heightList arguments + 1
  | .listComprehension _ source filter projection _ =>
    max source.height (max (heightOption filter) (heightOption projection)) + 1
  | .patternComprehension pattern filter projection _ =>
    max pattern.height (max (heightOption filter) projection.height) + 1
  | .patternPredicate pattern => pattern.height + 1
  | .map entries _ => heightEntries entries + 1
  | .mapProjection _ selectors _ => heightSelectors selectors + 1
  | .case operand branches otherwise _ =>
    max (heightBranches branches)
      (max (heightOption operand) (heightOption otherwise)) + 1

def heightOption : Option Expression → Nat
  | none => 0
  | some e => e.height

def heightList : List Expression → Nat
  | [] => 0
  | e :: es => max e.height (heightList es)

def MapEntry.height : MapEntry → Nat
  | ⟨_, value, _⟩ => value.height

def heightEntries : List MapEntry → Nat
  | [] => 0
  | e :: es => max e.height (heightEntries es)

def MapSelector.height : MapSelector → Nat
  | .entry e => e.height
  | .property .. | .everything _ | .variable .. => 0

def heightSelectors : List MapSelector → Nat
  | [] => 0
  | s :: ss => max s.height (heightSelectors ss)

def CaseBranch.height : CaseBranch → Nat
  | ⟨condition, result, _⟩ => max condition.height result.height

def heightBranches : List CaseBranch → Nat
  | [] => 0
  | b :: bs => max b.height (heightBranches bs)

def Properties.height : Properties → Nat
  | .map [] _ => 0
  | .map (e :: es) _ => max e.height (heightEntries es) + 1
  | .parameter .. => 0

def heightProperties : Option Properties → Nat
  | none => 0
  | some p => p.height

def NodePattern.height : NodePattern → Nat
  | ⟨_, _, properties, _⟩ => heightProperties properties

def RelationshipPattern.height : RelationshipPattern → Nat
  | ⟨_, _, _, _, properties, _⟩ => heightProperties properties

def Link.height : Link → Nat
  | ⟨relationship, node⟩ => max relationship.height node.height

def heightLinks : List Link → Nat
  | [] => 0
  | l :: ls => max l.height (heightLinks ls)

/-- The height of the tallest property value, and one for the map that
holds it; zero for a pattern without property values. -/
def Pattern.height : Pattern → Nat
  | ⟨_, start, chain, _⟩ => max start.height (heightLinks chain)

end

/-- No expression is lower than one level. -/
theorem Expression.height_pos (e : Expression) : 0 < e.height := by
  cases e <;> simp [Expression.height]

end Cypher
