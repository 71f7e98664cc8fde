import Cypher.Operator

/-!
# The precedence table

The table orders the operators from the loosest to the tightest binding.
Property access, subscripts and label checks bind tighter than all of them
and have no row: they belong to the operand that they follow.

The sign `-` has two rows. Which one applies is known from whether an
operand or an operator is due.
-/

namespace Cypher

/-- Where an operator stands, seen from its operands. -/
inductive Fixity
  | before | between | after
  deriving DecidableEq

/-- How operators of one binding group. Where they do not, two of them in
a row are refused. -/
inductive Assoc
  | left | right | nonAssoc
  deriving DecidableEq

/-- A row of the table. A greater binding is a tighter one. -/
structure Level where
  binding : Nat
  fixity : Fixity
  assoc : Assoc
  kinds : List Token.Kind
  deriving DecidableEq

namespace Level

/-- The rows, from the loosest to the tightest. -/
def table : List Level :=
  [⟨1, .before, .right, [.keyword .DISTINCT]⟩,
   ⟨2, .before, .right, [.keyword .NOT]⟩,
   ⟨3, .between, .left, [.keyword .OR, .keyword .XOR]⟩,
   ⟨4, .between, .left, [.keyword .AND]⟩,
   ⟨5, .between, .nonAssoc,
    [.operator .eq, .operator .notEq, .operator .lt, .operator .ltEq, .operator .gt,
     .operator .gtEq, .keyword .IN]⟩,
   ⟨6, .between, .left,
    [.operator .startsWith, .operator .endsWith, .keyword .CONTAINS]⟩,
   ⟨6, .after, .left, [.operator .isNull, .operator .isNotNull]⟩,
   ⟨7, .between, .left, [.operator .plus, .operator .minus]⟩,
   ⟨8, .between, .left, [.operator .star, .operator .slash, .operator .percent]⟩,
   ⟨9, .between, .right, [.operator .caret]⟩,
   ⟨10, .before, .right, [.operator .minus]⟩]

/-- The row of a token in a place, if it is an operator there. -/
def lookup (kind : Token.Kind) (fixity : Fixity) : Option Level :=
  table.find? fun level => level.fixity = fixity ∧ kind ∈ level.kinds

/-- Every operator before an operand has a row. -/
theorem lookup_prefixOperator (op : PrefixOperator) :
    (lookup op.kind .before).isSome := by
  cases op <;> decide

/-- Every operator between two operands has a row. -/
theorem lookup_infixOperator (op : InfixOperator) :
    (lookup op.kind .between).isSome := by
  cases op <;> decide

end Level

end Cypher
