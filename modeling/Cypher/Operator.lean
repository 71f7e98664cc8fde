import Cypher.Token

/-!
# Operators of expressions

An operator of an expression is what an operator token or a reserved word
MEANS in its place: the token `-` negates before an operand and subtracts
between two.
-/

namespace Cypher

/-- An operator written before its operand. -/
inductive PrefixOperator
  | distinct | not | negate
  deriving DecidableEq

/-- An operator written between its operands. -/
inductive InfixOperator
  | or | xor | and
  | eq | notEq | lt | ltEq | gt | gtEq | membership
  | startsWith | endsWith | contains
  | add | subtract | multiply | divide | modulo | power
  deriving DecidableEq

/-- What an infix operator works on. -/
inductive InfixOperator.Family
  | logical | comparison | membership | string | arithmetic
  deriving DecidableEq

namespace PrefixOperator

def ofKind? : Token.Kind → Option PrefixOperator
  | .keyword .DISTINCT => some .distinct
  | .keyword .NOT => some .not
  | .operator .minus => some .negate
  | _ => none

/-- The token an operator is written with. -/
def kind : PrefixOperator → Token.Kind
  | .distinct => .keyword .DISTINCT
  | .not => .keyword .NOT
  | .negate => .operator .minus

theorem ofKind?_kind (op : PrefixOperator) : ofKind? op.kind = some op := by
  cases op <;> rfl

end PrefixOperator

namespace InfixOperator

def ofKind? : Token.Kind → Option InfixOperator
  | .keyword .OR => some .or
  | .keyword .XOR => some .xor
  | .keyword .AND => some .and
  | .operator .eq => some .eq
  | .operator .notEq => some .notEq
  | .operator .lt => some .lt
  | .operator .ltEq => some .ltEq
  | .operator .gt => some .gt
  | .operator .gtEq => some .gtEq
  | .keyword .IN => some .membership
  | .operator .startsWith => some .startsWith
  | .operator .endsWith => some .endsWith
  | .keyword .CONTAINS => some .contains
  | .operator .plus => some .add
  | .operator .minus => some .subtract
  | .operator .star => some .multiply
  | .operator .slash => some .divide
  | .operator .percent => some .modulo
  | .operator .caret => some .power
  | _ => none

/-- What an operator is written with: a reserved word or a symbol. -/
def spelling : InfixOperator → Keyword ⊕ Operator
  | .or => .inl .OR
  | .xor => .inl .XOR
  | .and => .inl .AND
  | .eq => .inr .eq
  | .notEq => .inr .notEq
  | .lt => .inr .lt
  | .ltEq => .inr .ltEq
  | .gt => .inr .gt
  | .gtEq => .inr .gtEq
  | .membership => .inl .IN
  | .startsWith => .inr .startsWith
  | .endsWith => .inr .endsWith
  | .contains => .inl .CONTAINS
  | .add => .inr .plus
  | .subtract => .inr .minus
  | .multiply => .inr .star
  | .divide => .inr .slash
  | .modulo => .inr .percent
  | .power => .inr .caret

/-- The token an operator is written with. -/
def kind (op : InfixOperator) : Token.Kind :=
  match op.spelling with
  | .inl word => .keyword word
  | .inr symbol => .operator symbol

theorem ofKind?_kind (op : InfixOperator) : ofKind? op.kind = some op := by
  cases op <;> rfl

/-- What the operator works on. -/
def family : InfixOperator → Family
  | .or | .xor | .and => .logical
  | .eq | .notEq | .lt | .ltEq | .gt | .gtEq => .comparison
  | .membership => .membership
  | .startsWith | .endsWith | .contains => .string
  | .add | .subtract | .multiply | .divide | .modulo | .power => .arithmetic

end InfixOperator

end Cypher
