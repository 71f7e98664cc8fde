import Cypher.Operator.Table
import Cypher.Tree.Expression

/-!
# Shift and reduce

Operands and operators are read from left to right onto two stacks. An
operator waits until an operator that binds no tighter arrives, or the
expression ends; then it is REDUCED: it takes its operands off the stack
and puts the node made of them back.

Each operand carries its height along, so that a node which would grow
past the limit is refused before it is built. A refusal is final; the
flag `tooDeep` records it.
-/

namespace Cypher

/-- A finished operand with the height of its tree. -/
structure Operand where
  tree : Expression
  height : Nat

/-- What a waiting operator will do. -/
inductive Pending.Role
  | prefixed (op : PrefixOperator)
  | infixed (op : InfixOperator)
  deriving DecidableEq

/-- An operator that waits for its right operand, as it was written. -/
structure Pending where
  role : Pending.Role
  binding : Nat
  text : String
  span : Span
  deriving DecidableEq

/-- Takes the operands of an operator off the stack. Answers the node made
of them and what is left, or nothing when an operand is missing. -/
def Pending.apply (p : Pending) : List Operand → Option (Operand × List Operand)
  | right :: rest =>
    match p.role with
    | .prefixed op =>
      let span := ⟨p.span.start, right.tree.span.stop⟩
      some (⟨.prefixed op right.tree span, right.height + 1⟩, rest)
    | .infixed op =>
      match rest with
      | left :: rest =>
        let span := left.tree.span.join right.tree.span
        some (⟨.infixed op left.tree right.tree span,
          max left.height right.height + 1⟩, rest)
      | [] => none
  | [] => none

/-- The two stacks, each with its top first, and whether a reduction has
been refused. -/
structure Stacks where
  operands : List Operand := []
  pending : List Pending := []
  tooDeep : Bool := false

namespace Stacks

/-- Puts an operand on its stack. -/
def pushOperand (s : Stacks) (o : Operand) : Stacks :=
  { s with operands := o :: s.operands }

/-- Puts an operator on its stack, where it waits. -/
def pushPending (s : Stacks) (p : Pending) : Stacks :=
  { s with pending := p :: s.pending }

/-- Reduces the waiting operators from the top for as long as `due` holds
of them. Stops at the first node higher than `limit`, and where an operand
is missing. -/
def settle (limit : Nat) (due : Pending → Bool) (operands : List Operand) :
    List Pending → Stacks
  | [] => { operands }
  | top :: pending =>
    if due top then
      match top.apply operands with
      | some (node, rest) =>
        if node.height ≤ limit then settle limit due (node :: rest) pending
        else { operands := rest, pending, tooDeep := true }
      | none => { pending }
    else { operands, pending := top :: pending }

/-- Reduces every operator that an incoming one of this binding and
grouping must wait for: the tighter ones, and those of equal binding if
they group to the left. -/
def reduceAbove (limit binding : Nat) (assoc : Assoc) (s : Stacks) : Stacks :=
  settle limit
    (fun top => binding < top.binding || (top.binding = binding && assoc = .left))
    s.operands s.pending

/-- Reduces every operator. -/
def reduceAll (limit : Nat) (s : Stacks) : Stacks :=
  settle limit (fun _ => true) s.operands s.pending

/-- Wraps the top operand into a null check that ends at `stop`. -/
def nullCheck (limit : Nat) (negated : Bool) (stop : Nat) (s : Stacks) : Stacks :=
  match s.operands with
  | [] => s
  | top :: rest =>
    if limit ≤ top.height then { s with operands := rest, tooDeep := true }
    else
      let span := ⟨top.tree.span.start, stop⟩
      { s with operands := ⟨.nullCheck negated top.tree span, top.height + 1⟩ :: rest }

end Stacks

end Cypher
