import Cypher.Grammar.Lookahead
import Cypher.Proofs.Leaves.Tree
import Cypher.Token.Stream

/-!
# Scanning for leaves

Which tokens of a query are leaves of its tree can be told without reading it
as a query. A scan goes over the tokens once, from left to right. It knows
which brackets are open, and what the token just passed makes of the next one;
it looks ahead where a parenthesis is met, as the grammar does.

Names that are no reserved words, numbers, strings and parameters are leaves
wherever they stand, except for the bounds on the hops of a relationship. The
scan is there for the reserved words. One of them is a NAME behind a point,
behind a colon or a bar that leads to a label or type, behind `CALL`, and where
an entry of a map starts; the colon behind the key of an entry leads to a value
and not to a label. Elsewhere it is a value or no leaf at all.
-/

namespace Cypher

/-- What an open bracket encloses. -/
inductive Bracket
  /-- The arguments of a call. -/
  | arguments
  /-- A node, or an expression in parentheses that looks like one. -/
  | node
  /-- Any other expression in parentheses. -/
  | group
  /-- A list, a comprehension or a subscript. -/
  | list
  /-- What is said of a relationship. -/
  | detail
  /-- The entries of a map, or what a map projection selects. -/
  | map
  deriving DecidableEq

/-- What the token just passed makes of the next one. -/
inductive Mode
  /-- Nothing in particular. -/
  | value
  /-- It is a name. -/
  | name
  /-- An entry of a map starts with it. -/
  | entry
  /-- A colon leads from a key to its value. -/
  | key
  /-- A parenthesis opens the arguments of a call. -/
  | call
  /-- It belongs to the arrow of a relationship. -/
  | edge
  deriving DecidableEq

/-- How far a scan has come. -/
structure Scan where
  /-- The open brackets, the innermost first. -/
  brackets : List Bracket := []
  mode : Mode := .value
  deriving DecidableEq

namespace Scan

open Grammar (nodeAhead relationshipAhead)

variable (σ : Scan)

def toMode (mode : Mode) : Scan := { σ with mode }

/-- Whether the innermost bracket is of this kind. -/
def within (bracket : Bracket) : Bool := σ.brackets.head? = some bracket

/-- Goes into a bracket. -/
def enter (bracket : Bracket) (mode : Mode) : Scan := ⟨bracket :: σ.brackets, mode⟩

/-- Comes out of the innermost bracket. -/
def leave (mode : Mode) : Scan := ⟨σ.brackets.tail, mode⟩

/-- Passes a name. -/
def passName : Scan := σ.toMode (if σ.mode = .entry then .key else .call)

/-- Passes a reserved word, which is a name in its place or means something. -/
def passKeyword (word : Keyword) (text : String) : List Leaf × Scan :=
  if σ.mode = .name ∨ σ.mode = .entry then ([.name text], σ.passName)
  else
    match word with
    | .TRUE => ([.boolean true], σ.toMode .value)
    | .FALSE => ([.boolean false], σ.toMode .value)
    | .NULL => ([.null], σ.toMode .value)
    | .EXISTS => ([.name "exists"], σ.toMode .call)
    | .CALL => ([], σ.toMode .name)
    | _ => ([], σ.toMode .value)

/-- Passes an operator. A bar between the types of a relationship leads to the
next one. -/
def passOperator (op : Operator) : Scan :=
  if op = .pipe ∧ σ.within .detail then σ.toMode .name
  else if σ.mode = .edge ∧ (op = .minus ∨ op = .lt ∨ op = .arrow) then σ
  else σ.toMode .value

/-- Passes a mark. `ahead` starts with it. -/
def passMark (mark : Punctuation) (ahead : List Token) : Scan :=
  match mark with
  | .lparen =>
    if σ.mode = .call then σ.enter .arguments .value
    else σ.enter (if nodeAhead ahead then .node else .group) .value
  | .rparen => σ.leave (if σ.within .node ∧ relationshipAhead ahead.tail then .edge else .value)
  | .lbracket => σ.enter (if σ.mode = .edge then .detail else .list) .value
  | .rbracket => σ.leave .value
  | .lbrace => σ.enter .map .entry
  | .rbrace => σ.leave .value
  | .comma => σ.toMode (if σ.within .map then .entry else .value)
  | .colon => σ.toMode (if σ.mode = .key then .value else .name)
  | .dot => σ.toMode .name

/-- Passes the token `t`, with `rest` behind it: the leaves that it is, and how
the scan goes on. A whole number among the details of a relationship is a bound
on its hops. -/
def pass (t : Token) (rest : List Token) : List Leaf × Scan :=
  match t.kind with
  | .identifier name => ([.name name], σ.passName)
  | .keyword word => σ.passKeyword word t.text
  | .parameter name => ([.parameter name], σ.toMode .value)
  | .integer digits => (if σ.within .detail then [] else [.number digits], σ.toMode .value)
  | .float digits => ([.number digits], σ.toMode .value)
  | .string value => ([.string value], σ.toMode .value)
  | .operator op => ([], σ.passOperator op)
  | .punctuation mark => ([], σ.passMark mark (t :: rest))
  | .eof => ([], σ)

/-- The leaves among the tokens, in their order. -/
def leaves (σ : Scan) : List Token → List Leaf
  | [] => []
  | t :: rest => (σ.pass t rest).1 ++ leaves (σ.pass t rest).2 rest

/-- The scan behind the tokens `passed`, in front of those `ahead`. -/
def passAll (σ : Scan) : List Token → List Token → Scan
  | [], _ => σ
  | t :: passed, ahead => (σ.pass t (passed ++ ahead)).2.passAll passed ahead

theorem passAll_append (xs ys ahead : List Token) :
    σ.passAll (xs ++ ys) ahead = (σ.passAll xs (ys ++ ahead)).passAll ys ahead := by
  induction xs generalizing σ with
  | nil => rfl
  | cons t xs ih => rw [List.cons_append, passAll, passAll, ih, List.append_assoc]

theorem passAll_concat (passed : List Token) (t : Token) (ahead : List Token) :
    σ.passAll (passed ++ [t]) ahead = ((σ.passAll passed (t :: ahead)).pass t ahead).2 :=
  σ.passAll_append passed [t] ahead

end Scan

/-- The leaves among the tokens of a text. -/
def TokenStream.leaves (s : TokenStream) : List Leaf := ({} : Scan).leaves s.tokens

end Cypher
