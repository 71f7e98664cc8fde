import Cypher.Token

/-!
# Telling patterns from expressions

A parenthesis may open an expression or the first node of a path, and a
bracket a list or a comprehension. The productions do not go back, so the
question is settled in advance, on the tokens ahead alone: a group that
looks like a node is a node if a relationship follows the parenthesis that
closes it.
-/

namespace Cypher.Grammar

open Token (Kind)

/-- The kind of the token that is `n` tokens ahead. -/
def kindAt (ahead : List Token) (n : Nat) : Option Kind := ahead[n]?.map Token.kind

/-- The tokens that may follow the first dash of a relationship. -/
def goesOnAsRelationship : Option Kind → Bool
  | some (.punctuation .lbracket) | some (.operator .minus) | some (.operator .arrow) =>
    true
  | _ => false

/-- Whether a relationship starts here: `-[`, `--`, `->`, and each of them
behind `<`. -/
def relationshipAhead (ahead : List Token) : Bool :=
  match kindAt ahead 0 with
  | some (.operator .minus) => goesOnAsRelationship (kindAt ahead 1)
  | some (.operator .lt) =>
    kindAt ahead 1 = some (.operator .minus) && goesOnAsRelationship (kindAt ahead 2)
  | _ => false

/-- The tokens that may follow the parenthesis of a node, or its name. -/
def goesOnAsNode : Option Kind → Bool
  | some (.punctuation .rparen) | some (.punctuation .colon)
  | some (.punctuation .lbrace) | some (.parameter _) => true
  | _ => false

/-- Whether something in the shape of a node starts here. -/
def nodeAhead (ahead : List Token) : Bool :=
  kindAt ahead 0 = some (.punctuation .lparen) &&
    match kindAt ahead 1 with
    | some (.identifier _) => goesOnAsNode (kindAt ahead 2)
    | kind => goesOnAsNode kind

/-- What follows the parenthesis that closes `nesting` open ones. Only
parentheses are counted. -/
def afterGroup (nesting : Nat) : List Token → Option (List Token)
  | [] => none
  | t :: rest =>
    match t.kind with
    | .punctuation .lparen => afterGroup (nesting + 1) rest
    | .punctuation .rparen =>
      if nesting - 1 = 0 then some rest else afterGroup (nesting - 1) rest
    | _ => afterGroup nesting rest

/-- Whether a path of more than one node starts here. -/
def patternPredicateAhead (ahead : List Token) : Bool :=
  nodeAhead ahead &&
    match afterGroup 0 ahead with
    | some rest => relationshipAhead rest
    | none => false

/-- Whether a pattern comprehension goes on here, right after its bracket:
a node, with a name for the path or without, and then a relationship, a
`WHERE` or a bar. -/
def patternComprehensionAhead (ahead : List Token) : Bool :=
  let node := match kindAt ahead 0, kindAt ahead 1 with
    | some (.identifier _), some (.operator .eq) => ahead.drop 2
    | _, _ => ahead
  nodeAhead node &&
    match afterGroup 0 node with
    | some rest =>
      relationshipAhead rest || kindAt rest 0 = some (.keyword .WHERE)
        || kindAt rest 0 = some (.operator .pipe)
    | none => false

/-- Whether a list comprehension starts at this bracket: a variable and
`IN` follow it. -/
def listComprehensionAhead (ahead : List Token) : Bool :=
  match kindAt ahead 1, kindAt ahead 2 with
  | some (.identifier _), some (.keyword .IN) => true
  | _, _ => false

/-- Whether the parenthesis of a call follows, after the other parts of a
dotted name if there are any. -/
def callAhead : List Token → Bool
  | [] => false
  | [t] => t.kind = .punctuation .lparen
  | t :: part :: rest =>
    if t.kind = .punctuation .dot ∧ part.symbolicName?.isSome then callAhead rest
    else t.kind = .punctuation .lparen

end Cypher.Grammar
