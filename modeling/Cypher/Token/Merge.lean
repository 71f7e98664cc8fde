import Cypher.Text.Blank
import Cypher.Text.Slice
import Cypher.Token

/-!
# Operators of several words

`STARTS WITH`, `ENDS WITH`, `IS NULL` and `IS NOT NULL` are one operator
each. They are recognised after the text has been cut into tokens, from
left to right: each rule of `wordOperators` replaces its words by one
token, provided that the words are parted by white space and nothing else.

A word right after a point is a property key, whatever its spelling, and
starts no operator.
-/

namespace Cypher.Token

/-- A rule: the operator that a run of words spells. -/
structure WordOperator where
  operator : Operator
  first : Keyword
  others : List Keyword

/-- The rules. No two of them apply at one place. -/
def wordOperators : List WordOperator :=
  [⟨.startsWith, .STARTS, [.WITH]⟩,
   ⟨.endsWith, .ENDS, [.WITH]⟩,
   ⟨.isNull, .IS, [.NULL]⟩,
   ⟨.isNotNull, .IS, [.NOT, .NULL]⟩]

/-- Whether the text between two tokens is white space, and some. -/
def parted (source : List Char) (left right : Token) : Bool :=
  let gap := Text.slice source ⟨left.span.stop, right.span.start⟩
  !gap.isEmpty && gap.all Text.isBlank

/-- The last token of the run that spells `words` right after `last`, if
the tokens ahead do spell them. -/
def spelled? (source : List Char) (last : Token) :
    List Keyword → List Token → Option Token
  | [], _ => some last
  | _ :: _, [] => none
  | word :: words, next :: ahead =>
    if next.kind = .keyword word ∧ parted source last next then
      spelled? source next words ahead
    else none

/-- The rule that applies at `first`, with the last token of its run. -/
def wordOperator? (source : List Char) (first : Token) (ahead : List Token) :
    Option (WordOperator × Token) :=
  wordOperators.findSome? fun rule =>
    if first.kind = .keyword rule.first then
      (spelled? source first rule.others ahead).map (rule, ·)
    else none

/-- The one token for a run of words: it starts with the first and stops
with the last, and its text is all of the source between. -/
def fuse (source : List Char) (op : Operator) (first last : Token) : Token :=
  let span := ⟨first.span.start, last.span.stop⟩
  ⟨.operator op, span, first.line, String.ofList (Text.slice source span)⟩

/-- Replaces the runs of words that spell an operator of `source`;
`afterDot` tells that the token just answered is a point. -/
def mergeFrom (source : List Char) (afterDot : Bool) : List Token → List Token
  | [] => []
  | t :: ahead =>
    match if afterDot then none else wordOperator? source t ahead with
    | some (rule, last) =>
      fuse source rule.operator t last
        :: mergeFrom source false (ahead.drop rule.others.length)
    | none => t :: mergeFrom source (t.kind = .punctuation .dot) ahead
termination_by tokens => tokens.length
decreasing_by
  all_goals
    simp only [List.length_cons, List.length_drop]
    omega

/-- Replaces every run of words that spells an operator. -/
def merge (source : List Char) (tokens : List Token) : List Token :=
  mergeFrom source false tokens

end Cypher.Token
