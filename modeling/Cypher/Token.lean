import Cypher.Keyword
import Cypher.Span

/-!
# Tokens

A query is read as a sequence of tokens. A token's KIND is all that the
grammar looks at, with one exception: where a reserved word serves as a
name, the name is the token's text. Its span and line travel along for
the tree and for reports.
-/

namespace Cypher

/-- The symbols and word groups that operate on values. -/
inductive Operator
  | startsWith | endsWith | isNull | isNotNull
  | plus | plusEq | minus | arrow | star | slash | percent | caret
  | eq | notEq | lt | ltEq | gt | gtEq | pipe | dotDot
  deriving DecidableEq

/-- The symbols that group and separate. -/
inductive Punctuation
  | lparen | rparen | lbracket | rbracket | lbrace | rbrace
  | colon | comma | dot
  deriving DecidableEq

/-- An operator as it is written, its words in upper case. -/
def Operator.text : Operator → String
  | .startsWith => "STARTS WITH"
  | .endsWith => "ENDS WITH"
  | .isNull => "IS NULL"
  | .isNotNull => "IS NOT NULL"
  | .plus => "+"
  | .plusEq => "+="
  | .minus => "-"
  | .arrow => "->"
  | .star => "*"
  | .slash => "/"
  | .percent => "%"
  | .caret => "^"
  | .eq => "="
  | .notEq => "<>"
  | .lt => "<"
  | .ltEq => "<="
  | .gt => ">"
  | .gtEq => ">="
  | .pipe => "|"
  | .dotDot => ".."

/-- A mark as it is written. -/
def Punctuation.text : Punctuation → String
  | .lparen => "("
  | .rparen => ")"
  | .lbracket => "["
  | .rbracket => "]"
  | .lbrace => "\x7b"
  | .rbrace => "\x7d"
  | .colon => ":"
  | .comma => ","
  | .dot => "."

/-- The broad classes of tokens. -/
inductive Token.Category
  | literal | identifier | keyword | operator | punctuation | eof
  deriving DecidableEq

/-- What a token is. Names and strings carry their decoded value, numbers
the digits as written, a parameter its name without the sign. -/
inductive Token.Kind
  | keyword (word : Keyword)
  | identifier (name : String)
  | string (value : String)
  | integer (digits : String)
  | float (digits : String)
  | parameter (name : String)
  | operator (op : Operator)
  | punctuation (mark : Punctuation)
  | eof
  deriving DecidableEq

namespace Token.Kind

/-- The class of a kind. A parameter counts as an identifier. -/
def category : Kind → Category
  | .keyword _ => .keyword
  | .identifier _ | .parameter _ => .identifier
  | .string _ | .integer _ | .float _ => .literal
  | .operator _ => .operator
  | .punctuation _ => .punctuation
  | .eof => .eof

/-- Whether the kind is a reserved word. -/
def isKeyword (k : Kind) : Bool := k.category = .keyword

/-- Whether the kind is an operator. -/
def isOperator (k : Kind) : Bool := k.category = .operator

/-- Whether the kind denotes a value. `TRUE`, `FALSE` and `NULL` are
reserved words and denote values all the same. -/
def isLiteral : Kind → Bool
  | .string _ | .integer _ | .float _ => true
  | .keyword .TRUE | .keyword .FALSE | .keyword .NULL => true
  | _ => false

/-- Whether a clause may begin with the kind, or `UNION` is it. -/
def startsClause : Kind → Bool
  | .keyword word => word.startsClause
  | _ => false

/-- The kind as shown to a reader. A string is shown between quotes with
nothing escaped, so this text need not read back. -/
def text : Kind → String
  | .keyword word => word.text
  | .identifier name => name
  | .string value => "'" ++ value ++ "'"
  | .integer digits | .float digits => digits
  | .parameter name => "$" ++ name
  | .operator op => op.text
  | .punctuation mark => mark.text
  | .eof => "end of input"

end Token.Kind

/-- A token with its place: the bytes it covers, the line it starts on
(counted from 1) and the text it was read from. -/
structure Token where
  kind : Token.Kind
  span : Span
  line : Nat
  text : String
  deriving DecidableEq

namespace Token

/-- The token as named in a report. -/
def describe (t : Token) : String :=
  match t.kind with
  | .eof => "end of input"
  | _ => "'" ++ t.text ++ "'"

/-- The name a token spells where reserved words are names too: labels,
relationship types, keys, parts of function and procedure names. -/
def symbolicName? (t : Token) : Option String :=
  match t.kind with
  | .identifier name => some name
  | .keyword _ => some t.text
  | _ => none

end Token

end Cypher
