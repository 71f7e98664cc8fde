import Cypher.Diagnostic
import Cypher.Token

/-!
# Faults — what can be wrong with a query

A fault is a CAUSE at a SITE. The reading of a query decides on causes and
never on wording: the message, the labels, the code and the advice are all
functions of the fault, and `Fault.diagnostic` is the one place where they
are put together.
-/

namespace Cypher

/-- Where a fault lies. The lexeme is absent at the end of the input. -/
structure Site where
  span : Span
  line : Nat
  lexeme : Option String
  deriving DecidableEq

/-- The place of a token. -/
def Token.site (t : Token) : Site where
  span := t.span
  line := t.line
  lexeme := if t.kind = .eof then none else some t.text

/-- The forms of text that need a closing delimiter. -/
inductive Delimited
  | comment | string | name
  deriving DecidableEq

/-- What a variable is wanted for. -/
inductive VariableRole
  | variable | alias | projectionItem | resultField
  deriving DecidableEq

/-- The role as a message names what it wants. -/
def VariableRole.text : VariableRole → String
  | .variable => "a variable"
  | .alias => "an alias"
  | .projectionItem => "a map projection item"
  | .resultField => "a result field"

/-- What a name is wanted for where reserved words are names too. -/
inductive NameRole
  | label | relationshipType | propertyKey | mapKey | function | procedure
  deriving DecidableEq

/-- The role as a message names what it wants. -/
def NameRole.text : NameRole → String
  | .label => "a label"
  | .relationshipType => "a relationship type"
  | .propertyKey => "a property key"
  | .mapKey => "a map key"
  | .function => "a function name"
  | .procedure => "a procedure name"

/-- What the grammar asks for at a place that admits one thing only. -/
inductive Expectation
  | token (kind : Token.Kind)
  | oneOf (first second : Token.Kind)
  | version
  /-- The flag `reserved` tells that a reserved word was found instead. -/
  | variable (role : VariableRole) (reserved : Bool)
  | name (role : NameRole)
  deriving DecidableEq

/-- The expectation as a message names it: tokens between quotes, roles bare. -/
def Expectation.text : Expectation → String
  | .token kind => "'" ++ kind.text ++ "'"
  | .oneOf first second => "'" ++ first.text ++ "' or '" ++ second.text ++ "'"
  | .version => "a version number"
  | .variable role _ => role.text
  | .name role => role.text

/-- Why a token has no place where it stands. -/
inductive Misplacement
  | noClause | afterQuery | noLabel | twoArrowheads
  deriving DecidableEq

/-- The reason as a message gives it, behind the token and a colon. -/
def Misplacement.text : Misplacement → String
  | .noClause => "expected a clause"
  | .afterQuery => "expected a clause or end of input"
  | .noLabel => "expected ':' and a label"
  | .twoArrowheads => "a relationship cannot point both ways"

/-- Everything that can be wrong with a query. -/
inductive Cause
  | illegalCharacter (c : Char)
  | unclosed (what : Delimited)
  | expectedExpression
  | expected (what : Expectation)
  | unexpected (why : Misplacement)
  /-- A comparison right after another one, which is named by its text. -/
  | chainedComparison (previous : String) (previousSpan : Span)
  | boundOutOfRange (digits : String)
  | nestingTooDeep (limit : Nat)
  deriving DecidableEq

/-- The code of a cause: `L` for the lexical family, `P` for the
grammatical one. -/
def Cause.code : Cause → String
  | .illegalCharacter _ => "L001"
  | .unclosed _ => "L002"
  | .expectedExpression => "P001"
  | .expected _ => "P002"
  | .unexpected _ => "P003"
  | .chainedComparison _ _ => "P004"
  | .boundOutOfRange _ => "P005"
  | .nestingTooDeep _ => "P006"

/-- Something wrong with a query, and where. -/
structure Fault where
  cause : Cause
  site : Site
  deriving DecidableEq

namespace Fault

/-- What stands at the site, as a message names it. -/
def found (f : Fault) : String :=
  match f.site.lexeme with
  | some text => "'" ++ text ++ "'"
  | none => "end of input"

/-- What is wrong, in words. -/
def message (f : Fault) : String :=
  match f.cause with
  | .illegalCharacter c => "illegal character '" ++ c.toString ++ "'"
  | .unclosed .comment => "unclosed block comment"
  | .unclosed .string => "unclosed string literal"
  | .unclosed .name => "unclosed backtick identifier"
  | .expectedExpression => "expected an expression, found " ++ f.found
  | .expected what => "expected " ++ what.text ++ ", found " ++ f.found
  | .unexpected why => "unexpected " ++ f.found ++ ": " ++ why.text
  | .chainedComparison previous _ =>
    "chained comparison: " ++ f.found ++ " cannot follow '" ++ previous
      ++ "' without parentheses"
  | .boundOutOfRange digits =>
    "relationship length bound '" ++ digits ++ "' is out of range"
  | .nestingTooDeep limit =>
    "nesting exceeds the limit of " ++ toString limit ++ " at " ++ f.found

/-- The remark on the primary label. -/
def remark (f : Fault) : String :=
  match f.cause with
  | .illegalCharacter _ => "skipped"
  | .unclosed .comment => "comment starts here"
  | .unclosed .string => "string starts here"
  | .unclosed .name => "identifier starts here"
  | _ => "here"

/-- What the fault relates to, besides its own site. -/
def relatedLabels (f : Fault) : List Label :=
  match f.cause with
  | .chainedComparison _ span => [⟨span, "previous comparison", .secondary⟩]
  | _ => []

/-- Advice on mending the fault, where one remedy is the likely one. -/
def help (f : Fault) : Option String :=
  match f.cause with
  | .expected (.variable _ true) =>
    some (f.found
      ++ " is a reserved word; quote it with backticks to use it as a name")
  | .chainedComparison _ _ => some "combine the comparisons with AND"
  | _ => none

/-- The fault in words. -/
def diagnostic (f : Fault) : Diagnostic where
  severity := .error
  message := f.message
  labels := ⟨f.site.span, f.remark, .primary⟩ :: f.relatedLabels
  help := f.help
  code := some f.cause.code
  line := some f.site.line
  lexeme := f.site.lexeme

end Fault

end Cypher
