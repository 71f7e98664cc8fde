import Cypher.Span

/-!
# Diagnostics

A diagnostic is a finished message about a place in a query text: wording,
labelled spans, and the line and lexeme that let a caller point at the
defect without scanning the text again. It is a plain record that anyone
may fill in; the ones the library itself answers are all built by
`Fault.diagnostic`.
-/

namespace Cypher

/-- How grave a diagnostic is. Only an error makes a query fail. -/
inductive Severity
  | error | warning | note
  deriving DecidableEq

/-- The word a diagnostic starts with. -/
def Severity.text : Severity → String
  | .error => "error"
  | .warning => "warning"
  | .note => "note"

/-- Whether a label marks the defect itself or something it relates to. -/
inductive LabelRole
  | primary | secondary
  deriving DecidableEq

/-- A span of the text with a remark. -/
structure Label where
  span : Span
  message : String
  role : LabelRole
  deriving DecidableEq

/-- A finished message. Only the severity and the message are always there. -/
structure Diagnostic where
  severity : Severity
  message : String
  /-- Marked spans, in the order they were added. -/
  labels : List Label := []
  /-- Advice on mending the defect. -/
  help : Option String := none
  /-- Further remarks, in the order they were added. -/
  notes : List String := []
  code : Option String := none
  /-- The line of the defect, counted from 1. -/
  line : Option Nat := none
  /-- The offending text; absent at the end of the input. -/
  lexeme : Option String := none
  deriving DecidableEq

namespace Diagnostic

/-- The diagnostic with one more label, behind those it has. -/
def addLabel (d : Diagnostic) (label : Label) : Diagnostic :=
  { d with labels := d.labels ++ [label] }

/-- The diagnostic with one more note, behind those it has. -/
def addNote (d : Diagnostic) (note : String) : Diagnostic :=
  { d with notes := d.notes ++ [note] }

/-- Whether a query with this diagnostic fails. -/
def isError (d : Diagnostic) : Bool := d.severity = .error

/-- Whether the code belongs to the lexical family, the codes in `L`. -/
def isLexical (d : Diagnostic) : Bool :=
  match d.code with
  | some code => code.toList.head? = some 'L'
  | none => false

/-- The span of the first primary label. -/
def primarySpan? (d : Diagnostic) : Option Span :=
  (d.labels.find? (·.role = .primary)).map (·.span)

/-- The one-line form, `severity[code] (line n): message`; an absent part
is left out with its brackets. -/
def text (d : Diagnostic) : String :=
  let code := match d.code with
    | some code => "[" ++ code ++ "]"
    | none => ""
  let line := match d.line with
    | some line => " (line " ++ toString line ++ ")"
    | none => ""
  d.severity.text ++ code ++ line ++ ": " ++ d.message

end Diagnostic

end Cypher
