import Cypher.Diagnostic
import Cypher.Text.Slice

/-!
# Reports — diagnostics against their source

A report is a diagnostic made ready for showing beside the text it speaks
of: the line goes into the message, the labels are cut to the text so that
no span reaches outside it, and each note becomes a report of its own. The
text that a label shows is `Source.excerpt?`; it may take in one character
more than the label covers, and the label's own span stays as it is.
-/

namespace Cypher

/-- A query text, with the name of where it came from if it has one. -/
structure Source where
  content : String
  name : Option String := none

namespace Source

/-- The number of bytes of the text. -/
def length (s : Source) : Nat := Text.byteLength s.content.toList

/-- The span cut to the bounds of the text. -/
def clamp (s : Source) (span : Span) : Span := span.clamp s.length

/-- The text under a span. -/
def slice (s : Source) (span : Span) : String :=
  String.ofList (Text.slice s.content.toList span)

/-- Whether a span stops between the carriage return and the newline of
one line end. -/
def splitsLineEnd (s : Source) (span : Span) : Bool :=
  let text := s.content.toList
  (Text.slice text span).getLast? = some '\r'
    && (Text.dropBytes span.stop text).head? = some '\n'

/-- The text that a label with this span shows. A line end is shown whole:
where the span stops inside one, the newline is shown as well. An empty
span shows nothing. -/
def excerpt? (s : Source) (span : Span) : Option String :=
  if span.length = 0 then none
  else if s.splitsLineEnd span then some (s.slice span ++ "\n")
  else some (s.slice span)

end Source

/-- A diagnostic in the shape in which it is shown. -/
structure Report where
  message : String
  severity : Option Severity := none
  code : Option String := none
  help : Option String := none
  labels : List Label := []
  related : List Report := []

/-- A note shown on its own: advice, and nothing but its text. -/
def Report.ofNote (note : String) : Report where
  message := note
  severity := some .note

/-- The diagnostic as shown beside `source`. -/
def Diagnostic.report (d : Diagnostic) (source : Source) : Report where
  message := match d.line with
    | some line => d.message ++ " (line " ++ toString line ++ ")"
    | none => d.message
  severity := some d.severity
  code := d.code
  help := d.help
  labels := d.labels.map fun label => { label with span := source.clamp label.span }
  related := d.notes.map Report.ofNote

/-- A query that was not accepted: what is wrong with it, and its text. -/
structure Rejection where
  diagnostics : List Diagnostic
  source : Source

namespace Rejection

/-- The first diagnostic, and how many more there are. -/
def text (r : Rejection) : String :=
  match r.diagnostics with
  | [] => "query could not be parsed"
  | [only] => only.text
  | first :: more => first.text ++ " (and " ++ toString more.length ++ " more)"

/-- One report for each diagnostic, in order. -/
def reports (r : Rejection) : List Report :=
  r.diagnostics.map (·.report r.source)

/-- The rejection as a single report, with its diagnostics related to it. -/
def report (r : Rejection) : Report where
  message := r.text
  code := r.diagnostics.head?.bind (·.code)
  related := r.reports

end Rejection

end Cypher
