import Cypher.Fault
import Cypher.Text.Quoted
import Cypher.Text.Slice

/-!
# Lexemes — a text cut into pieces

Every text is cut, left to right, into lexemes that leave nothing out:
separating characters, comments and illegal characters are lexemes too.
A lexeme is found in two moves. `Lexeme.measure` looks at what stands
ahead and answers a form and an extent; the cut then takes that many
characters. So the pieces concatenate to the text whatever the measure
answers, and each holds at least one character.

Where two forms could start alike the longer one wins. A form that needs
a closing delimiter and does not find it takes all that its body may hold
and is marked as not closed.
-/

namespace Cypher

/-- What a lexeme is. -/
inductive Lexeme.Form
  | separator
  | lineComment
  | blockComment (closed : Bool)
  | integer
  | float
  | string (closed : Bool)
  | quotedName (closed : Bool)
  | word
  | parameter
  | operator (op : Operator)
  | punctuation (mark : Punctuation)
  | illegal
  deriving DecidableEq

/-- A piece of a text: its form and characters, the offset of its first
byte and the line it starts on. -/
structure Lexeme where
  form : Lexeme.Form
  text : List Char
  start : Nat
  line : Nat
  deriving DecidableEq

namespace Lexeme

/-! ## Character classes, all within ASCII -/

/-- The characters that separate lexemes and are otherwise ignored. -/
def separates (c : Char) : Bool :=
  c = ' ' || c = '\t' || c = '\r' || c = '\x0c' || c = '\n'

/-- The characters a bare name may start with. -/
def startsWord (c : Char) : Bool := c.isAlpha || c = '_'

/-- The characters a bare name may go on with. -/
def continuesWord (c : Char) : Bool := c.isAlphanum || c = '_'

/-- Whether a name can be written bare, reserved words aside. -/
def isWord : List Char → Bool
  | [] => false
  | c :: cs => startsWord c && cs.all continuesWord

/-! ## Extents

Each function answers how many of the characters ahead belong to the
lexeme whose first characters have been seen. -/

/-- The length of the longest leading run of characters of a class. -/
def run (holds : Char → Bool) (ahead : List Char) : Nat :=
  (ahead.takeWhile holds).length

/-- The characters up to and including the first star followed by a
slash, if there is one. -/
def commentBody? : List Char → Option Nat
  | [] => none
  | c :: rest =>
    if c = '*' ∧ rest.head? = some '/' then some 2
    else (commentBody? rest).map (· + 1)

/-- The characters after an opening `quote` that belong to its body, and
whether the body is closed; the closing quote counts. A backslash pairs
with the character after it. A line end stops a body that is not
`multiline`, and a backslash cannot hide it. -/
def quotedBody (quote : Char) (multiline : Bool) : List Char → Nat × Bool
  | [] => (0, false)
  | '\\' :: [] => (1, false)
  | '\\' :: c :: rest =>
    if c = '\n' ∧ !multiline then (1, false)
    else
      let (n, closed) := quotedBody quote multiline rest
      (n + 2, closed)
  | c :: rest =>
    if c = quote then (1, true)
    else if c = '\n' ∧ !multiline then (0, false)
    else
      let (n, closed) := quotedBody quote multiline rest
      (n + 1, closed)

/-- What a number goes on with. A point belongs to it only if a digit
follows, so that a range between integers stays a range. -/
def number (ahead : List Char) : Form × Nat :=
  let whole := run Char.isDigit ahead
  match ahead.drop whole with
  | '.' :: fraction =>
    let digits := run Char.isDigit fraction
    if digits = 0 then (.integer, whole) else (.float, whole + 1 + digits)
  | _ => (.integer, whole)

/-- What a slash starts: one of the two comments, or an operator. -/
def afterSlash (ahead : List Char) : Form × Nat :=
  match ahead with
  | '/' :: rest => (.lineComment, run (· ≠ '\n') rest + 1)
  | '*' :: rest =>
    match commentBody? rest with
    | some n => (.blockComment true, n + 1)
    | none => (.blockComment false, rest.length + 1)
  | _ => (.operator .slash, 0)

/-- What a dollar sign starts. On its own it is illegal. -/
def afterDollar (ahead : List Char) : Form × Nat :=
  match ahead with
  | c :: rest =>
    if startsWord c then (.parameter, run continuesWord rest + 1) else (.illegal, 0)
  | [] => (.illegal, 0)

/-- What a character that is neither a separator, a digit nor part of a
word starts. -/
def symbol (c : Char) (ahead : List Char) : Form × Nat :=
  match c, ahead.head? with
  | '+', some '=' => (.operator .plusEq, 1)
  | '+', _ => (.operator .plus, 0)
  | '-', some '>' => (.operator .arrow, 1)
  | '-', _ => (.operator .minus, 0)
  | '*', _ => (.operator .star, 0)
  | '%', _ => (.operator .percent, 0)
  | '^', _ => (.operator .caret, 0)
  | '=', _ => (.operator .eq, 0)
  | '<', some '>' => (.operator .notEq, 1)
  | '<', some '=' => (.operator .ltEq, 1)
  | '<', _ => (.operator .lt, 0)
  | '>', some '=' => (.operator .gtEq, 1)
  | '>', _ => (.operator .gt, 0)
  | '|', _ => (.operator .pipe, 0)
  | '.', some '.' => (.operator .dotDot, 1)
  | '.', _ => (.punctuation .dot, 0)
  | '(', _ => (.punctuation .lparen, 0)
  | ')', _ => (.punctuation .rparen, 0)
  | '[', _ => (.punctuation .lbracket, 0)
  | ']', _ => (.punctuation .rbracket, 0)
  | '{', _ => (.punctuation .lbrace, 0)
  | '}', _ => (.punctuation .rbrace, 0)
  | ':', _ => (.punctuation .colon, 0)
  | ',', _ => (.punctuation .comma, 0)
  | _, _ => (.illegal, 0)

/-- The form of the lexeme that starts with `c`, and how many of the
characters ahead belong to it. -/
def measure (c : Char) (ahead : List Char) : Form × Nat :=
  if separates c then (.separator, 0)
  else if c.isDigit then number ahead
  else if startsWord c then (.word, run continuesWord ahead)
  else if c = '$' then afterDollar ahead
  else if c = '/' then afterSlash ahead
  else if c = '\'' ∨ c = '"' then
    let (n, closed) := quotedBody c false ahead
    (.string closed, n)
  else if c = Text.grave then
    let (n, closed) := quotedBody c true ahead
    (.quotedName closed, n)
  else symbol c ahead

/-! ## The cut -/

/-- The lexemes of `text`, whose first byte has the offset `start` and
lies on `line`. -/
def cut (start line : Nat) : List Char → List Lexeme
  | [] => []
  | c :: rest =>
    let (form, n) := measure c rest
    let piece := c :: rest.take n
    ⟨form, piece, start, line⟩
      :: cut (start + Text.byteLength piece) (line + Text.newlines piece) (rest.drop n)
termination_by text => text.length
decreasing_by
  simp only [List.length_cons, List.length_drop]
  omega

/-- The lexemes of a whole text. -/
def ofText (text : List Char) : List Lexeme := cut 0 1 text

/-- No character is lost, doubled or moved. -/
theorem flatMap_text_cut (start line : Nat) (text : List Char) :
    (cut start line text).flatMap Lexeme.text = text := by
  fun_induction cut start line text with
  | case1 => rfl
  | case2 start line c rest form n hm piece ih => simp [piece, ih]

/-! ## Reading a lexeme -/

/-- The bytes a lexeme takes. -/
def span (l : Lexeme) : Span := ⟨l.start, l.start + Text.byteLength l.text⟩

/-- The text between the delimiters of a quoted form; there is no closing
one to leave out when the form is not closed. -/
def body (l : Lexeme) (closed : Bool) : List Char :=
  if closed then l.text.tail.dropLast else l.text.tail

/-- The token a lexeme is read as. Separators, comments and illegal
characters are none. -/
def kind? (l : Lexeme) : Option Token.Kind :=
  match l.form with
  | .separator | .lineComment | .blockComment _ | .illegal => none
  | .integer => some (.integer (String.ofList l.text))
  | .float => some (.float (String.ofList l.text))
  | .string closed =>
    some (.string (String.ofList (Text.decodeString (l.body closed))))
  | .quotedName closed =>
    some (.identifier (String.ofList (Text.decodeName (l.body closed))))
  | .word =>
    match Keyword.ofLetters? l.text with
    | some word => some (.keyword word)
    | none => some (.identifier (String.ofList l.text))
  | .parameter => some (.parameter (String.ofList l.text.tail))
  | .operator op => some (.operator op)
  | .punctuation mark => some (.punctuation mark)

/-- A lexeme as a token, if it is one. -/
def token? (l : Lexeme) : Option Token :=
  l.kind?.map fun kind => ⟨kind, l.span, l.line, String.ofList l.text⟩

/-- What is wrong with a lexeme, if anything is. -/
def cause? (l : Lexeme) : Option Cause :=
  match l.form with
  | .illegal => l.text.head?.map .illegalCharacter
  | .blockComment false => some (.unclosed .comment)
  | .string false => some (.unclosed .string)
  | .quotedName false => some (.unclosed .name)
  | _ => none

/-- The fault of a lexeme; its lexeme in the report is the first
character only. -/
def fault? (l : Lexeme) : Option Fault :=
  l.cause?.map fun cause =>
    ⟨cause, l.span, l.line, some (String.ofList (l.text.take 1))⟩

end Lexeme

end Cypher
