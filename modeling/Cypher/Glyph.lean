import Cypher.Lexeme
import Cypher.Operator

/-!
# Glyphs — the pieces of a canonical text

The canonical text of a tree is laid out as a list of glyphs before any
character is written. A glyph says what a piece MEANS (a variable's name,
a label, a string) and its spelling follows from that alone: which names
are put between grave accents, and what is escaped inside them, is decided
here and nowhere else.
-/

namespace Cypher

/-- A piece of a canonical text. -/
inductive Glyph
  | space
  | keyword (word : Keyword)
  | operator (op : Operator)
  | mark (mark : Punctuation)
  /-- A variable or alias. A reserved word must be quoted here. -/
  | name (name : String)
  /-- A label, type, key or part of a dotted name. A reserved word may
  stand bare here. -/
  | symbol (name : String)
  | parameter (name : String)
  | number (digits : String)
  | string (value : String)
  /-- The mark left where an operand could not be read. -/
  | hole
  deriving DecidableEq

namespace Glyph

/-- A name between grave accents. -/
def quotedName (name : List Char) : List Char :=
  Text.grave :: Text.encodeName name ++ [Text.grave]

/-- The characters of a glyph. -/
def chars : Glyph → List Char
  | .space => [' ']
  | .keyword word => word.text.toList
  | .operator op => op.text.toList
  | .mark m => m.text.toList
  | .name n =>
    if Lexeme.isWord n.toList ∧ Keyword.ofName? n = none then n.toList
    else quotedName n.toList
  | .symbol n => if Lexeme.isWord n.toList then n.toList else quotedName n.toList
  | .parameter n => '$' :: n.toList
  | .number digits => digits.toList
  | .string value => '\'' :: Text.encodeString value.toList ++ ['\'']
  | .hole => "<error>".toList

/-- The glyph that an infix operator is written with. -/
def ofInfix (op : InfixOperator) : Glyph :=
  match op.spelling with
  | .inl word => .keyword word
  | .inr sign => .operator sign

/-- The text of a run of glyphs. -/
def textOf (glyphs : List Glyph) : String :=
  String.ofList (glyphs.flatMap chars)

/-- Runs of glyphs with `between` between each two of them. -/
def joined (between : List Glyph) : List (List Glyph) → List Glyph
  | [] => []
  | [run] => run
  | run :: runs => run ++ between ++ joined between runs

/-- Runs of glyphs with a comma and a space between each two of them. -/
def separated (runs : List (List Glyph)) : List Glyph :=
  joined [.mark .comma, .space] runs

/-- Labels, each behind a colon. -/
def labels (names : List String) : List Glyph :=
  names.flatMap fun n => [.mark .colon, .symbol n]

/-- The parts of a name with a point between each two of them. -/
def dotted (parts : List String) : List Glyph :=
  joined [.mark .dot] (parts.map fun part => [.symbol part])

/-- A run of glyphs behind a space and a keyword. -/
def after (word : Keyword) (run : List Glyph) : List Glyph :=
  .space :: .keyword word :: .space :: run

/-- The name given to something, if there is one, behind `AS`. -/
def named : Option String → List Glyph
  | none => []
  | some n => after .AS [.name n]

end Glyph

end Cypher
