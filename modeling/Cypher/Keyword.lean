/-!
# Reserved words

The words a query cannot use as a variable without quoting them. They are
recognised whatever the case of their ASCII letters, and written in upper
case; a constructor is named by its written form.
-/

namespace Cypher

/-- A reserved word. -/
inductive Keyword
  | MATCH | OPTIONAL | MANDATORY | CREATE | MERGE | SET | DELETE | DETACH | REMOVE
  | WITH | UNWIND | RETURN | UNION | CALL | YIELD | WHERE | ORDER | BY | SKIP | LIMIT
  | ON | CYPHER
  | ASC | ASCENDING | DESC | DESCENDING | DISTINCT | AS | ALL
  | CASE | WHEN | THEN | ELSE | END
  | AND | OR | XOR | NOT | IN | IS | CONTAINS | STARTS | ENDS | EXISTS
  | TRUE | FALSE | NULL
  | ADD | CONSTRAINT | DO | DROP | FOR | OF | REQUIRE | SCALAR | UNIQUE
  deriving DecidableEq

namespace Keyword

/-- Every reserved word, each once. -/
def all : List Keyword :=
  [.MATCH, .OPTIONAL, .MANDATORY, .CREATE, .MERGE, .SET, .DELETE, .DETACH, .REMOVE,
   .WITH, .UNWIND, .RETURN, .UNION, .CALL, .YIELD, .WHERE, .ORDER, .BY, .SKIP, .LIMIT,
   .ON, .CYPHER, .ASC, .ASCENDING, .DESC, .DESCENDING, .DISTINCT, .AS, .ALL, .CASE,
   .WHEN, .THEN, .ELSE, .END, .AND, .OR, .XOR, .NOT, .IN, .IS, .CONTAINS, .STARTS,
   .ENDS, .EXISTS, .TRUE, .FALSE, .NULL, .ADD, .CONSTRAINT, .DO, .DROP, .FOR, .OF,
   .REQUIRE, .SCALAR, .UNIQUE]

/-- The list of all reserved words leaves none out. -/
theorem mem_all (k : Keyword) : k ∈ all := by
  cases k <;> decide

/-- The canonical spelling, in upper case. -/
def text : Keyword → String
  | .MATCH => "MATCH"
  | .OPTIONAL => "OPTIONAL"
  | .MANDATORY => "MANDATORY"
  | .CREATE => "CREATE"
  | .MERGE => "MERGE"
  | .SET => "SET"
  | .DELETE => "DELETE"
  | .DETACH => "DETACH"
  | .REMOVE => "REMOVE"
  | .WITH => "WITH"
  | .UNWIND => "UNWIND"
  | .RETURN => "RETURN"
  | .UNION => "UNION"
  | .CALL => "CALL"
  | .YIELD => "YIELD"
  | .WHERE => "WHERE"
  | .ORDER => "ORDER"
  | .BY => "BY"
  | .SKIP => "SKIP"
  | .LIMIT => "LIMIT"
  | .ON => "ON"
  | .CYPHER => "CYPHER"
  | .ASC => "ASC"
  | .ASCENDING => "ASCENDING"
  | .DESC => "DESC"
  | .DESCENDING => "DESCENDING"
  | .DISTINCT => "DISTINCT"
  | .AS => "AS"
  | .ALL => "ALL"
  | .CASE => "CASE"
  | .WHEN => "WHEN"
  | .THEN => "THEN"
  | .ELSE => "ELSE"
  | .END => "END"
  | .AND => "AND"
  | .OR => "OR"
  | .XOR => "XOR"
  | .NOT => "NOT"
  | .IN => "IN"
  | .IS => "IS"
  | .CONTAINS => "CONTAINS"
  | .STARTS => "STARTS"
  | .ENDS => "ENDS"
  | .EXISTS => "EXISTS"
  | .TRUE => "TRUE"
  | .FALSE => "FALSE"
  | .NULL => "NULL"
  | .ADD => "ADD"
  | .CONSTRAINT => "CONSTRAINT"
  | .DO => "DO"
  | .DROP => "DROP"
  | .FOR => "FOR"
  | .OF => "OF"
  | .REQUIRE => "REQUIRE"
  | .SCALAR => "SCALAR"
  | .UNIQUE => "UNIQUE"

/-- The reserved word that `letters` spell in any ASCII case. -/
def ofLetters? (letters : List Char) : Option Keyword :=
  all.find? fun k => k.text.toList = letters.map Char.toUpper

/-- The reserved word that a name spells in any ASCII case. -/
def ofName? (name : String) : Option Keyword := ofLetters? name.toList

/-- The words a clause may begin with, and `UNION`, which ends one. -/
def startsClause : Keyword → Bool
  | .MATCH | .OPTIONAL | .MANDATORY | .CREATE | .MERGE | .SET | .DELETE | .DETACH
  | .REMOVE | .WITH | .UNWIND | .RETURN | .CALL | .ORDER | .SKIP | .LIMIT | .UNION => true
  | _ => false

end Keyword

end Cypher
