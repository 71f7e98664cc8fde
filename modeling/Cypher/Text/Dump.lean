/-!
# Indented dumps

A dump shows a value with all its parts, one to a line and indented by
their depth: records with their fields, groups with their items in
parentheses, and lists in brackets. A part is followed by a comma; only an
empty list stays on its line.
-/

namespace Cypher.Text

/-- A value to be dumped. -/
inductive Dump
  | word (text : String)
  | record (name : String) (fields : List (String × Dump))
  | group (name : String) (items : List Dump)
  | list (items : List Dump)

namespace Dump

/-- The hexadecimal digits of a number, in lower case. -/
def hex (n : Nat) : List Char := Nat.toDigits 16 n

/-- A character as it stands in a quoted word. Control characters are
named by a letter or by their number. -/
def quotedChar (c : Char) : List Char :=
  match c with
  | '"' => ['\\', '"']
  | '\\' => ['\\', '\\']
  | '\n' => ['\\', 'n']
  | '\r' => ['\\', 'r']
  | '\t' => ['\\', 't']
  | '\x00' => ['\\', '0']
  | c =>
    if c.toNat < 0x20 ∨ (0x7F ≤ c.toNat ∧ c.toNat < 0xA0) then
      ['\\', 'u', '{'] ++ hex c.toNat ++ ['}']
    else [c]

/-- A text in double quotes. -/
def quoted (text : String) : Dump :=
  .word (String.ofList ('"' :: text.toList.flatMap quotedChar ++ ['"']))

/-- A number in decimal digits. -/
def number (n : Nat) : Dump := .word (toString n)

/-- A truth value in lower case. -/
def boolean (b : Bool) : Dump := .word (if b then "true" else "false")

/-- An optional part. -/
def option : Option Dump → Dump
  | none => .word "None"
  | some d => .group "Some" [d]

/-- The start of a line at an indentation. -/
def newLine (indent : Nat) : String := "\n" ++ "".pushn ' ' indent

mutual

/-- The text of a dump whose lines are indented by `indent`, the first
line excepted. -/
def render (indent : Nat) : Dump → String
  | .word text => text
  | .record name fields =>
    name ++ " \x7b" ++ renderFields (indent + 4) fields ++ newLine indent ++ "\x7d"
  | .group name items =>
    name ++ "(" ++ renderItems (indent + 4) items ++ newLine indent ++ ")"
  | .list [] => "[]"
  | .list (item :: items) =>
    "[" ++ renderItems (indent + 4) (item :: items) ++ newLine indent ++ "]"

def renderFields (indent : Nat) : List (String × Dump) → String
  | [] => ""
  | (name, value) :: rest =>
    newLine indent ++ name ++ ": " ++ render indent value ++ ","
      ++ renderFields indent rest

def renderItems (indent : Nat) : List Dump → String
  | [] => ""
  | item :: rest =>
    newLine indent ++ render indent item ++ "," ++ renderItems indent rest

end

/-- The text of a dump. -/
def text (d : Dump) : String := d.render 0

end Dump

end Cypher.Text
