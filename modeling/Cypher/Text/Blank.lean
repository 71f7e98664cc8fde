/-!
# Blank characters

The characters with the Unicode property White_Space: the widest reading
of "only white space". It is wider than what separates lexemes in a query
(`Lexeme.separates`), which is five ASCII characters.
-/

namespace Cypher.Text

/-- The ranges of White_Space, lowest first, both ends included. -/
def blankRanges : List (Nat × Nat) :=
  [(0x09, 0x0D), (0x20, 0x20), (0x85, 0x85), (0xA0, 0xA0), (0x1680, 0x1680),
   (0x2000, 0x200A), (0x2028, 0x2029), (0x202F, 0x202F), (0x205F, 0x205F),
   (0x3000, 0x3000)]

/-- Whether a character is blank. -/
def isBlank (c : Char) : Bool :=
  blankRanges.any fun r => r.1 ≤ c.toNat && c.toNat ≤ r.2

end Cypher.Text
