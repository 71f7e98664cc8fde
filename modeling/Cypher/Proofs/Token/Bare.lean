import Cypher.Glyph
import Cypher.Proofs.Tree.Erase

/-!
# Tokens without a place

The grammar looks at a token's kind, and at its text where a reserved word
serves as a name. `Token.bare` keeps just that. The tokens that a glyph is
read as are known in this form before any text is written: a space is
none, a name that needs grave accents is an identifier like any other, and
a symbol that spells a reserved word is that word with the symbol for text.
-/

namespace Cypher

namespace Token

/-- A token of this kind that stands nowhere. -/
def ofKind (kind : Kind) (text : String := "") : Token := ⟨kind, .nowhere, 0, text⟩

/-- The token without its place, and without its text unless it is a
reserved word. -/
def bare (t : Token) : Token :=
  match t.kind with
  | .keyword word => ofKind (.keyword word) t.text
  | kind => ofKind kind

@[simp] theorem kind_bare (t : Token) : t.bare.kind = t.kind := by
  unfold bare
  split
  · next h => exact h.symm
  · rfl

@[simp] theorem symbolicName?_bare (t : Token) :
    t.bare.symbolicName? = t.symbolicName? := by
  unfold bare symbolicName?
  cases t.kind <;> rfl

@[simp] theorem kind_ofKind (kind : Kind) (text : String) :
    (ofKind kind text).kind = kind := rfl

end Token

namespace Glyph

/-- The token that a name is where reserved words are names too. -/
def symbolToken (name : String) : Token :=
  match Keyword.ofName? name with
  | some word => .ofKind (.keyword word) name
  | none => .ofKind (.identifier name)

/-- The kind of a number, told from its digits. -/
def numberKind (digits : String) : Token.Kind :=
  if '.' ∈ digits.toList then .float digits else .integer digits

/-- The token that a glyph is read as, if it is one. -/
def token? : Glyph → Option Token
  | .space | .hole => none
  | .keyword word => some (.ofKind (.keyword word) word.text)
  | .operator op => some (.ofKind (.operator op))
  | .mark m => some (.ofKind (.punctuation m))
  | .name n => some (.ofKind (.identifier n))
  | .symbol n => some (symbolToken n)
  | .parameter n => some (.ofKind (.parameter n))
  | .number digits => some (.ofKind (numberKind digits))
  | .string value => some (.ofKind (.string value))

/-- The tokens that a run of glyphs is read as. -/
def tokens (glyphs : List Glyph) : List Token := glyphs.filterMap token?

@[simp] theorem tokens_nil : tokens [] = [] := rfl

@[simp] theorem tokens_append (xs ys : List Glyph) :
    tokens (xs ++ ys) = tokens xs ++ tokens ys :=
  List.filterMap_append

theorem tokens_cons (g : Glyph) (gs : List Glyph) :
    tokens (g :: gs) = g.token?.toList ++ tokens gs := by
  unfold tokens
  rw [List.filterMap_cons]
  cases g.token? <;> rfl

@[simp] theorem symbolicName?_symbolToken (name : String) :
    (symbolToken name).symbolicName? = some name := by
  unfold symbolToken
  split <;> rfl

end Glyph

end Cypher
