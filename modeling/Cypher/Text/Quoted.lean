/-!
# Quoted text — string bodies and quoted names

Two written forms hold text that the plain forms cannot: a string literal
between quotes and a name between grave accents. Each has a reader of the
part between its delimiters and a writer of that part.

The writers escape only what they must. The readers know more escapes
than the writers use, and a backslash that starts no escape they know
stands for itself, so reading never fails.
-/

namespace Cypher.Text

/-! ## Digits -/

/-- The value of a hexadecimal digit. -/
def hexDigit? (c : Char) : Option Nat :=
  if c.isDigit then some (c.toNat - '0'.toNat)
  else if 'a' ≤ c ∧ c ≤ 'f' then some (c.toNat - 'a'.toNat + 10)
  else if 'A' ≤ c ∧ c ≤ 'F' then some (c.toNat - 'A'.toNat + 10)
  else none

/-- The character whose number is written by four hexadecimal digits. No
character when there are not four of them, or when the number belongs to
the surrogate range. -/
def codePoint? : List Char → Option Char
  | [a, b, c, d] => do
    let n := ((← hexDigit? a) * 16 + (← hexDigit? b)) * 256
      + ((← hexDigit? c) * 16 + (← hexDigit? d))
    if n.isValidChar then some (Char.ofNat n) else none
  | _ => none

/-! ## String bodies -/

/-- The character that a letter after a backslash stands for. -/
def letterEscape? : Char → Option Char
  | 'n' => some '\n'
  | 't' => some '\t'
  | 'r' => some '\r'
  | 'b' => some '\x08'
  | 'f' => some '\x0c'
  | '\'' => some '\''
  | '"' => some '"'
  | '\\' => some '\\'
  | _ => none

/-- What a backslash followed by `rest` stands for, and how many
characters of `rest` belong to the escape. A backslash that starts no
escape stands for itself, together with the character after it. -/
def readEscape (rest : List Char) : List Char × Nat :=
  match rest with
  | [] => (['\\'], 0)
  | 'u' :: digits =>
    match codePoint? (digits.take 4) with
    | some c => ([c], 5)
    | none => (['\\', 'u'], 1)
  | c :: _ =>
    match letterEscape? c with
    | some d => ([d], 1)
    | none => (['\\', c], 1)

/-- The value of the text between a string's quotes. -/
def decodeString : List Char → List Char
  | [] => []
  | c :: rest =>
    if c = '\\' then
      (readEscape rest).1 ++ decodeString (rest.drop (readEscape rest).2)
    else c :: decodeString rest
termination_by cs => cs.length
decreasing_by
  all_goals
    simp only [List.length_cons, List.length_drop]
    omega

/-- The written form of one character of a string. -/
def encodeStringChar : Char → List Char
  | '\'' => ['\\', '\'']
  | '\\' => ['\\', '\\']
  | '\n' => ['\\', 'n']
  | '\t' => ['\\', 't']
  | '\r' => ['\\', 'r']
  | c => [c]

/-- The text to put between single quotes so that it reads as `value`. -/
def encodeString (value : List Char) : List Char :=
  value.flatMap encodeStringChar

/-- What is written as a string reads as that string. -/
theorem decodeString_encodeString (value : List Char) :
    decodeString (encodeString value) = value := by
  induction value with
  | nil => rw [encodeString, List.flatMap_nil, decodeString]
  | cons c cs ih =>
    rw [encodeString, List.flatMap_cons, ← encodeString]
    unfold encodeStringChar
    split <;> simp_all [decodeString, readEscape, letterEscape?]

/-! ## Quoted names -/

/-- The grave accent, which delimits a quoted name. -/
def grave : Char := '\x60'

/-- The value of the text between a name's grave accents: a backslash
hides the accent or the backslash after it, and is otherwise itself. -/
def decodeName : List Char → List Char
  | '\\' :: '\x60' :: rest => '\x60' :: decodeName rest
  | '\\' :: '\\' :: rest => '\\' :: decodeName rest
  | c :: rest => c :: decodeName rest
  | [] => []

/-- The written form of one character of a quoted name. -/
def encodeNameChar (c : Char) : List Char :=
  if c = grave ∨ c = '\\' then ['\\', c] else [c]

/-- The text to put between grave accents so that it reads as `name`. -/
def encodeName (name : List Char) : List Char :=
  name.flatMap encodeNameChar

/-- What is written as a quoted name reads as that name. -/
theorem decodeName_encodeName (name : List Char) :
    decodeName (encodeName name) = name := by
  induction name with
  | nil => rfl
  | cons c cs ih =>
    rw [encodeName, List.flatMap_cons, ← encodeName, encodeNameChar]
    split
    · next hidden =>
      rcases hidden with rfl | rfl <;> simp [decodeName, ih, grave]
    · next plain =>
      rw [List.singleton_append, decodeName, ih]
      · simp_all [grave]
      · simp_all [grave]

end Cypher.Text
