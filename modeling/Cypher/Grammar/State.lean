import Cypher.Fault

/-!
# Reading a token list

A parser of a production reads tokens from the front of what is ahead. It
answers what it read, or stops with a fault; either way it hands on the
state it has come to, because the faults it got over stay on record.

**Repetition is bounded by the input.** A loop may run once for each token
ahead and once more. Every round but the last consumes a token, so no loop
is cut short by that bound, and none needs a termination proof.
-/

namespace Cypher.Grammar

/-- How deep a query may nest, and whether to go on past an operand that
cannot be read. -/
structure Config where
  maxDepth : Nat := 256
  recover : Bool := true
  deriving DecidableEq

/-- How far the reading has come. Past the last token there is the end of
the text, again and again. -/
structure State where
  /-- The token consumed last. -/
  previous : Option Token := none
  ahead : List Token
  eof : Token
  /-- The number of expressions entered and not left. -/
  depth : Nat := 0
  /-- The faults got over, in order. -/
  faults : List Fault := []

namespace State

/-- The token due next. -/
def current (s : State) : Token := s.ahead.headD s.eof

/-- Consumes a token. At the end there is none to consume. -/
def advance (s : State) : State :=
  match s.ahead with
  | [] => s
  | t :: rest => { s with previous := some t, ahead := rest }

/-- Consumes `n` tokens. -/
def advanceBy : Nat → State → State
  | 0, s => s
  | n + 1, s => s.advance.advanceBy n

/-- Reading on forgets no fault and finds none. -/
theorem faults_advance (s : State) : s.advance.faults = s.faults := by
  unfold advance
  split <;> rfl

theorem faults_advanceBy (n : Nat) (s : State) : (s.advanceBy n).faults = s.faults := by
  induction n generalizing s with
  | zero => rfl
  | succ n ih => rw [advanceBy, ih, faults_advance]

/-- Where the token consumed last stops; before the first, where the
first token stops. -/
def stop (s : State) : Nat := (s.previous.getD s.current).span.stop

end State

/-- A parser of one production. -/
abbrev Parser := EStateM Fault State

/-! ## Tokens -/

/-- The token due next, which is not consumed. -/
def current : Parser Token := fun s => .ok s.current s

/-- The tokens ahead, none of which is consumed. -/
def lookAhead : Parser (List Token) := fun s => .ok s.ahead s

/-- Reads the current token, whatever it is. At the end nothing changes. -/
def advance : Parser Unit := fun s => .ok () s.advance

/-- Stops with a fault at the token due next. -/
def fail (cause : Cause) : Parser α := fun s => .error ⟨cause, s.current.site⟩ s

/-- Whether a token of this kind is due; consumes it if it is. -/
def consume (kind : Token.Kind) : Parser Bool := fun s =>
  if s.current.kind = kind then .ok true s.advance else .ok false s

/-- Consumes a token of this kind, which must be due. -/
def expect (kind : Token.Kind) : Parser Unit := fun s =>
  if s.current.kind = kind then .ok () s.advance
  else fail (.expected (.token kind)) s

/-- Where the token due next starts. -/
def start : Parser Nat := fun s => .ok s.current.span.start s

/-- The span from `start` to where the token consumed last stops. -/
def spanFrom (start : Nat) : Parser Span := fun s =>
  .ok ⟨start, max s.stop start⟩ s

/-! ## Names -/

/-- Reads a variable or alias, which is an identifier and no bare
reserved word. -/
def variableName (role : VariableRole) : Parser String := fun s =>
  match s.current.kind with
  | .identifier name => .ok name s.advance
  | kind => fail (.expected (.variable role kind.isKeyword)) s

/-- Reads a variable if one is due. -/
def optionalVariable : Parser (Option String) := fun s =>
  match s.current.kind with
  | .identifier name => .ok (some name) s.advance
  | _ => .ok none s

/-- Reads a name where reserved words are names too. -/
def symbolicName (role : NameRole) : Parser String := fun s =>
  match s.current.symbolicName? with
  | some name => .ok name s.advance
  | none => fail (.expected (.name role)) s

/-! ## Repetition -/

/-- Runs `step` until it answers nothing, at most `n` times. -/
def manyUpTo (step : Parser (Option α)) : Nat → Parser (List α)
  | 0 => pure []
  | n + 1 => do
    match ← step with
    | none => return []
    | some a => return a :: (← manyUpTo step n)

/-- Runs `step` until it answers nothing. -/
def many (step : Parser (Option α)) : Parser (List α) := do
  manyUpTo step ((← lookAhead).length + 1)

/-- Runs `step` from `a` on until it is done, at most `n` times. -/
def iterateUpTo (step : α → Parser (ForInStep α)) : Nat → α → Parser α
  | 0, a => pure a
  | n + 1, a => do
    match ← step a with
    | .done b => return b
    | .yield b => iterateUpTo step n b

/-- Runs `step` from `a` on until it is done. -/
def iterate (step : α → Parser (ForInStep α)) (a : α) : Parser α := do
  iterateUpTo step ((← lookAhead).length + 1) a

/-- Runs `item` if a token of this kind is due, which is consumed. -/
def behind (kind : Token.Kind) (item : Parser α) : Parser (Option α) := do
  if ← consume kind then return some (← item) else return none

/-- Runs `item` unless a token of this kind is due, which is left. -/
def unlessDue (kind : Token.Kind) (item : Parser α) : Parser (Option α) := do
  let t ← current
  if t.kind = kind then return none else return some (← item)

/-- One or more items with a comma between each two of them. -/
def commaSeparated (item : Parser α) : Parser (List α) := do
  let first ← item
  return first :: (← many (behind (.punctuation .comma) item))

/-- Items with a comma between each two of them, up to a token of the
kind `close`, which is left. There are none if it is due at once. -/
def commaSeparatedUntil (close : Token.Kind) (item : Parser α) : Parser (List α) := do
  return (← unlessDue close (commaSeparated item)).getD []

/-- One or more labels, each behind a colon. -/
def labelList : Parser (List String) := do
  let labels ← many (behind (.punctuation .colon) (symbolicName .label))
  if labels.isEmpty then fail (.unexpected .noLabel) else return labels

/-! ## Nesting -/

/-- Stops because the query nests too deep. -/
def tooDeep (config : Config) : Parser α := fail (.nestingTooDeep config.maxDepth)

/-- Runs a parser one level deeper, if there is a level left. -/
def nested (config : Config) (p : Parser α) : Parser α := fun s =>
  if s.depth < config.maxDepth then
    match p { s with depth := s.depth + 1 } with
    | .ok a s' => .ok a { s' with depth := s'.depth - 1 }
    | .error fault s' => .error fault { s' with depth := s'.depth - 1 }
  else tooDeep config s

/-- Refuses a tree that is higher than the nesting limit. -/
def checkHeight (config : Config) (height : Nat) : Parser Unit :=
  if height ≤ config.maxDepth then pure () else tooDeep config

end Cypher.Grammar
