import Cypher.Grammar.Recovery

/-!
# Relations that the grammar passes on

Some facts about a reading hold of every production for one reason: they
hold of the few parsers that consume or refuse a token, and a sequence has
them if its parts have. `Closed` is that reason as a hypothesis, and the
modules behind this one are the induction over the grammar, done once.

It is stated for relations between two parsers, which differ where another
parser of expressions has been put in. A property of one parser is a
relation of the parser to itself.

What a relation has to settle by itself is the getting over of an operand
and the run of operands and operators, where a state of its own is carried
along.
-/

namespace Cypher

/-- A cause that says all it has to say by its site: it is neither a matter of
lexemes nor of two comparisons in a row, and it is never got over. -/
def Cause.Plain : Cause → Prop
  | .expected _ | .unexpected _ | .boundOutOfRange _ | .nestingTooDeep _ => True
  | _ => False

namespace Grammar

/-- The parser consumes at most the token due next, or refuses it. -/
def Steps (p : Parser α) : Prop :=
  ∀ s, (∃ a, p s = .ok a s ∨ p s = .ok a s.advance)
    ∨ ∃ cause : Cause, cause.Plain ∧ p s = .error ⟨cause, s.current.site⟩ s

/-- The relation passes from the parsers of the parts to the parsers of the whole. -/
structure Closed (config : Config) (K : (α : Type) → Parser α → Parser α → Prop) : Prop where
  step : ∀ {α} {p : Parser α}, Steps p → K α p p
  bind : ∀ {α β} {p p' : Parser α} {f f' : α → Parser β}, K α p p' → (∀ a, K β (f a) (f' a)) →
    K β (p >>= f) (p' >>= f')
  nested : ∀ {α} {p p' : Parser α}, K α p p' → K α (nested config p) (nested config p')
  recover : K Expression (recoverExpression config) (recoverExpression config)

/-! ## Single steps -/

namespace Steps

variable {α : Type} {kind : Token.Kind}

theorem pure (a : α) : Steps (pure a : Parser α) := fun _ => .inl ⟨a, .inl rfl⟩

theorem fail {cause : Cause} (h : cause.Plain) : Steps (fail cause : Parser α) :=
  fun _ => .inr ⟨cause, h, rfl⟩

theorem current : Steps current := fun s => .inl ⟨s.current, .inl rfl⟩

theorem lookAhead : Steps lookAhead := fun s => .inl ⟨s.ahead, .inl rfl⟩

theorem advance : Steps advance := fun _ => .inl ⟨(), .inr rfl⟩

theorem start : Steps start := fun s => .inl ⟨s.current.span.start, .inl rfl⟩

theorem spanFrom (begin : Nat) : Steps (spanFrom begin) :=
  fun s => .inl ⟨⟨begin, max s.stop begin⟩, .inl rfl⟩

theorem consume : Steps (consume kind) := by
  intro s
  unfold Grammar.consume
  split
  · exact .inl ⟨true, .inr rfl⟩
  · exact .inl ⟨false, .inl rfl⟩

theorem expect : Steps (expect kind) := by
  intro s
  unfold Grammar.expect
  split
  · exact .inl ⟨(), .inr rfl⟩
  · exact .inr ⟨.expected _, trivial, rfl⟩

theorem variableName {role : VariableRole} : Steps (variableName role) := by
  intro s
  unfold Grammar.variableName
  split
  · exact .inl ⟨_, .inr rfl⟩
  · exact .inr ⟨.expected _, trivial, rfl⟩

theorem optionalVariable : Steps optionalVariable := by
  intro s
  unfold Grammar.optionalVariable
  split
  · exact .inl ⟨_, .inr rfl⟩
  · exact .inl ⟨_, .inl rfl⟩

theorem symbolicName {role : NameRole} : Steps (symbolicName role) := by
  intro s
  unfold Grammar.symbolicName
  split
  · exact .inl ⟨_, .inr rfl⟩
  · exact .inr ⟨.expected _, trivial, rfl⟩

theorem tooDeep {config : Config} : Steps (tooDeep config : Parser α) := fail trivial

theorem checkHeight {config : Config} {height : Nat} : Steps (checkHeight config height) := by
  unfold Grammar.checkHeight
  split
  · exact pure ()
  · exact tooDeep

end Steps

namespace Closed

variable {config : Config} {K : (α : Type) → Parser α → Parser α → Prop} {α β : Type}
  {p p' item item' : Parser α} {kind : Token.Kind}

/-- A sequence whose second part only puts the answer of the first into another shape. -/
theorem map (closed : Closed config K) (h : K α p p') (shape : α → β) :
    K β (p >>= fun a => pure (shape a)) (p' >>= fun a => pure (shape a)) :=
  closed.bind h fun a => closed.step (.pure (shape a))

/-- A sequence that starts with a single step. -/
theorem next (closed : Closed config K) {f f' : α → Parser β} (hp : Steps p)
    (hf : ∀ a, K β (f a) (f' a)) : K β (p >>= f) (p >>= f') :=
  closed.bind (closed.step hp) hf

/-- The end of a production, which puts its span into the answer. -/
theorem spanned (closed : Closed config K) (begin : Nat) (shape : Span → α) :
    K α (spanFrom begin >>= fun s => pure (shape s))
      (spanFrom begin >>= fun s => pure (shape s)) :=
  closed.map (closed.step (.spanFrom begin)) shape

/-! ## Repetition -/

theorem many (closed : Closed config K) {step step' : Parser (Option α)}
    (h : K _ step step') : K _ (many step) (many step') := by
  have hrounds (n : Nat) : K _ (manyUpTo step n) (manyUpTo step' n) := by
    induction n with
    | zero => exact closed.step (.pure [])
    | succ n ih =>
      unfold manyUpTo
      apply closed.bind h
      intro o
      cases o with
      | none => exact closed.step (.pure [])
      | some a => exact closed.map ih _
  unfold Grammar.many
  exact closed.next .lookAhead fun ahead => hrounds _

theorem iterate (closed : Closed config K) {step step' : α → Parser (ForInStep α)}
    (h : ∀ a, K _ (step a) (step' a)) (a : α) : K _ (iterate step a) (iterate step' a) := by
  have hrounds (n : Nat) (a : α) : K _ (iterateUpTo step n a) (iterateUpTo step' n a) := by
    induction n generalizing a with
    | zero => exact closed.step (.pure a)
    | succ n ih =>
      unfold iterateUpTo
      apply closed.bind (h a)
      intro r
      cases r with
      | done b => exact closed.step (.pure b)
      | yield b => exact ih b
  unfold Grammar.iterate
  exact closed.next .lookAhead fun ahead => hrounds _ a

theorem behind (closed : Closed config K) (h : K α p p') :
    K _ (behind kind p) (behind kind p') := by
  unfold Grammar.behind
  apply closed.next .consume
  intro due
  split
  · exact closed.map h _
  · exact closed.step (.pure none)

theorem unlessDue (closed : Closed config K) (h : K α p p') :
    K _ (unlessDue kind p) (unlessDue kind p') := by
  unfold Grammar.unlessDue
  apply closed.next .current
  intro t
  split
  · exact closed.step (.pure none)
  · exact closed.map h _

theorem commaSeparated (closed : Closed config K) (h : K α item item') :
    K _ (commaSeparated item) (commaSeparated item') := by
  unfold Grammar.commaSeparated
  exact closed.bind h fun first => closed.map (closed.many (closed.behind h)) _

theorem commaSeparatedUntil (closed : Closed config K) (h : K α item item') :
    K _ (commaSeparatedUntil kind item) (commaSeparatedUntil kind item') :=
  closed.map (closed.unlessDue (closed.commaSeparated h)) _

theorem labelList (closed : Closed config K) : K _ labelList labelList := by
  unfold Grammar.labelList
  apply closed.bind (closed.many (closed.behind (closed.step .symbolicName)))
  intro labels
  split
  · exact closed.step (.fail trivial)
  · exact closed.step (.pure labels)

end Closed

end Grammar

end Cypher
