import Cypher.Proofs.Token.Tree
import Cypher.Tree.Layout

/-!
# The tokens of a query

The tokens of clauses and of whole queries, part by part.
-/

namespace Cypher

def SetItem.tokens (i : SetItem) : List Token := Glyph.tokens i.glyphs

def RemoveItem.tokens (i : RemoveItem) : List Token := Glyph.tokens i.glyphs

def MergeAction.tokens (a : MergeAction) : List Token := Glyph.tokens a.glyphs

def ProjectionItem.tokens (i : ProjectionItem) : List Token := Glyph.tokens i.glyphs

def Projection.tokens (p : Projection) : List Token := Glyph.tokens p.glyphs

def SortItem.tokens (i : SortItem) : List Token := Glyph.tokens i.glyphs

def YieldItem.tokens (i : YieldItem) : List Token := Glyph.tokens i.glyphs

def Clause.tokens (c : Clause) : List Token := Glyph.tokens c.glyphs

def SingleQuery.tokens (q : SingleQuery) : List Token := Glyph.tokens q.glyphs

def QueryBody.tokens (b : QueryBody) : List Token := Glyph.tokens b.glyphs

def Query.tokens (q : Query) : List Token := Glyph.tokens q.glyphs

/-- The tokens of runs of glyphs with commas between them. -/
theorem tokens_separated_map {α : Type} (f : α → List Glyph) (as : List α) :
    Glyph.tokens (Glyph.separated (as.map f))
      = commaTokens (as.map fun a => Glyph.tokens (f a)) := by
  rw [tokens_separated, List.map_map]
  rfl

/-! ## Items -/

/-- The sign of an assignment. -/
def Assignment.token : Assignment → Token
  | .replace => .ofKind (.operator .eq)
  | .extend => .ofKind (.operator .plusEq)

/-- The tokens of a property of a variable. -/
def PropertyPath.tokens (p : PropertyPath) : List Token :=
  [.ofKind (.identifier p.name), .ofKind (.punctuation .dot), Glyph.symbolToken p.key]

/-- A name given behind `AS`, if there is one. -/
def aliasTokens : Option String → List Token
  | none => []
  | some n => [Keyword.AS.token, .ofKind (.identifier n)]

theorem SetItem.tokens_property (target : PropertyPath) (how : Assignment)
    (e : Expression) (s : Span) :
    (SetItem.property target how e s).tokens = target.tokens ++ how.token :: e.tokens := by
  rw [SetItem.tokens, SetItem.glyphs, Glyph.tokens_append, Glyph.tokens_append]
  cases how <;> rfl

theorem SetItem.tokens_variable (n : String) (how : Assignment) (e : Expression)
    (s : Span) :
    (SetItem.variable n how e s).tokens
      = .ofKind (.identifier n) :: how.token :: e.tokens := by
  rw [SetItem.tokens, SetItem.glyphs, Glyph.tokens_append]
  cases how <;> rfl

theorem SetItem.tokens_labels (n : String) (names : List String) (s : Span) :
    (SetItem.labels n names s).tokens = .ofKind (.identifier n) :: labelTokens names := by
  rw [SetItem.tokens, SetItem.glyphs, Glyph.tokens_cons, Cypher.tokens_labels]
  rfl

theorem RemoveItem.tokens_labels (n : String) (names : List String) (s : Span) :
    (RemoveItem.labels n names s).tokens = .ofKind (.identifier n) :: labelTokens names := by
  rw [RemoveItem.tokens, RemoveItem.glyphs, Glyph.tokens_cons, Cypher.tokens_labels]
  rfl

/-- The word of the event that an action waits for. -/
def MergeTrigger.word : MergeTrigger → Keyword
  | .onCreate => .CREATE
  | .onMatch => .MATCH

theorem MergeAction.tokens_eq (a : MergeAction) :
    a.tokens = Keyword.ON.token :: a.trigger.word.token :: Keyword.SET.token
      :: commaTokens (a.items.map SetItem.tokens) := by
  obtain ⟨trigger, items, s⟩ := a
  simp only [tokens, glyphs, Glyph.after, Glyph.tokens_append, Glyph.tokens_cons,
    tokens_separated_map]
  cases trigger <;> rfl

theorem tokens_named (n : Option String) :
    Glyph.tokens (Glyph.named n) = aliasTokens n := by
  cases n <;> rfl

theorem ProjectionItem.tokens_expression (e : Expression) (n : Option String) (s : Span) :
    (ProjectionItem.expression e n s).tokens = e.tokens ++ aliasTokens n := by
  rw [tokens, glyphs, Glyph.tokens_append, tokens_named]
  rfl

theorem Projection.tokens_mk (distinct : Bool) (items : List ProjectionItem) (s : Span) :
    Projection.tokens ⟨distinct, items, s⟩
      = (if distinct then [Keyword.DISTINCT.token] else [])
        ++ commaTokens (items.map ProjectionItem.tokens) := by
  rw [tokens, glyphs, Glyph.tokens_append, tokens_separated_map]
  cases distinct <;> rfl

/-- The word of a direction, if it is said. -/
def SortDirection.tokens : SortDirection → List Token
  | .ascending => []
  | .descending => [Keyword.DESC.token]

theorem SortItem.tokens_mk (e : Expression) (dir : SortDirection) (s : Span) :
    SortItem.tokens ⟨e, dir, s⟩ = e.tokens ++ dir.tokens := by
  cases dir with
  | ascending => exact (List.append_nil _).symm
  | descending =>
    rw [tokens, glyphs, Glyph.tokens_append]
    rfl

theorem YieldItem.tokens_mk (field : String) (n : Option String) (s : Span) :
    YieldItem.tokens ⟨field, n, s⟩ = .ofKind (.identifier field) :: aliasTokens n := by
  rw [tokens, glyphs, Glyph.tokens_cons, tokens_named]
  rfl

/-! ## Clauses -/

/-- The words of a match before `MATCH`. -/
def MatchKind.tokens : MatchKind → List Token
  | .regular => []
  | .optional => [Keyword.OPTIONAL.token]
  | .mandatory => [Keyword.MANDATORY.token]

/-- The arguments of a procedure, if it is called with any list of them. -/
def argumentTokens : Option (List Expression) → List Token
  | none => []
  | some es =>
    .ofKind (.punctuation .lparen)
      :: (commaTokens (es.map Expression.tokens) ++ [.ofKind (.punctuation .rparen)])

/-- The fields asked of a procedure, if any are. -/
def yieldTokens : Option (List YieldItem) → List Token
  | none => []
  | some fields => Keyword.YIELD.token :: commaTokens (fields.map YieldItem.tokens)

/-- The tokens of a clause, part by part. -/
theorem Clause.tokens_eq (c : Clause) :
    c.tokens = match c with
      | .matchPatterns kind ps filter _ =>
        kind.tokens ++ Keyword.MATCH.token :: (commaTokens (ps.map Pattern.tokens)
          ++ behindTokens [Keyword.WHERE.token] filter)
      | .create ps _ => Keyword.CREATE.token :: commaTokens (ps.map Pattern.tokens)
      | .merge ps actions _ =>
        Keyword.MERGE.token :: (commaTokens (ps.map Pattern.tokens)
          ++ actions.flatMap MergeAction.tokens)
      | .set items _ => Keyword.SET.token :: commaTokens (items.map SetItem.tokens)
      | .delete detach es _ =>
        (if detach then [Keyword.DETACH.token] else [])
          ++ Keyword.DELETE.token :: commaTokens (es.map Expression.tokens)
      | .remove items _ => Keyword.REMOVE.token :: commaTokens (items.map RemoveItem.tokens)
      | .withProjection p filter _ =>
        Keyword.WITH.token :: (p.tokens ++ behindTokens [Keyword.WHERE.token] filter)
      | .unwind e n _ =>
        Keyword.UNWIND.token :: (e.tokens ++ [Keyword.AS.token, .ofKind (.identifier n)])
      | .returnProjection p _ => Keyword.RETURN.token :: p.tokens
      | .orderBy items _ =>
        Keyword.ORDER.token :: Keyword.BY.token :: commaTokens (items.map SortItem.tokens)
      | .skip e _ => Keyword.SKIP.token :: e.tokens
      | .limit e _ => Keyword.LIMIT.token :: e.tokens
      | .call procedure arguments fields filter _ =>
        Keyword.CALL.token :: (dottedTokens procedure ++ (argumentTokens arguments
          ++ (yieldTokens fields ++ behindTokens [Keyword.WHERE.token] filter))) := by
  cases c with
  | matchPatterns kind ps filter s =>
    simp only [tokens, glyphs, List.append_assoc, Glyph.tokens_append, List.cons_append,
      Glyph.tokens_cons, tokens_separated_map, tokens_option]
    cases kind <;> rfl
  | create | set | remove | orderBy =>
    simp only [tokens, glyphs, Glyph.tokens_cons, tokens_separated_map]
    rfl
  | merge ps actions s =>
    have hactions : Glyph.tokens (actions.flatMap MergeAction.glyphs)
        = actions.flatMap MergeAction.tokens := by
      induction actions with
      | nil => rfl
      | cons a as ih =>
        rw [List.flatMap_cons, Glyph.tokens_append, ih, List.flatMap_cons]
        rfl
    simp only [tokens, glyphs, Glyph.tokens_append, List.cons_append, Glyph.tokens_cons,
      tokens_separated_map, hactions]
    rfl
  | delete detach es s =>
    simp only [tokens, glyphs, Glyph.tokens_append, Glyph.tokens_cons, tokens_separated_map]
    cases detach <;> rfl
  | withProjection =>
    simp only [tokens, glyphs, Glyph.tokens_append, List.cons_append, Glyph.tokens_cons,
      tokens_option]
    rfl
  | unwind e n s =>
    simp only [tokens, glyphs, Glyph.after, Glyph.tokens_append, List.cons_append,
      Glyph.tokens_cons]
    rfl
  | returnProjection | skip | limit => rfl
  | call procedure arguments fields filter s =>
    simp only [tokens, glyphs, List.append_assoc, Glyph.tokens_append, List.cons_append,
      Glyph.tokens_cons, tokens_dotted, tokens_option]
    cases arguments <;> cases fields <;>
      simp only [argumentTokens, yieldTokens, Glyph.after, Glyph.tokens_append,
        List.cons_append, Glyph.tokens_cons, tokens_separated_map] <;> rfl

/-! ## Queries -/

theorem SingleQuery.tokens_mk (clauses : List Clause) (s : Span) :
    SingleQuery.tokens ⟨clauses, s⟩ = clauses.flatMap Clause.tokens := by
  unfold tokens glyphs
  induction clauses with
  | nil => rfl
  | cons c cs ih =>
    cases cs with
    | nil => exact (List.append_nil _).symm
    | cons c' cs =>
      rw [List.flatMap_cons, ← ih, List.map_cons, List.map_cons, Glyph.joined,
        Glyph.tokens_append, Glyph.tokens_append, List.append_assoc]
      · rfl
      · simp

/-- The word before the right side of a union that keeps everything. -/
def allTokens (all : Bool) : List Token := if all then [Keyword.ALL.token] else []

theorem QueryBody.tokens_union (all : Bool) (left : QueryBody) (right : SingleQuery)
    (s : Span) :
    (QueryBody.union all left right s).tokens
      = left.tokens ++ Keyword.UNION.token :: (allTokens all ++ right.tokens) := by
  simp only [tokens, glyphs, Glyph.tokens_append, Glyph.tokens_cons, List.append_assoc]
  cases all <;> rfl

theorem Query.tokens_mk (version : Option String) (body : QueryBody) (s : Span) :
    Query.tokens ⟨version, body, s⟩
      = (version.toList.flatMap fun v =>
          [Keyword.CYPHER.token, .ofKind (Glyph.numberKind v)]) ++ body.tokens := by
  cases version <;> rfl

end Cypher
