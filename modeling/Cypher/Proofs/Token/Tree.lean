import Cypher.Proofs.Token.Bare
import Cypher.Proofs.Tree.Glyphs

/-!
# The tokens of a tree

A tree is written as glyphs, and its glyphs are read as tokens: that gives
every tree the tokens that a reader of its canonical text will meet. The
spaces of the layout are no tokens, so the tokens of a tree are simpler
than its glyphs.
-/

namespace Cypher

def Expression.tokens (e : Expression) : List Token := Glyph.tokens e.glyphs

def MapEntry.tokens (e : MapEntry) : List Token := Glyph.tokens e.glyphs

def NodePattern.tokens (n : NodePattern) : List Token := Glyph.tokens n.glyphs

def RelationshipPattern.tokens (r : RelationshipPattern) : List Token :=
  Glyph.tokens r.glyphs

def Link.tokens (l : Link) : List Token := Glyph.tokens l.glyphs

def Pattern.tokens (p : Pattern) : List Token := Glyph.tokens p.glyphs

/-- The tokens of labels, a colon before each. -/
def labelTokens (names : List String) : List Token :=
  names.flatMap fun n => [.ofKind (.punctuation .colon), Glyph.symbolToken n]

theorem tokens_labels (names : List String) :
    Glyph.tokens (Glyph.labels names) = labelTokens names := by
  unfold labelTokens
  induction names with
  | nil => rfl
  | cons n names ih =>
    rw [Glyph.labels, List.flatMap_cons, Glyph.tokens_append, List.flatMap_cons, ← ih]
    rfl

/-- A space between two runs is no token. -/
theorem tokens_spaced (left right : List Glyph) :
    Glyph.tokens (spaced left right) = Glyph.tokens left ++ Glyph.tokens right := by
  unfold spaced
  split
  · exact Glyph.tokens_append _ _
  · rw [Glyph.tokens_append, Glyph.tokens_cons]
    rfl

/-- The brackets around an empty run are left out, and others are not. -/
theorem tokens_bracketed (run : List Glyph) :
    Glyph.tokens (bracketed run) =
      if run = [] then []
      else .ofKind (.punctuation .lbracket)
        :: (Glyph.tokens run ++ [.ofKind (.punctuation .rbracket)]) := by
  unfold bracketed
  cases run with
  | nil => rfl
  | cons g gs =>
    simp [Glyph.tokens_cons, Glyph.token?]

/-- Runs of tokens with a comma between each two of them. -/
def commaTokens : List (List Token) → List Token
  | [] => []
  | run :: runs => run ++ runs.flatMap (Token.ofKind (.punctuation .comma) :: ·)

theorem tokens_separated (runs : List (List Glyph)) :
    Glyph.tokens (Glyph.separated runs) = commaTokens (runs.map Glyph.tokens) := by
  unfold Glyph.separated
  induction runs with
  | nil => rfl
  | cons run runs ih =>
    cases runs with
    | nil => simp [Glyph.joined, commaTokens]
    | cons next runs =>
      rw [Glyph.joined, Glyph.tokens_append, Glyph.tokens_append, ih]
      simp [commaTokens, Glyph.tokens_cons, Glyph.token?]
      intro h
      cases h

/-! ## Expressions, node by node -/

/-- The token that a reserved word is written as. -/
def Keyword.token (word : Keyword) : Token := .ofKind (.keyword word) word.text

@[simp] theorem Keyword.kind_token (word : Keyword) : word.token.kind = .keyword word := rfl

/-- The token of an operator written before its operand. -/
def PrefixOperator.token : PrefixOperator → Token
  | .distinct => Keyword.DISTINCT.token
  | .not => Keyword.NOT.token
  | .negate => .ofKind (.operator .minus)

/-- The token of an operator written between its operands. -/
def InfixOperator.token (op : InfixOperator) : Token :=
  match op.spelling with
  | .inl word => word.token
  | .inr symbol => .ofKind (.operator symbol)

/-- The token of a null check. -/
def nullCheckToken (negated : Bool) : Token :=
  .ofKind (.operator (if negated then .isNotNull else .isNull))

/-- The tokens of an optional part behind those that lead to it. -/
def behindTokens (lead : List Token) : Option Expression → List Token
  | none => []
  | some e => lead ++ e.tokens

/-- The tokens of a dotted name. -/
def dottedTokens : List String → List Token
  | [] => []
  | part :: parts =>
    Glyph.symbolToken part
      :: parts.flatMap fun n => [.ofKind (.punctuation .dot), Glyph.symbolToken n]

theorem tokens_dotted (parts : List String) :
    Glyph.tokens (Glyph.dotted parts) = dottedTokens parts := by
  unfold Glyph.dotted
  induction parts with
  | nil => rfl
  | cons part parts ih =>
    cases parts with
    | nil => rfl
    | cons next parts =>
      rw [List.map_cons] at ih ⊢
      rw [List.map_cons, Glyph.joined, Glyph.tokens_append, Glyph.tokens_append, ih]
      · rfl
      · simp

/-- The tokens of a branch of a case analysis. -/
def CaseBranch.tokens (b : CaseBranch) : List Token :=
  Keyword.WHEN.token :: (b.condition.tokens ++ Keyword.THEN.token :: b.result.tokens)

def MapSelector.tokens (s : MapSelector) : List Token := Glyph.tokens s.glyphs

theorem tokens_option (e : Option Expression) :
    Glyph.tokens (glyphsOption e) = behindTokens [] e
      ∧ Glyph.tokens (glyphsSpaced e) = behindTokens [] e
      ∧ Glyph.tokens (glyphsWhere e) = behindTokens [Keyword.WHERE.token] e
      ∧ Glyph.tokens (glyphsBar e) = behindTokens [.ofKind (.operator .pipe)] e
      ∧ Glyph.tokens (glyphsElse e) = behindTokens [Keyword.ELSE.token] e := by
  cases e <;> exact ⟨rfl, rfl, rfl, rfl, rfl⟩

theorem tokens_branches (bs : List CaseBranch) :
    Glyph.tokens (bs.flatMap CaseBranch.glyphs) = bs.flatMap CaseBranch.tokens := by
  induction bs with
  | nil => rfl
  | cons b bs ih =>
    obtain ⟨c, r, s⟩ := b
    rw [List.flatMap_cons, Glyph.tokens_append, ih, List.flatMap_cons, CaseBranch.glyphs,
      Glyph.tokens_append]
    rfl

/-- The tokens of a map. -/
def mapTokens (entries : List MapEntry) : List Token :=
  .ofKind (.punctuation .lbrace)
    :: (commaTokens (entries.map MapEntry.tokens) ++ [.ofKind (.punctuation .rbrace)])

theorem tokens_map (entries : List MapEntry) :
    Glyph.tokens
      (.mark .lbrace :: Glyph.separated (entries.map MapEntry.glyphs) ++ [.mark .rbrace])
      = mapTokens entries := by
  rw [List.cons_append, Glyph.tokens_cons, Glyph.tokens_append, tokens_separated,
    List.map_map]
  rfl

namespace Expression

variable (e l r : Expression) (es : List Expression) (o o' : Option Expression)
  (n : String) (ns : List String) (p : Pattern) (s : Span)

theorem tokens_property :
    (property e n s).tokens
      = e.tokens ++ [.ofKind (.punctuation .dot), Glyph.symbolToken n] := by
  rw [tokens, glyphs, Glyph.tokens_append]
  rfl

theorem tokens_index :
    (index l r s).tokens
      = l.tokens ++ .ofKind (.punctuation .lbracket)
        :: (r.tokens ++ [.ofKind (.punctuation .rbracket)]) := by
  simp only [tokens, glyphs, List.append_assoc, Glyph.tokens_append, List.cons_append,
    Glyph.tokens_cons]
  rfl

theorem tokens_slice :
    (slice e o o' s).tokens
      = e.tokens ++ .ofKind (.punctuation .lbracket)
        :: (behindTokens [] o ++ .ofKind (.operator .dotDot)
          :: (behindTokens [] o' ++ [.ofKind (.punctuation .rbracket)])) := by
  simp only [tokens, glyphs, List.append_assoc, Glyph.tokens_append, List.cons_append,
    Glyph.tokens_cons, tokens_option]
  rfl

theorem tokens_labelCheck :
    (labelCheck e ns s).tokens = e.tokens ++ labelTokens ns := by
  rw [tokens, glyphs, Glyph.tokens_append, tokens_labels]
  rfl

theorem tokens_list :
    (list es s).tokens
      = .ofKind (.punctuation .lbracket)
        :: (commaTokens (es.map tokens) ++ [.ofKind (.punctuation .rbracket)]) := by
  rw [tokens, glyphs, glyphsList_eq, List.cons_append, Glyph.tokens_cons,
    Glyph.tokens_append, tokens_separated, List.map_map]
  rfl

theorem tokens_listComprehension :
    (listComprehension n e o o' s).tokens
      = .ofKind (.punctuation .lbracket) :: .ofKind (.identifier n) :: Keyword.IN.token
        :: (e.tokens ++ (behindTokens [Keyword.WHERE.token] o
          ++ (behindTokens [.ofKind (.operator .pipe)] o'
            ++ [.ofKind (.punctuation .rbracket)]))) := by
  simp only [tokens, glyphs, Glyph.after, List.append_assoc, Glyph.tokens_append,
    List.cons_append, Glyph.tokens_cons, tokens_option]
  rfl

theorem tokens_patternComprehension :
    (patternComprehension p o e s).tokens
      = .ofKind (.punctuation .lbracket)
        :: (p.tokens ++ (behindTokens [Keyword.WHERE.token] o
          ++ .ofKind (.operator .pipe)
            :: (e.tokens ++ [.ofKind (.punctuation .rbracket)]))) := by
  simp only [tokens, glyphs, List.append_assoc, Glyph.tokens_append, List.cons_append,
    Glyph.tokens_cons, tokens_option]
  rfl

theorem tokens_mapLiteral (entries : List MapEntry) :
    (map entries s).tokens = mapTokens entries := by
  rw [tokens, glyphs, glyphsEntries_eq, tokens_map]

theorem tokens_mapProjection (selectors : List MapSelector) :
    (mapProjection n selectors s).tokens
      = .ofKind (.identifier n) :: .ofKind (.punctuation .lbrace)
        :: (commaTokens (selectors.map MapSelector.tokens)
          ++ [.ofKind (.punctuation .rbrace)]) := by
  simp only [tokens, glyphs, glyphsSelectors_eq, Glyph.tokens_append, List.cons_append,
    Glyph.tokens_cons, tokens_separated, List.map_map]
  rfl

theorem tokens_call :
    (call ns es s).tokens
      = dottedTokens ns ++ .ofKind (.punctuation .lparen)
        :: (commaTokens (es.map tokens) ++ [.ofKind (.punctuation .rparen)]) := by
  simp only [tokens, glyphs, glyphsList_eq, List.append_assoc, Glyph.tokens_append,
    List.cons_append, Glyph.tokens_cons, tokens_separated, List.map_map, tokens_dotted]
  rfl

theorem tokens_case (branches : List CaseBranch) :
    («case» o branches o' s).tokens
      = Keyword.CASE.token :: (behindTokens [] o ++ (branches.flatMap CaseBranch.tokens
        ++ (behindTokens [Keyword.ELSE.token] o' ++ [Keyword.END.token]))) := by
  simp only [tokens, glyphs, glyphsBranches_eq, List.append_assoc, Glyph.tokens_append,
    List.cons_append, Glyph.tokens_cons, tokens_branches, tokens_option]
  rfl

end Expression

/-- The tokens between the parentheses of an expression that stands in
parentheses of its own. -/
def Expression.inside : Expression → List Token
  | .prefixed .not e _ => Keyword.NOT.token :: e.tokens
  | .infixed op l r _ => l.tokens ++ op.token :: r.tokens
  | .nullCheck negated e _ => e.tokens ++ [nullCheckToken negated]
  | _ => []

end Cypher
