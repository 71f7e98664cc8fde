import Cypher.Proofs.Reading.Lookahead
import Cypher.Proofs.Reading.Node

/-!
# Reading paths

A path is read from the tokens of its canonical glyphs, provided that the
values in its property maps are. What follows a relationship is a node.
What follows a path must not be a relationship.
-/

namespace Cypher

namespace Grammar

open Token (Kind)

section

variable {d : Nat} {expr : Parser Expression} {rest : List Token}

/-! ## Relationships -/

/-- The digits of a number write that number. -/
theorem decimalValue_toString (n : Nat) : decimalValue (toString n) = n := by
  have hdigits := Nat.ofDigitChars_ten_toDigits (n := n)
  rw [Nat.ofDigitChars_eq_foldl] at hdigits
  unfold decimalValue
  rw [Nat.toString_eq_repr, Nat.toList_repr]
  simpa only [Nat.mul_comm] using hdigits

/-- A number is written without a point. -/
theorem numberKind_repr (n : Nat) :
    Glyph.numberKind n.repr = .integer n.repr := by
  unfold Glyph.numberKind
  rw [if_neg]
  intro hpoint
  rw [Nat.toList_repr] at hpoint
  have hdigit := Nat.isDigit_of_mem_toDigits (by decide) (by decide) hpoint
  exact absurd hdigit (by decide)

/-- The tokens of a bound that may be absent. -/
def boundTokens (b : Option Nat) : List Token :=
  b.toList.map fun n => .ofKind (.integer (toString n))

theorem reads_hopBound {b : Option Nat} (hb : ∀ n ∈ b, n < hopLimit)
    (hrest : ∀ digits, headKind rest ≠ .integer digits) :
    Reads d hopBound (boundTokens b ++ rest) rest (· = b) := by
  unfold hopBound
  refine Reads.current.bind fun t ht => ?_
  cases b with
  | none =>
    split
    · next digits hkind => exact absurd (ht.symm.trans hkind) (hrest digits)
    · exact .pure rfl
  | some n =>
    have hkind : t.kind = .integer (toString n) := ht
    simp only [hkind, decimalValue_toString]
    rw [if_pos (hb n rfl)]
    exact Reads.advance.bind fun _ _ => .pure rfl

/-- The tokens of the bounds of a relationship. -/
def hopTokens (r : HopRange) : List Token :=
  boundTokens r.min ++
    if r.min = r.max then [] else .ofKind (.operator .dotDot) :: boundTokens r.max

theorem tokens_hops (r : HopRange) :
    Glyph.tokens r.glyphs = .ofKind (.operator .star) :: hopTokens r := by
  obtain ⟨min, max⟩ := r
  cases min <;> cases max <;>
    simp only [HopRange.glyphs, hopTokens, boundTokens]
  case some.some low high =>
    by_cases h : low = high
    all_goals simp [h, Glyph.tokens_cons, Glyph.token?, numberKind_repr]
  all_goals simp [Glyph.tokens_cons, Glyph.token?, numberKind_repr]

theorem reads_hopRange {r : HopRange} (hr : r.Bounded)
    (hrest : ∀ digits, headKind rest ≠ .integer digits)
    (hdots : headKind rest ≠ .operator .dotDot) :
    Reads d hopRange (hopTokens r ++ rest) rest (· = r) := by
  obtain ⟨min, max⟩ := r
  have hmin : ∀ n ∈ min, n < hopLimit := fun n hn => hr n (.inl hn)
  have hmax : ∀ n ∈ max, n < hopLimit := fun n hn => hr n (.inr hn)
  unfold hopRange hopTokens
  rw [List.append_assoc]
  by_cases heq : min = max
  · subst heq
    rw [if_pos rfl, List.nil_append]
    refine (reads_hopBound hmin hrest).bindEq ?_
    refine (Reads.consume_absent hdots).bindEq ?_
    exact .pure rfl
  · rw [if_neg heq, List.cons_append]
    refine (reads_hopBound hmin (by simp)).bindEq ?_
    refine (Reads.consume rfl).bindEq ?_
    rw [if_pos rfl]
    exact (reads_hopBound hmax hrest).bindEq (.pure rfl)

/-- The tokens of type alternatives: a colon before the first, a bar before
each other one. -/
def typeTokens : List String → List Token
  | [] => []
  | first :: others =>
    .ofKind (.punctuation .colon) :: Glyph.symbolToken first
      :: others.flatMap fun t => [.ofKind (.operator .pipe), Glyph.symbolToken t]

theorem tokens_types (types : List String) :
    Glyph.tokens (typeGlyphs types) = typeTokens types := by
  cases types with
  | nil => rfl
  | cons first others =>
    have hothers : Glyph.tokens (others.flatMap fun t => [.operator .pipe, .symbol t])
        = others.flatMap fun t => [.ofKind (.operator .pipe), Glyph.symbolToken t] := by
      induction others with
      | nil => rfl
      | cons t others ih =>
        rw [List.flatMap_cons, Glyph.tokens_append, ih, List.flatMap_cons]
        rfl
    rw [typeGlyphs, Glyph.tokens_append, hothers]
    rfl

theorem headKind_typeTokens {types : List String} (hne : types ≠ []) (ts : List Token) :
    headKind (typeTokens types ++ ts) = .punctuation .colon := by
  cases types with
  | nil => exact absurd rfl hne
  | cons first others => rfl

theorem reads_anotherType (n : String) :
    Reads d anotherType (Glyph.symbolToken n :: rest) rest (· = n) := by
  unfold anotherType
  refine (Reads.consume_absent (headKind_symbolToken n rest)).bindEq ?_
  exact Reads.symbolicName (Glyph.symbolicName?_symbolToken n)

theorem reads_relationshipTypes {types : List String}
    (hcolon : headKind rest ≠ .punctuation .colon)
    (hbar : headKind rest ≠ .operator .pipe) :
    Reads d relationshipTypes (typeTokens types ++ rest) rest (· = types) := by
  unfold relationshipTypes
  cases types with
  | nil =>
    refine (Reads.consume_absent hcolon).bindEq ?_
    exact .pure rfl
  | cons first others =>
    rw [typeTokens, List.cons_append, List.cons_append]
    refine (Reads.consume rfl).bindEq ?_
    rw [if_pos rfl]
    refine (Reads.symbolicName (Glyph.symbolicName?_symbolToken first)).bindEq ?_
    have hmany : Reads d (many (behind (.operator .pipe) anotherType))
        ((others.flatMap fun t => [.ofKind (.operator .pipe), Glyph.symbolToken t]) ++ rest)
        rest fun as => as.map id = others.map id := Reads.many (S := fun _ => True) trivial (Reads.behind_absent (p := anotherType) hbar)
      (fun t _ => List.cons_ne_nil _ _)
      fun t _ ts _ => ⟨trivial, (reads_anotherType t).behind rfl⟩
    refine hmany.bind fun found hfound => .pure ?_
    rw [List.map_id, List.map_id] at hfound
    rw [hfound]

/-- The tokens of what stands between the brackets of a relationship. -/
def detailTokens (name : Option String) (types : List String) (hops : Option HopRange)
    (p : Option Properties) : List Token :=
  nameTokens name ++ (typeTokens types
    ++ ((hops.toList.flatMap fun r => .ofKind (.operator .star) :: hopTokens r)
      ++ propertyTokens p))

theorem reads_detail {name : Option String} {types : List String}
    {hops : Option HopRange} {p : Option Properties}
    (hhops : ∀ r ∈ hops, r.Bounded)
    (hes : ∀ e ∈ p.toList.flatMap Properties.values, ReadsTree d expr e)
    (hrest : headKind rest = .punctuation .rbracket) :
    Reads d (detail expr) (detailTokens name types hops p ++ rest) rest fun a =>
      a.name = name ∧ a.types = types ∧ a.hops = hops
        ∧ a.properties.map Properties.erase = p.map Properties.erase := by
  unfold detailTokens detail
  simp only [List.append_assoc]
  -- Each part is told from those behind it by its first token.
  have hp := headKind_propertyTokens p rest
  rw [hrest] at hp
  have hh : headKind ((hops.toList.flatMap fun r =>
        .ofKind (.operator .star) :: hopTokens r) ++ (propertyTokens p ++ rest))
          = headKind (propertyTokens p ++ rest)
      ∨ headKind ((hops.toList.flatMap fun r =>
        .ofKind (.operator .star) :: hopTokens r) ++ (propertyTokens p ++ rest))
          = .operator .star := by
    cases hops with
    | none => exact .inl rfl
    | some r => exact .inr rfl
  refine (reads_optionalName fun m => ?_).bindEq ?_
  · by_cases hne : types = []
    · subst hne
      rw [typeTokens, List.nil_append]
      rcases hh with h | h <;> rw [h]
      · rcases hp with h | h | ⟨n, h⟩ <;> rw [h] <;> simp
      · simp
    · rw [headKind_typeTokens hne]
      simp
  refine (reads_relationshipTypes ?_ ?_).bindEq ?_
  · rcases hh with h | h <;> rw [h]
    · rcases hp with h | h | ⟨n, h⟩ <;> rw [h] <;> simp
    · simp
  · rcases hh with h | h <;> rw [h]
    · rcases hp with h | h | ⟨n, h⟩ <;> rw [h] <;> simp
    · simp
  have hprops : Reads d (properties expr) (propertyTokens p ++ rest) rest
      fun a => a.map Properties.erase = p.map Properties.erase :=
    reads_properties hes (by simp [hrest]) (by simp [hrest])
  cases hops with
  | none =>
    refine (Reads.behind_absent ?_).bindEq ?_
    · simp only [Option.toList_none, List.flatMap_nil, List.nil_append]
      rcases hp with h | h | ⟨n, h⟩ <;> rw [h] <;> simp
    · exact hprops.bind fun q hq => .pure ⟨rfl, rfl, rfl, hq⟩
  | some r =>
    simp only [Option.toList_some, List.flatMap_cons, List.flatMap_nil, List.append_nil,
      List.cons_append]
    refine (Reads.behind rfl (reads_hopRange (hhops r rfl) ?_ ?_)).bind ?_
    · intro digits
      rcases hp with h | h | ⟨n, h⟩ <;> rw [h] <;> simp
    · rcases hp with h | h | ⟨n, h⟩ <;> rw [h] <;> simp
    · rintro _ ⟨_, rfl, rfl⟩
      exact hprops.bind fun q hq => .pure ⟨rfl, rfl, rfl, hq⟩

/-- The detail in its brackets, which are left out around nothing. -/
def bracketTokens (name : Option String) (types : List String) (hops : Option HopRange)
    (p : Option Properties) : List Token :=
  if name = none ∧ types = [] ∧ hops = none ∧ p.isNone then []
  else .ofKind (.punctuation .lbracket)
    :: (detailTokens name types hops p ++ [.ofKind (.punctuation .rbracket)])

theorem tokens_bracketed_detail (name : Option String) (types : List String)
    (hops : Option HopRange) (p : Option Properties) :
    Glyph.tokens (bracketed (spaced (name.toList.map Glyph.name ++ typeGlyphs types
      ++ hops.toList.flatMap HopRange.glyphs) (glyphsProperties p)))
      = bracketTokens name types hops p := by
  have hrun : Glyph.tokens (spaced (name.toList.map Glyph.name ++ typeGlyphs types
      ++ hops.toList.flatMap HopRange.glyphs) (glyphsProperties p))
        = detailTokens name types hops p := by
    rw [tokens_spaced, Glyph.tokens_append, Glyph.tokens_append, tokens_names, tokens_types]
    unfold detailTokens propertyTokens
    rw [List.append_assoc, List.append_assoc]
    cases hops with
    | none => rfl
    | some r =>
      simp only [Option.toList_some, List.flatMap_cons, List.flatMap_nil, List.append_nil,
        tokens_hops]
  have hempty : spaced (name.toList.map Glyph.name ++ typeGlyphs types
      ++ hops.toList.flatMap HopRange.glyphs) (glyphsProperties p) = []
        ↔ name = none ∧ types = [] ∧ hops = none ∧ p.isNone := by
    have hps : glyphsProperties p = [] ↔ p.isNone := by
      rcases p with _ | (_ | _) <;> simp [glyphsProperties, Properties.glyphs]
    have hspaced (l r : List Glyph) : spaced l r = [] ↔ l = [] ∧ r = [] := by
      unfold spaced
      split <;> simp_all
    rw [hspaced, hps]
    cases name <;> cases types <;> cases hops <;>
      simp [typeGlyphs, HopRange.glyphs]
  rw [tokens_bracketed, hrun, bracketTokens]
  simp only [hempty]

theorem reads_bracketedDetail {name : Option String} {types : List String}
    {hops : Option HopRange} {p : Option Properties}
    (hhops : ∀ r ∈ hops, r.Bounded)
    (hes : ∀ e ∈ p.toList.flatMap Properties.values, ReadsTree d expr e)
    (hrest : headKind rest ≠ .punctuation .lbracket) :
    Reads d (bracketedDetail expr) (bracketTokens name types hops p ++ rest) rest fun a =>
      a.name = name ∧ a.types = types ∧ a.hops = hops
        ∧ a.properties.map Properties.erase = p.map Properties.erase := by
  unfold bracketedDetail bracketTokens
  split
  · next hnone =>
    obtain ⟨rfl, rfl, rfl, hp⟩ := hnone
    rw [Option.isNone_iff_eq_none] at hp
    subst hp
    exact (Reads.consume_absent hrest).bindEq (.pure ⟨rfl, rfl, rfl, rfl⟩)
  · rw [List.cons_append, List.append_assoc]
    refine (Reads.consume rfl).bindEq ?_
    rw [if_pos rfl]
    refine (reads_detail hhops hes rfl).bind fun found hfound => ?_
    exact (Reads.expect rfl).bind fun _ _ => .pure hfound

/-- The tokens of the two ends of a relationship. -/
def nearTokens : Direction → List Token
  | .incoming => [.ofKind (.operator .lt), .ofKind (.operator .minus)]
  | .outgoing | .undirected => [.ofKind (.operator .minus)]

def farToken : Direction → Token
  | .outgoing => .ofKind (.operator .arrow)
  | .incoming | .undirected => .ofKind (.operator .minus)

theorem RelationshipPattern.tokens_mk (dir : Direction) (name : Option String)
    (types : List String) (hops : Option HopRange) (p : Option Properties) (s : Span) :
    RelationshipPattern.tokens ⟨dir, name, types, hops, p, s⟩
      = nearTokens dir ++ (bracketTokens name types hops p ++ [farToken dir]) := by
  rw [RelationshipPattern.tokens, RelationshipPattern.glyphs, Glyph.tokens_append,
    Glyph.tokens_append, tokens_bracketed_detail, List.append_assoc]
  cases dir <;> rfl

theorem reads_farEnd (dir : Direction) :
    Reads d (farEnd (dir = .incoming)) (farToken dir :: rest) rest (· = dir) := by
  unfold farEnd
  refine Reads.current.bind fun t ht => ?_
  cases dir with
  | outgoing =>
    have hkind : t.kind = .operator .arrow := ht
    rw [if_pos hkind]
    exact Reads.advance.bind fun _ _ => .pure rfl
  | incoming | undirected =>
    have hkind : t.kind = .operator .minus := ht
    rw [if_neg (by simp [hkind])]
    exact (Reads.expect rfl).bind fun _ _ => .pure rfl

theorem reads_relationshipPattern {r : RelationshipPattern} (hr : r.Formed)
    (hes : ∀ e ∈ r.values, ReadsTree d expr e) :
    Reads d (relationshipPattern expr) (r.tokens ++ rest) rest
      fun a => a.erase = r.erase := by
  obtain ⟨dir, name, types, hops, p, s⟩ := r
  have hfar : headKind (farToken dir :: rest) ≠ .punctuation .lbracket := by
    cases dir <;> simp [farToken]
  rw [RelationshipPattern.tokens_mk]
  simp only [List.append_assoc, List.cons_append, List.nil_append]
  unfold relationshipPattern
  refine Reads.start.bind fun begin _ => ?_
  have hnear : Reads d (consume (.operator .lt))
      (nearTokens dir ++ (bracketTokens name types hops p ++ farToken dir :: rest))
      (.ofKind (.operator .minus)
        :: (bracketTokens name types hops p ++ farToken dir :: rest))
      (· = decide (dir = .incoming)) := by
    cases dir with
    | incoming => exact Reads.consume rfl
    | outgoing | undirected => exact Reads.consume_absent (by simp [nearTokens])
  refine hnear.bindEq ?_
  refine (Reads.expect rfl).bind fun _ _ => ?_
  refine (reads_bracketedDetail hr.2 hes hfar).bind fun found hfound => ?_
  refine (reads_farEnd dir).bindEq ?_
  refine Reads.spanFrom.bind fun sp _ => .pure ?_
  obtain ⟨hname, htypes, hhops, hp⟩ := hfound
  rw [RelationshipPattern.erase_mk, RelationshipPattern.erase_mk, hname, htypes, hhops, hp]

/-! ## Paths -/

/-- A relationship is ahead where its tokens are. -/
theorem relationshipAhead_tokens (r : RelationshipPattern) (ts : List Token) :
    relationshipAhead (r.tokens ++ ts) = true := by
  obtain ⟨dir, name, types, hops, p, s⟩ := r
  rw [RelationshipPattern.tokens_mk, bracketTokens]
  cases dir <;> split <;> rfl

theorem Link.tokens_mk (r : RelationshipPattern) (n : NodePattern) :
    Link.tokens ⟨r, n⟩ = r.tokens ++ n.tokens := by
  rw [Link.tokens, Link.glyphs, Glyph.tokens_append]
  rfl

theorem reads_link {l : Link} (hl : l.Formed) (hes : ∀ e ∈ l.values, ReadsTree d expr e) :
    Reads d (link expr) (l.tokens ++ rest) rest
      fun o => ∃ a, o = some a ∧ a.erase = l.erase := by
  obtain ⟨r, n⟩ := l
  rw [Link.values, List.forall_mem_append] at hes
  rw [Link.tokens_mk, List.append_assoc]
  unfold link
  refine Reads.lookAhead.bind fun ahead hahead => ?_
  have hdue : relationshipAhead ahead = true := by
    rw [← relationshipAhead_bare, hahead]
    exact relationshipAhead_tokens r _
  rw [if_pos hdue]
  refine (reads_relationshipPattern hl.1 hes.1).bind fun r' hr' => ?_
  refine (reads_nodePattern hes.2).bind fun n' hn' => .pure ⟨_, rfl, ?_⟩
  rw [Link.erase_mk, Link.erase_mk, hr', hn']

theorem reads_link_absent (hrest : relationshipAhead rest = false) :
    Reads d (link expr) rest rest (· = none) := by
  unfold link
  refine Reads.lookAhead.bind fun ahead hahead => ?_
  rw [if_neg (by rw [← relationshipAhead_bare, hahead, hrest]; exact Bool.false_ne_true)]
  exact .pure rfl

/-- The tokens of the nodes and relationships of a path. -/
def chainTokens (start : NodePattern) (chain : List Link) : List Token :=
  start.tokens ++ chain.flatMap Link.tokens

theorem tokens_chain (start : NodePattern) (chain : List Link) :
    Glyph.tokens (start.glyphs ++ glyphsLinks chain) = chainTokens start chain := by
  rw [glyphsLinks_eq, Glyph.tokens_append, chainTokens]
  refine congrArg (start.tokens ++ ·) ?_
  induction chain with
  | nil => rfl
  | cons l ls ih =>
    rw [List.flatMap_cons, Glyph.tokens_append, ih, List.flatMap_cons]
    rfl

theorem reads_patternChain {name : Option String} {begin : Nat} {start : NodePattern}
    {chain : List Link} (hchain : ∀ l ∈ chain, l.Formed)
    (hstart : ∀ e ∈ start.values, ReadsTree d expr e)
    (hlinks : ∀ e ∈ chain.flatMap Link.values, ReadsTree d expr e)
    (hrest : relationshipAhead rest = false) :
    Reads d (patternChain expr name begin) (chainTokens start chain ++ rest) rest
      fun a => ∀ s, a.erase = Pattern.erase ⟨name, start, chain, s⟩ := by
  unfold patternChain chainTokens
  rw [List.append_assoc]
  refine (reads_nodePattern hstart).bind fun n hn => ?_
  have hmany : Reads d (many (link expr)) (chain.flatMap Link.tokens ++ rest) rest
      fun as => as.map Link.erase = chain.map Link.erase := Reads.many (S := fun _ => True) trivial
    (reads_link_absent hrest) ?_ fun l hl ts _ => ⟨trivial, reads_link
      (hchain l hl) fun e he => hlinks e (List.mem_flatMap_of_mem hl he)⟩
  · refine hmany.bind fun ls hls => ?_
    refine Reads.spanFrom.bind fun sp _ => .pure fun s => ?_
    rw [Pattern.erase_mk, Pattern.erase_mk, hn, hls]
  · rintro ⟨⟨dir, _, _, _, _, _⟩, n⟩ _
    rw [Link.tokens_mk, RelationshipPattern.tokens_mk]
    cases dir <;> simp [nearTokens]

theorem Pattern.tokens_mk (name : Option String) (start : NodePattern)
    (chain : List Link) (s : Span) :
    Pattern.tokens ⟨name, start, chain, s⟩
      = (name.toList.flatMap fun n => [.ofKind (.identifier n), .ofKind (.operator .eq)])
        ++ chainTokens start chain := by
  rw [Pattern.tokens]
  cases name with
  | none => rw [Pattern.glyphs, tokens_chain]; rfl
  | some n =>
    rw [Pattern.glyphs, List.cons_append, List.cons_append, List.cons_append,
      List.cons_append, Glyph.tokens_cons, Glyph.tokens_cons, Glyph.tokens_cons,
      Glyph.tokens_cons, tokens_chain]
    rfl

theorem headKind_nodeTokens (n : NodePattern) (ts : List Token) :
    headKind (n.tokens ++ ts) = .punctuation .lparen := by
  obtain ⟨name, labels, p, s⟩ := n
  rw [NodePattern.tokens_mk]
  rfl

theorem reads_pathName (name : Option String) (start : NodePattern) (chain : List Link) :
    Reads d pathName
      ((name.toList.flatMap fun n => [.ofKind (.identifier n), .ofKind (.operator .eq)])
        ++ (chainTokens start chain ++ rest))
      (chainTokens start chain ++ rest) (· = name) := by
  unfold pathName
  refine Reads.lookAhead.bind fun ahead hahead => ?_
  rw [← kindAt_bare ahead 0, ← kindAt_bare ahead 1, hahead]
  cases name with
  | none =>
    have hhead : kindAt (chainTokens start chain ++ rest) 0
        = some (.punctuation .lparen) := by
      obtain ⟨name, labels, p, s⟩ := start
      rw [chainTokens, NodePattern.tokens_mk]
      rfl
    simp only [Option.toList_none, List.flatMap_nil, List.nil_append, hhead]
    exact .pure rfl
  | some n =>
    refine Reads.advance.bind fun _ _ => ?_
    exact Reads.advance.bind fun _ _ => .pure rfl

theorem reads_pattern {p : Pattern} (hp : p.Formed)
    (hes : ∀ e ∈ p.values, ReadsTree d expr e) (hrest : relationshipAhead rest = false) :
    Reads d (pattern expr) (p.tokens ++ rest) rest fun a => a.erase = p.erase := by
  obtain ⟨name, start, chain, s⟩ := p
  rw [Pattern.values, List.forall_mem_append] at hes
  rw [Pattern.tokens_mk, List.append_assoc]
  unfold pattern
  refine Reads.start.bind fun begin _ => ?_
  refine (reads_pathName name start chain).bindEq ?_
  exact (reads_patternChain hp.2 hes.1 hes.2 hrest).mono fun a ha => ha s

/-- No relationship starts where an expression stops. -/
theorem relationshipAhead_of_stops (h : stopsExpression (headKind rest) = true) :
    relationshipAhead rest = false := by
  unfold relationshipAhead
  rw [kindAt_zero]
  cases rest with
  | nil => rfl
  | cons t ts =>
    rw [headKind_cons] at h
    rw [List.head?_cons, Option.map_some]
    split
    · next hminus => rw [Option.some.inj hminus] at h; exact absurd h (by decide)
    · next hlt => rw [Option.some.inj hlt] at h; exact absurd h (by decide)
    · rfl

theorem reads_patternList {ps : List Pattern} (hne : ps ≠ []) (hps : ∀ p ∈ ps, p.Formed)
    (hes : ∀ e ∈ ps.flatMap Pattern.values, ReadsTree d expr e)
    (hrest : stopsExpression (headKind rest) = true)
    (hcomma : headKind rest ≠ .punctuation .comma) :
    Reads d (patternList expr) (commaTokens (ps.map Pattern.tokens) ++ rest) rest
      fun as => as.map Pattern.erase = ps.map Pattern.erase := by
  unfold patternList
  refine Reads.commaSeparated (S := (stopsExpression · = true)) hne rfl hrest hcomma
    fun p hp ts hts => ?_
  exact reads_pattern (hps p hp) (fun e he => hes e (List.mem_flatMap_of_mem hp he))
    (relationshipAhead_of_stops hts)

/-! ## Paths seen from afar -/

/-- A node is seen to be one where its tokens are ahead. -/
theorem nodeAhead_tokens (n : NodePattern) (ts : List Token) :
    nodeAhead (n.tokens ++ ts) = true := by
  obtain ⟨name, labels, p, s⟩ := n
  rw [NodePattern.tokens_mk]
  match name, labels, p with
  | none, [], none | none, [], some (.map ..) | none, [], some (.parameter ..) => rfl
  | some _, [], none | some _, [], some (.map ..) | some _, [], some (.parameter ..) => rfl
  | none, _ :: _, _ | some _, _ :: _, _ => rfl

/-- A path of more than one node is seen to be one. -/
theorem patternPredicateAhead_chain {start : NodePattern} {chain : List Link}
    (hne : chain ≠ []) (ts : List Token) :
    patternPredicateAhead (chainTokens start chain ++ ts) = true := by
  cases chain with
  | nil => exact absurd rfl hne
  | cons l ls =>
    obtain ⟨r, n⟩ := l
    unfold patternPredicateAhead chainTokens
    rw [List.append_assoc, nodeAhead_tokens, afterGroup_node, List.flatMap_cons,
      Link.tokens_mk, List.append_assoc, List.append_assoc]
    exact relationshipAhead_tokens r _

/-- A group is seen to be a path only if it looks like a node and a
relationship follows it. -/
theorem patternPredicateAhead_grouped {e : Expression} (h : e.isGrouped = true)
    (hlength : 3 ≤ e.tokens.length) (ts : List Token) :
    patternPredicateAhead (e.tokens ++ ts)
      = (Grammar.nodeAhead e.tokens && relationshipAhead ts) := by
  unfold patternPredicateAhead
  rw [nodeAhead_append hlength, afterGroup_grouped h]

end

end Grammar

end Cypher
