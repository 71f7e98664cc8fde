import Cypher.Proofs.Tree.Sketch

/-!
# Brackets and frames

Tokens are balanced if their brackets can be paired inside them, each with one of its
own shape. Balanced tokens may stand anywhere: brackets further out do not matter.

An expression in parentheses is made of the tokens between them. Its span begins
and ends there, and around it stand parentheses that no node takes up. They are the
FRAME of the span. An operator that begins or ends with such an expression takes it
as it is: its span cuts the parentheses off on that side, and their partners stand
inside.
-/

namespace Cypher

namespace Token

/-! ## Brackets -/

/-- What closes the brackets that are open behind a token, the innermost first, if these are
`due` in front of it. A token that closes anything but the innermost has no place here. -/
def Kind.closing (kind : Kind) (due : List Punctuation) : Option (List Punctuation) :=
  match kind with
  | .punctuation .lparen => some (.rparen :: due)
  | .punctuation .lbracket => some (.rbracket :: due)
  | .punctuation .lbrace => some (.rbrace :: due)
  | .punctuation .rparen => match due with | .rparen :: rest => some rest | _ => none
  | .punctuation .rbracket => match due with | .rbracket :: rest => some rest | _ => none
  | .punctuation .rbrace => match due with | .rbrace :: rest => some rest | _ => none
  | _ => some due

/-- What closes the brackets that are open behind the tokens. -/
def closing (due : List Punctuation) : List Token → Option (List Punctuation)
  | [] => some due
  | t :: ts => (t.kind.closing due).bind fun due => closing due ts

/-- Each bracket among the tokens has its partner among them. -/
def Balanced (ts : List Token) : Prop := closing [] ts = some []

instance (ts : List Token) : Decidable (Balanced ts) :=
  inferInstanceAs (Decidable (closing [] ts = some []))

theorem closing_append (due : List Punctuation) (ts us : List Token) :
    closing due (ts ++ us) = (closing due ts).bind fun due => closing due us := by
  induction ts generalizing due with
  | nil => rfl
  | cons t ts ih =>
    rw [List.cons_append, closing, closing, Option.bind_assoc]
    exact congrArg _ (funext fun due => ih due)

/-- Brackets further out do not matter. -/
theorem Kind.closing_frame {kind : Kind} {due due' : List Punctuation}
    (h : kind.closing due = some due') (outer : List Punctuation) :
    kind.closing (due ++ outer) = some (due' ++ outer) := by
  unfold Kind.closing at h ⊢
  split at h
  all_goals first
    | (cases h; rfl)
    | (split at h <;> cases h; rfl)

theorem closing_frame {ts : List Token} {due due' : List Punctuation}
    (h : closing due ts = some due') (outer : List Punctuation) :
    closing (due ++ outer) ts = some (due' ++ outer) := by
  induction ts generalizing due with
  | nil =>
    cases h
    rfl
  | cons t ts ih =>
    obtain ⟨mid, hmid, hrest⟩ := Option.bind_eq_some_iff.1 h
    rw [closing, Kind.closing_frame hmid]
    exact ih hrest

/-- What opened parentheses leave to be closed. -/
theorem closing_opened {opened : List Token} (h : ∀ t ∈ opened, t.kind = .punctuation .lparen)
    (due : List Punctuation) :
    closing due opened = some (List.replicate opened.length .rparen ++ due) := by
  induction opened generalizing due with
  | nil => rfl
  | cons t ts ih =>
    obtain ⟨ht, hts⟩ := List.forall_mem_cons.1 h
    rw [closing, ht, Kind.closing, Option.bind_some, ih hts, List.length_cons,
      List.replicate_succ', List.append_assoc]
    rfl

theorem Kind.eq_of_closing_rparen {due rest : List Punctuation}
    (h : (Kind.punctuation .rparen).closing due = some rest) : due = .rparen :: rest := by
  cases due with
  | nil => cases h
  | cons p ps =>
    cases p <;> cases h
    rfl

/-- Closing parentheses need as many open ones. -/
theorem eq_of_closing_closed {closed : List Token} {due rest : List Punctuation}
    (h : ∀ t ∈ closed, t.kind = .punctuation .rparen) (hclosing : closing due closed = some rest) :
    due = List.replicate closed.length .rparen ++ rest := by
  induction closed generalizing due with
  | nil =>
    cases hclosing
    rfl
  | cons t ts ih =>
    obtain ⟨ht, hts⟩ := List.forall_mem_cons.1 h
    obtain ⟨mid, hmid, hrest⟩ := Option.bind_eq_some_iff.1 hclosing
    rw [ht] at hmid
    rw [Kind.eq_of_closing_rparen hmid, ih hts hrest]
    rfl

/-- What is balanced has no use for parentheses in front of it, not even as far as they are
closed in it. -/
theorem Balanced.eq_nil_of_opened {opened front rest : List Token}
    (h : Balanced (front ++ rest)) (hopened : ∀ t ∈ opened, t.kind = .punctuation .lparen)
    (hfront : Balanced (opened ++ front)) : opened = [] := by
  unfold Balanced at h hfront
  rw [closing_append] at h hfront
  obtain ⟨due, hdue, -⟩ := Option.bind_eq_some_iff.1 h
  rw [closing_opened hopened, List.append_nil, Option.bind_some] at hfront
  have hboth := closing_frame hdue (List.replicate opened.length .rparen)
  rw [List.nil_append, hfront] at hboth
  have hnone := (List.append_eq_nil_iff.1 (Option.some.inj hboth).symm).2
  rw [List.replicate_eq_nil_iff] at hnone
  exact List.length_eq_zero_iff.1 hnone

/-- Nor for parentheses behind it. -/
theorem Balanced.eq_nil_of_closed {closed front rest : List Token}
    (h : Balanced (front ++ rest)) (hclosed : ∀ t ∈ closed, t.kind = .punctuation .rparen)
    (hrest : Balanced (rest ++ closed)) : closed = [] := by
  unfold Balanced at h hrest
  rw [closing_append] at h hrest
  obtain ⟨due, -, hdue⟩ := Option.bind_eq_some_iff.1 h
  obtain ⟨left, hleft, hclosing⟩ := Option.bind_eq_some_iff.1 hrest
  have hboth := closing_frame hleft due
  rw [List.nil_append, hdue] at hboth
  have hnone := (List.append_eq_nil_iff.1 (Option.some.inj hboth).symm).1
  rw [hnone] at hclosing
  have hlength := (List.append_eq_nil_iff.1 (eq_of_closing_closed hclosed hclosing).symm).1
  rw [List.replicate_eq_nil_iff] at hlength
  exact List.length_eq_zero_iff.1 hlength

/-! ## Frames -/

/-- The span goes from the first of the tokens to the last. -/
structure Spans (ts : List Token) (span : Span) : Prop where
  first : ts.head?.map (·.span.start) = some span.start
  last : ts.getLast?.map (·.span.stop) = some span.stop

/-- The span goes from the first of the tokens inside to the last, and around them stand
parentheses. -/
structure Frame (ts opened inside closed : List Token) (span : Span) : Prop where
  eq : ts = opened ++ (inside ++ closed)
  opened : ∀ t ∈ opened, t.kind = .punctuation .lparen
  closed : ∀ t ∈ closed, t.kind = .punctuation .rparen
  spans : Spans inside span

/-- The span takes up the tokens, but for parentheses in front of it and behind it. -/
def Framed (ts : List Token) (span : Span) : Prop :=
  ∃ opened inside closed, Frame ts opened inside closed span

/-- As `Framed`, where the span has cut off the parentheses: without any, and only then, the
tokens inside are balanced. -/
def Trimmed (ts : List Token) (span : Span) : Prop :=
  ∃ opened inside closed, Frame ts opened inside closed span
    ∧ (Balanced inside → opened = [] ∧ closed = [])

variable {ts us : List Token} {t u : Token} {span span' : Span}

theorem Trimmed.framed (h : Trimmed ts span) : Framed ts span :=
  have ⟨opened, inside, closed, hframe, _⟩ := h
  ⟨opened, inside, closed, hframe⟩

theorem Spans.trimmed (h : Spans ts span) : Trimmed ts span :=
  ⟨[], ts, [], ⟨(List.append_nil ts).symm, List.forall_mem_nil _, List.forall_mem_nil _, h⟩,
    fun _ => ⟨rfl, rfl⟩⟩

theorem Spans.ne_nil (h : Spans ts span) : ts ≠ [] := by
  rintro rfl
  cases h.first

/-- Whatever stands behind the first token and in front of the last. -/
theorem Spans.between (h : Spans ts span) (h' : Spans us span') (mid : List Token) :
    Spans (ts ++ (mid ++ us)) ⟨span.start, span'.stop⟩ := by
  refine ⟨?_, ?_⟩
  · rw [List.head?_append_of_ne_nil _ h.ne_nil]
    exact h.first
  · rw [← List.append_assoc, List.getLast?_append_of_ne_nil _ h'.ne_nil]
    exact h'.last

theorem spans_singleton (t : Token) : Spans [t] t.span := ⟨rfl, rfl⟩

/-- One more pair of parentheses. -/
theorem Framed.parenthesize (h : Framed ts span) (ht : t.kind = .punctuation .lparen)
    (hu : u.kind = .punctuation .rparen) : Framed (t :: (ts ++ [u])) span := by
  obtain ⟨opened, inside, closed, rfl, hopened, hclosed, hinside⟩ := h
  refine ⟨t :: opened, inside, closed ++ [u], by simp, ?_, ?_, hinside⟩
  · exact List.forall_mem_cons.2 ⟨ht, hopened⟩
  · exact List.forall_mem_append.2 ⟨hclosed, List.forall_mem_singleton.2 hu⟩

/-- The closing parentheses belong to what goes on behind them. -/
theorem Framed.extend (h : Framed ts span) (hts : Balanced ts) (h' : Spans us span') :
    Trimmed (ts ++ us) ⟨span.start, span'.stop⟩ := by
  obtain ⟨opened, inside, closed, rfl, hopened, -, hinside⟩ := h
  refine ⟨opened, inside ++ (closed ++ us), [],
    ⟨by simp, hopened, List.forall_mem_nil _, hinside.between h' closed⟩, fun hbalanced => ?_⟩
  rw [← List.append_assoc] at hbalanced
  exact ⟨hbalanced.eq_nil_of_opened hopened hts, rfl⟩

/-- The opening parentheses belong to what goes on in front of them. -/
theorem Framed.prepend (h : Spans us span') (h' : Framed ts span) (hts : Balanced ts) :
    Trimmed (us ++ ts) ⟨span'.start, span.stop⟩ := by
  obtain ⟨opened, inside, closed, rfl, -, hclosed, hinside⟩ := h'
  refine ⟨[], us ++ (opened ++ inside), closed,
    ⟨by simp, List.forall_mem_nil _, hclosed, h.between hinside opened⟩, fun hbalanced => ?_⟩
  rw [← List.append_assoc] at hts
  exact ⟨rfl, hbalanced.eq_nil_of_closed hclosed hts⟩

/-- Between two operands both belong to the operator. -/
theorem Framed.join (h : Framed ts span) (hts : Balanced ts) (mid : List Token)
    (h' : Framed us span') (hus : Balanced us) :
    Trimmed (ts ++ (mid ++ us)) ⟨span.start, span'.stop⟩ := by
  obtain ⟨opened, inside, closed, rfl, hopened, -, hinside⟩ := h
  obtain ⟨opened', inside', closed', rfl, -, hclosed', hinside'⟩ := h'
  refine ⟨opened, inside ++ ((closed ++ (mid ++ opened')) ++ inside'), closed',
    ⟨by simp, hopened, hclosed', hinside.between hinside' _⟩, fun hbalanced => ⟨?_, ?_⟩⟩
  · have hleft : Balanced ((inside ++ closed) ++ (mid ++ (opened' ++ inside'))) := by
      simpa using hbalanced
    exact hleft.eq_nil_of_opened hopened hts
  · have hright : Balanced ((inside ++ (closed ++ mid)) ++ (opened' ++ inside')) := by
      simpa using hbalanced
    exact hright.eq_nil_of_closed hclosed' ((List.append_assoc ..).symm ▸ hus)

end Token

end Cypher
