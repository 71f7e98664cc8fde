import Cypher.Proofs.Lexing.Accounted

/-!
# Reading a text with every cut checked

The functions of the library answer something for any span and any two
numbers: a subtraction below zero is zero, and a span that splits a
character or runs backwards cuts out what it can. A program that works on
bytes has no such answers. Here the reading of a text is written once more
with operations that answer NOTHING where they are not meant to be used, in
the order in which the text is read; it answers all the same, and the same.
-/

namespace Cypher.Checked

/-! ## Operations that can fail -/

/-- The difference of two numbers, if it is not below zero. -/
def sub (a b : Nat) : Option Nat := if b ≤ a then some (a - b) else none

theorem sub_eq {a b : Nat} (h : b ≤ a) : sub a b = some (a - b) := if_pos h

/-- Whether an offset lies between two characters: no character is split by it. -/
def atBoundary (text : List Char) (offset : Nat) : Bool :=
  Text.byteLength (Text.takeBytes offset text) = offset

/-- The characters under a span, if it splits none and does not run backwards. -/
def slice (text : List Char) (s : Span) : Option (List Char) :=
  if atBoundary text s.start ∧ atBoundary text s.stop ∧ s.start ≤ s.stop then
    some (Text.slice text s)
  else none

/-- The text from an offset on. -/
def onwards (text : List Char) (offset : Nat) : Option (List Char) :=
  slice text ⟨offset, Text.byteLength text⟩

section Operations

variable {text piece : List Char} {s : Span} {line offset : Nat}

theorem atBoundary_of (h : Text.IsBoundary text offset) : atBoundary text offset = true := by
  obtain ⟨before, after, rfl, rfl⟩ := h
  unfold atBoundary
  rw [Text.takeBytes_append, decide_eq_true_iff]

theorem slice_eq (h : Text.Bounds text s) : slice text s = some (Text.slice text s) :=
  if_pos ⟨atBoundary_of h.start, atBoundary_of h.stop, h.ordered⟩

theorem slice_of_stands (h : Text.Stands text piece s line) : slice text s = some piece := by
  rw [slice_eq h.bounds, h.slice_eq]

theorem onwards_append (before after : List Char) :
    onwards (before ++ after) (Text.byteLength before) = some after := by
  have hplace : Text.Stands (before ++ after) after
      ⟨Text.byteLength before, Text.byteLength (before ++ after)⟩ (1 + Text.newlines before) :=
    ⟨before, [], by rw [List.append_nil], by rw [Text.byteLength_append], rfl⟩
  exact slice_of_stands hplace

/-- A list whose every element can be read can be read. -/
theorem mapM_eq {α β : Type} {read : α → Option β} {f : α → β} {as : List α}
    (h : ∀ a ∈ as, read a = some (f a)) : as.mapM read = some (as.map f) := by
  induction as with
  | nil => rfl
  | cons a as ih =>
    rw [List.mapM_cons, h a List.mem_cons_self, ih fun a ha => h a (List.mem_cons_of_mem _ ha)]
    rfl

end Operations

/-! ## Lexemes -/

/-- What is left of a quoted form without its delimiters, each of which is one
byte long. -/
def body (l : Lexeme) (closed : Bool) : Option (List Char) := do
  let length := Text.byteLength l.text
  let stop ← if closed then sub length 1 else some length
  slice l.text ⟨1, stop⟩

/-- The kind of token a lexeme is read as. Three forms are read without their
first byte. -/
def kind? (l : Lexeme) : Option (Option Token.Kind) :=
  match l.form with
  | .string closed => do
    return some (.string (String.ofList (Text.decodeString (← body l closed))))
  | .quotedName closed => do
    return some (.identifier (String.ofList (Text.decodeName (← body l closed))))
  | .parameter => do return some (.parameter (String.ofList (← body l false)))
  | _ => some l.kind?

/-- A lexeme as a token, with its text cut out of the source. -/
def token? (source : List Char) (l : Lexeme) : Option (Option Token) := do
  let text ← slice source l.span
  return (← kind? l).map fun kind => ⟨kind, l.span, l.line, String.ofList text⟩

/-- The report of a form that is not closed. -/
def unclosed (source : List Char) (l : Lexeme) (what : Delimited) : Option (Option Fault) := do
  let ahead ← onwards source l.start
  return some ⟨.unclosed what, l.span, l.line, some (String.ofList (ahead.take 1))⟩

/-- The report of an illegal character. The cutting starts again behind it. -/
def illegal (source : List Char) (l : Lexeme) : Option (Option Fault) := do
  match ← onwards source l.start with
  | [] => return none
  | c :: _ =>
    let stop := l.start + c.utf8Size
    let _ ← onwards source stop
    return some ⟨.illegalCharacter c, ⟨l.start, stop⟩, l.line, some (String.ofList [c])⟩

/-- The fault of a lexeme. -/
def fault? (source : List Char) (l : Lexeme) : Option (Option Fault) :=
  match l.form with
  | .illegal => illegal source l
  | .blockComment false => unclosed source l .comment
  | .string false => unclosed source l .string
  | .quotedName false => unclosed source l .name
  | _ => some none

/-- A closed body ends with the character that closes it. -/
theorem quotedBody_closed {quote : Char} {multiline : Bool} {ahead : List Char} {n : Nat}
    (h : Lexeme.quotedBody quote multiline ahead = (n, true)) :
    ∃ inner rest, ahead = inner ++ quote :: rest ∧ n = inner.length + 1 := by
  fun_induction Lexeme.quotedBody quote multiline ahead generalizing n with
  | case1 => cases h
  | case2 => cases h
  | case3 => cases h
  | case4 c rest hgo m closed hrest ih =>
    obtain ⟨rfl, rfl⟩ := Prod.mk.inj h
    obtain ⟨inner, rest', rfl, rfl⟩ := ih hrest
    exact ⟨'\\' :: c :: inner, rest', rfl, rfl⟩
  | case5 rest =>
    cases h
    exact ⟨[], rest, rfl, rfl⟩
  | case6 => cases h
  | case7 c rest _ _ _ _ m closed hrest ih =>
    obtain ⟨rfl, rfl⟩ := Prod.mk.inj h
    obtain ⟨inner, rest', rfl, rfl⟩ := ih hrest
    exact ⟨c :: inner, rest', rfl, rfl⟩

/-- The text of a form that is stripped starts with a character of one byte, and ends with
another one if the form is closed. -/
def Stripped (text : List Char) (closed : Bool) : Prop :=
  ∃ c rest, text = c :: rest ∧ c.utf8Size = 1
    ∧ (closed = true → ∃ inner d, rest = inner ++ [d] ∧ d.utf8Size = 1)

theorem stripped_of_quotedBody {quote : Char} {multiline closed : Bool} {ahead : List Char}
    {n : Nat} (hquote : quote.utf8Size = 1)
    (h : Lexeme.quotedBody quote multiline ahead = (n, closed)) :
    Stripped (quote :: ahead.take n) closed := by
  refine ⟨quote, ahead.take n, rfl, hquote, ?_⟩
  rintro rfl
  obtain ⟨inner, rest, rfl, rfl⟩ := quotedBody_closed h
  exact ⟨inner, quote, by simp [List.take_append], hquote⟩

section Lexemes

variable {source : List Char} {l : Lexeme}

/-- Strings, quoted names and parameters can be stripped. -/
theorem stripped_of_mem {closed : Bool} (hl : l ∈ Lexeme.ofText source)
    (hform : l.form = .string closed ∨ l.form = .quotedName closed
      ∨ l.form = .parameter ∧ closed = false) : Stripped l.text closed := by
  obtain ⟨before, c, ahead, n, -, hmeasure, hpiece, -, -⟩ := Lexeme.exists_measure hl
  rw [hpiece]
  cases Lexeme.measured hmeasure with
  | string hquote closed' heq hbody =>
    have hclosed : closed' = closed := by
      rcases hform with hform | hform | ⟨hform, -⟩ <;> cases hform.symm.trans heq
      rfl
    subst hclosed
    apply stripped_of_quotedBody _ hbody
    rcases hquote with rfl | rfl <;> decide
  | name hgrave closed' heq hbody =>
    have hclosed : closed' = closed := by
      rcases hform with hform | hform | ⟨hform, -⟩ <;> cases hform.symm.trans heq
      rfl
    subst hclosed
    subst hgrave
    exact stripped_of_quotedBody (by decide) hbody
  | dollar hdollar h =>
    have hopen : closed = false := by
      rcases Lexeme.form_afterDollar h with heq | ⟨heq, -⟩ <;>
        rcases hform with hform | hform | ⟨hform, hclosed⟩ <;> cases hform.symm.trans heq
      exact hclosed
    subst hopen
    subst hdollar
    exact ⟨'$', ahead.take n, rfl, by decide, nofun⟩
  | separator _ heq _ | word _ heq _ =>
    rcases hform with hform | hform | ⟨hform, -⟩ <;> cases hform.symm.trans heq
  | number _ h =>
    rcases Lexeme.form_number h with heq | heq <;>
      rcases hform with hform | hform | ⟨hform, -⟩ <;> cases hform.symm.trans heq
  | slash _ h =>
    rcases Lexeme.form_afterSlash h with heq | ⟨_, heq⟩ | heq <;>
      rcases hform with hform | hform | ⟨hform, -⟩ <;> cases hform.symm.trans heq
  | symbol _ h =>
    rcases Lexeme.form_symbol h with ⟨_, heq⟩ | ⟨_, heq⟩ | ⟨heq, -⟩ <;>
      rcases hform with hform | hform | ⟨hform, -⟩ <;> cases hform.symm.trans heq

/-- What can be stripped is, and what is left are the characters between the delimiters. -/
theorem body_eq {closed : Bool} (h : Stripped l.text closed) :
    body l closed = some (l.body closed) := by
  obtain ⟨c, rest, htext, hc, hclosed⟩ := h
  unfold body Lexeme.body
  rw [htext, Text.byteLength, hc]
  cases closed with
  | false =>
    have hplace : Text.Stands (c :: rest) rest ⟨1, 1 + Text.byteLength rest⟩
        (1 + Text.newlines [c]) :=
      ⟨[c], [], by simp, by simp [Text.byteLength, hc], rfl⟩
    exact slice_of_stands hplace
  | true =>
    obtain ⟨inner, d, rfl, hd⟩ := hclosed rfl
    have hplace : Text.Stands (c :: (inner ++ [d])) inner ⟨1, 1 + Text.byteLength inner⟩
        (1 + Text.newlines [c]) :=
      ⟨[c], [d], rfl, by simp [Text.byteLength, hc], rfl⟩
    have hstop : 1 + Text.byteLength (inner ++ [d]) - 1 = 1 + Text.byteLength inner := by
      rw [Text.byteLength_append, Text.byteLength, Text.byteLength, hd]
      omega
    rw [if_pos rfl, sub_eq (Nat.le_add_right _ _), hstop, if_pos rfl, List.tail_cons,
      List.dropLast_concat]
    exact slice_of_stands hplace

theorem kind?_eq (hl : l ∈ Lexeme.ofText source) : kind? l = some l.kind? := by
  unfold kind? Lexeme.kind?
  cases hform : l.form with
  | string closed =>
    simp [body_eq (stripped_of_mem hl (.inl hform))]
  | quotedName closed =>
    simp [body_eq (stripped_of_mem hl (.inr (.inl hform)))]
  | parameter =>
    have hbody := body_eq (stripped_of_mem hl (.inr (.inr ⟨hform, rfl⟩)))
    simp [hbody, Lexeme.body]
  | _ => rfl

theorem token?_eq (hl : l ∈ Lexeme.ofText source) : token? source l = some l.token? := by
  unfold token?
  rw [slice_of_stands (Lexeme.stands hl), kind?_eq hl]
  rfl

theorem onwards_start (hl : l ∈ Lexeme.ofText source) :
    ∃ rest, onwards source l.start = some (l.text ++ rest) := by
  obtain ⟨before, after, htext, hspan, -⟩ := Lexeme.stands hl
  have hstart : l.start = Text.byteLength before := congrArg Span.start hspan
  exact ⟨after, by rw [htext, hstart, onwards_append]⟩

theorem unclosed_eq (hl : l ∈ Lexeme.ofText source) (what : Delimited) :
    unclosed source l what
      = some (some ⟨.unclosed what, l.span, l.line, some (String.ofList (l.text.take 1))⟩) := by
  obtain ⟨rest, hahead⟩ := onwards_start hl
  unfold unclosed
  rw [hahead]
  cases htext : l.text with
  | nil => exact absurd htext (Lexeme.text_ne_nil hl)
  | cons c cs => rfl

theorem illegal_eq (hl : l ∈ Lexeme.ofText source) (hform : l.form = .illegal) :
    illegal source l = some l.fault? := by
  obtain ⟨before, after, htext, hspan, -⟩ := Lexeme.stands hl
  obtain ⟨c, hchar, -⟩ := Lexeme.exists_char hl (.inr hform)
  have hstart : l.start = Text.byteLength before := congrArg Span.start hspan
  have hstop : l.span = ⟨l.start, l.start + c.utf8Size⟩ := by
    rw [Lexeme.span, hchar, Text.byteLength, Text.byteLength, Nat.add_zero]
  have hahead : onwards source l.start = some (c :: after) := by
    rw [htext, hstart, hchar, onwards_append]
    rfl
  have hbehind : onwards source (l.start + c.utf8Size) = some after := by
    have hfront : l.start + c.utf8Size = Text.byteLength (before ++ [c]) := by
      rw [hstart, Text.byteLength_append, Text.byteLength, Text.byteLength, Nat.add_zero]
    rw [htext, hchar, hfront, ← List.append_assoc, onwards_append]
  unfold illegal Lexeme.fault? Lexeme.cause?
  simp [hahead, hbehind, hform, hchar, hstop]

theorem fault?_eq (hl : l ∈ Lexeme.ofText source) : fault? source l = some l.fault? := by
  unfold fault?
  split
  · next hform => exact illegal_eq hl hform
  · next hform => simp [unclosed_eq hl, Lexeme.fault?, Lexeme.cause?, hform]
  · next hform => simp [unclosed_eq hl, Lexeme.fault?, Lexeme.cause?, hform]
  · next hform => simp [unclosed_eq hl, Lexeme.fault?, Lexeme.cause?, hform]
  · next hillegal hcomment hstring hname =>
    unfold Lexeme.fault? Lexeme.cause?
    split
    · next hform => exact absurd hform hillegal
    · next hform => exact absurd hform hcomment
    · next hform => exact absurd hform hstring
    · next hform => exact absurd hform hname
    · rfl

end Lexemes

/-! ## Operators of several words -/

/-- The last token of the run that spells `words` right after `last`. The gaps are cut
out of the source, one for each word that is looked at. -/
def spelled? (source : List Char) (last : Token) :
    List Keyword → List Token → Option (Option Token)
  | [], _ => some (some last)
  | _ :: _, [] => some none
  | word :: words, next :: ahead => do
    let gap ← slice source ⟨last.span.stop, next.span.start⟩
    if next.kind = .keyword word ∧ (!gap.isEmpty && gap.all Text.isBlank) then
      spelled? source next words ahead
    else return none

/-- The rule that applies at `first`. Right after a point nothing is looked at. -/
def wordOperator? (source : List Char) (afterDot : Bool) (first : Token)
    (ahead : List Token) : Option (Option (Token.WordOperator × Token)) :=
  if afterDot then some none
  else do
    let found ← Token.wordOperators.mapM fun rule =>
      if first.kind = .keyword rule.first then
        (spelled? source first rule.others ahead).map fun last => last.map (rule, ·)
      else some none
    return found.findSome? id

/-- The one token for a run of words, with its text cut out of the source. -/
def fuse (source : List Char) (op : Operator) (first last : Token) : Option Token := do
  let text ← slice source ⟨first.span.start, last.span.stop⟩
  return ⟨.operator op, ⟨first.span.start, last.span.stop⟩, first.line, String.ofList text⟩

/-- Replaces the runs of words that spell an operator. The last word of a run is found
by its index. -/
def mergeFrom (source : List Char) (afterDot : Bool) : List Token → Option (List Token)
  | [] => some []
  | t :: ahead => do
    match ← wordOperator? source afterDot t ahead with
    | some (rule, _) =>
      let last ← (t :: ahead)[rule.others.length]?
      let fused ← fuse source rule.operator t last
      return fused :: (← mergeFrom source false (ahead.drop rule.others.length))
    | none => return t :: (← mergeFrom source (t.kind = .punctuation .dot) ahead)
termination_by tokens => tokens.length
decreasing_by
  all_goals
    simp only [List.length_cons, List.length_drop]
    omega

section Merging

variable {source : List Char} {t u first last : Token} {ahead tokens : List Token}

theorem spelled?_eq (h : Token.Placed source (last :: ahead)) (words : List Keyword) :
    spelled? source last words ahead = some (Token.spelled? source last words ahead) := by
  induction words generalizing last ahead with
  | nil => cases ahead <;> rfl
  | cons word words ih =>
    cases ahead with
    | nil => rfl
    | cons next ahead =>
      have hnext : Token.Placed source (next :: ahead) := h.drop 1
      unfold spelled? Token.spelled?
      rw [slice_eq (h.gap List.mem_cons_self)]
      show (if _ then _ else _) = _
      unfold Token.parted
      split
      · exact ih hnext
      · rfl

theorem wordOperator?_eq (afterDot : Bool) (h : Token.Placed source (first :: ahead)) :
    wordOperator? source afterDot first ahead
      = some (if afterDot then none else Token.wordOperator? source first ahead) := by
  have hrules : ∀ rule ∈ Token.wordOperators,
      (if first.kind = .keyword rule.first then
        (spelled? source first rule.others ahead).map fun last => last.map (rule, ·)
      else some none)
        = some (if first.kind = .keyword rule.first then
            (Token.spelled? source first rule.others ahead).map (rule, ·)
          else none) := by
    intro rule _
    split
    · rw [spelled?_eq h]
      rfl
    · rfl
  unfold wordOperator? Token.wordOperator?
  split
  · rfl
  · rw [mapM_eq hrules]
    show some (List.findSome? id (List.map _ _)) = _
    rw [List.findSome?_map]
    rfl

/-- The last word of a run has the index that the number of words tells. -/
theorem getElem?_of_wordOperator? {rule : Token.WordOperator}
    (h : Token.wordOperator? source first ahead = some (rule, last)) :
    (first :: ahead)[rule.others.length]? = some last := by
  obtain ⟨-, -, hlast⟩ := Token.spelled_of_wordOperator? h
  obtain ⟨run, rest, rfl, hwords, -, hend⟩ := Token.exists_run_of_spelled? hlast
  have hlength : rule.others.length = run.length := by
    simpa only [List.length_map] using (congrArg List.length hwords).symm
  rw [List.getLast?_eq_getElem?] at hend
  rw [hlength, ← List.cons_append, List.getElem?_append_left (by simp)]
  simpa using hend

theorem mergeFrom_eq (afterDot : Bool) (h : Token.Placed source tokens) :
    mergeFrom source afterDot tokens = some (Token.mergeFrom source afterDot tokens) := by
  fun_induction Token.mergeFrom source afterDot tokens with
  | case1 => rw [mergeFrom]
  | case2 afterDot t ahead rule last hrule ih =>
    have hfound : Token.wordOperator? source t ahead = some (rule, last) := by
      split at hrule
      · cases hrule
      · exact hrule
    have hindex := getElem?_of_wordOperator? hfound
    have hbounds := h.run (List.mem_of_getElem? hindex)
    have hchecked : wordOperator? source afterDot t ahead = some (some (rule, last)) :=
      (wordOperator?_eq afterDot h).trans (congrArg some hrule)
    have hfuse : fuse source rule.operator t last
        = some (Token.fuse source rule.operator t last) := by
      unfold fuse
      rw [slice_eq hbounds]
      rfl
    have hrest := ih (h.drop (rule.others.length + 1))
    rw [mergeFrom, hchecked]
    show ((t :: ahead)[rule.others.length]? >>= _) = _
    rw [hindex]
    show (fuse source rule.operator t last >>= _) = _
    rw [hfuse]
    show (mergeFrom source false (ahead.drop rule.others.length) >>= _) = _
    rw [hrest]
    rfl
  | case3 afterDot t ahead hrule ih =>
    have hchecked : wordOperator? source afterDot t ahead = some none :=
      (wordOperator?_eq afterDot h).trans (congrArg some hrule)
    have hrest := ih (h.drop 1)
    rw [mergeFrom, hchecked]
    show (mergeFrom source (t.kind = .punctuation .dot) ahead >>= _) = _
    rw [hrest]
    rfl

end Merging

/-! ## Whole texts -/

/-- The tokens of a text and what is wrong with it, with every cut checked. -/
def ofChars (text : List Char) : Option TokenStream := do
  let lexemes := Lexeme.ofText text
  let tokens ← lexemes.mapM (token? text)
  let faults ← lexemes.mapM (fault? text)
  let merged ← mergeFrom text false (tokens.filterMap id)
  return { tokens := merged, eof := TokenStream.eofOf text, faults := faults.filterMap id }

/-- Every text can be cut into tokens without splitting a character. -/
theorem ofChars_eq (text : List Char) : ofChars text = some (TokenStream.ofChars text) := by
  have htokens : ((Lexeme.ofText text).map Lexeme.token?).filterMap id
      = (Lexeme.ofText text).filterMap Lexeme.token? := by
    rw [List.filterMap_map]
    rfl
  have hfaults : ((Lexeme.ofText text).map Lexeme.fault?).filterMap id
      = (Lexeme.ofText text).filterMap Lexeme.fault? := by
    rw [List.filterMap_map]
    rfl
  have hread : (Lexeme.ofText text).mapM (token? text)
      = some ((Lexeme.ofText text).map Lexeme.token?) := mapM_eq fun l hl => token?_eq hl
  have hchecked : (Lexeme.ofText text).mapM (fault? text)
      = some ((Lexeme.ofText text).map Lexeme.fault?) := mapM_eq fun l hl => fault?_eq hl
  unfold ofChars
  dsimp only
  rw [hread, hchecked]
  show (mergeFrom text false (((Lexeme.ofText text).map Lexeme.token?).filterMap id) >>= _) = _
  rw [htokens, mergeFrom_eq false (TokenStream.placed_lexemes text)]
  show some _ = _
  rw [hfaults]
  rfl

end Cypher.Checked
