import Cypher.Proofs.Checked.Lexing
import Cypher.Proofs.Closed.Sited

/-!
# Reading a query with every step checked

The grammar counts brackets down and takes the length of what it skips.
Nothing in the counting itself keeps a counter above zero: a run that skips
stops at a closing bracket that it has not opened, and the search for the end
of a group starts at its parenthesis. Here the productions that count are
written once more with subtractions that answer nothing below zero, and with
them the productions around them up to the query. They read every text as
the grammar does.

Tokens are found by their index in the one list of a text. The index stays
in range because the last token of the list stands for all behind it.
-/

namespace Cypher

open Grammar

namespace Checked

open Token (Kind)

/-! ## Places in the list of tokens -/

/-- A list of tokens, the end of the text included, and the index of the token due next. -/
structure Cursor where
  tokens : List Token
  index : Nat

namespace Cursor

/-- The token `n` places on. The last token stands for all behind it. -/
def nth? (c : Cursor) (n : Nat) : Option Token :=
  c.tokens[min (c.index + n) (c.tokens.length - 1)]?

/-- The token consumed last; before the first, the first token. -/
def previous? (c : Cursor) : Option Token :=
  if 0 < c.index then do c.tokens[← sub c.index 1]? else c.nth? 0

/-- Consumes a token, unless the last one is due. -/
def advance (c : Cursor) : Cursor :=
  if c.index < c.tokens.length - 1 then { c with index := c.index + 1 } else c

def advanceBy : Nat → Cursor → Cursor
  | 0, c => c
  | n + 1, c => c.advance.advanceBy n

/-- The cursor stands where the state does: the tokens in front of it have been consumed,
and those that the state holds follow. -/
def Shows (c : Cursor) (s : State) : Prop :=
  ∃ done, c.tokens = done ++ (s.ahead ++ [s.eof]) ∧ c.index = done.length
    ∧ s.previous = done.getLast?

variable {c : Cursor} {s : State}

theorem Shows.advance (h : c.Shows s) : c.advance.Shows s.advance := by
  obtain ⟨done, htokens, hindex, hprevious⟩ := h
  unfold Cursor.advance State.advance
  cases hahead : s.ahead with
  | nil =>
    have hlast : ¬ c.index < c.tokens.length - 1 := by
      simp [htokens, hindex, hahead]
    rw [if_neg hlast]
    exact ⟨done, htokens, hindex, hprevious⟩
  | cons t rest =>
    have hnext : c.index < c.tokens.length - 1 := by
      simp [htokens, hindex, hahead]
    rw [if_pos hnext]
    exact ⟨done ++ [t], by simp [htokens, hahead], by simp [hindex], by simp⟩

theorem Shows.advanceBy (h : c.Shows s) (n : Nat) : (c.advanceBy n).Shows (s.advanceBy n) := by
  induction n generalizing c s with
  | zero => exact h
  | succ n ih => exact ih h.advance

/-- Every look ahead finds a token. -/
theorem Shows.nth?_eq (h : c.Shows s) (n : Nat) : c.nth? n = some (s.ahead[n]?.getD s.eof) := by
  obtain ⟨done, htokens, hindex, -⟩ := h
  have hlength : c.tokens.length - 1 = done.length + s.ahead.length := by
    rw [htokens]
    simp
  unfold nth?
  rw [hlength, hindex, Nat.add_min_add_left, htokens,
    List.getElem?_append_right (Nat.le_add_right _ _), Nat.add_sub_cancel_left]
  by_cases hn : n < s.ahead.length
  · rw [Nat.min_eq_left (Nat.le_of_lt hn), List.getElem?_append_left hn,
      List.getElem?_eq_getElem hn, Option.getD_some]
  · rw [Nat.min_eq_right (Nat.not_lt.1 hn), List.getElem?_concat_length,
      List.getElem?_eq_none (Nat.not_lt.1 hn), Option.getD_none]

/-- So does every look back. -/
theorem Shows.previous?_eq (h : c.Shows s) :
    c.previous? = some (s.previous.getD s.current) := by
  have hcurrent : c.nth? 0 = some s.current := by
    rw [h.nth?_eq 0]
    unfold State.current
    cases s.ahead <;> rfl
  obtain ⟨done, htokens, hindex, hprevious⟩ := h
  unfold previous?
  cases hdone : done.getLast? with
  | none =>
    rw [List.getLast?_eq_none_iff] at hdone
    rw [hdone] at hindex hprevious
    rw [if_neg (by simp [hindex]), hcurrent, hprevious]
    rfl
  | some t =>
    obtain ⟨front, rfl⟩ := List.getLast?_eq_some_iff.1 hdone
    rw [if_pos (by simp [hindex]), sub_eq (by simp [hindex]), hprevious, hdone]
    show c.tokens[c.index - 1]? = some t
    simp [htokens, hindex]

end Cursor

/-- The cursor in the tokens of a text, some of which have been consumed. -/
def cursorAfter (text : String) (consumed : Nat) : Cursor :=
  Cursor.advanceBy consumed ⟨(TokenStream.ofText text).toList, 0⟩

/-- The state of the reading there. -/
def stateAfter (text : String) (consumed : Nat) : State :=
  State.advanceBy consumed
    { ahead := (TokenStream.ofText text).tokens, eof := (TokenStream.ofText text).eof }

theorem shows_cursorAfter (text : String) (consumed : Nat) :
    (cursorAfter text consumed).Shows (stateAfter text consumed) :=
  Cursor.Shows.advanceBy ⟨[], rfl, rfl, rfl⟩ consumed

/-! ## Counters -/

/-- The number of open brackets after a token, if none is closed that is not open. -/
def nestingAfter (nesting : Nat) : Kind → Option Nat
  | .punctuation .lparen | .punctuation .lbracket | .punctuation .lbrace => some (nesting + 1)
  | .punctuation .rparen | .punctuation .rbracket | .punctuation .rbrace => sub nesting 1
  | _ => some nesting

/-- The number of tokens to skip. -/
def skipLength (nesting : Nat) : List Token → Option Nat
  | [] => some 0
  | t :: rest =>
    if t.kind = .eof ∨ nesting = 0 ∧ endsExpression t.kind then some 0
    else do return (← skipLength (← nestingAfter nesting t.kind) rest) + 1

/-- What follows the parenthesis that closes the open ones. -/
def afterGroup (nesting : Nat) : List Token → Option (Option (List Token))
  | [] => some none
  | t :: rest =>
    match t.kind with
    | .punctuation .lparen => afterGroup (nesting + 1) rest
    | .punctuation .rparen => do
      let left ← sub nesting 1
      if left = 0 then return some rest else afterGroup left rest
    | _ => afterGroup nesting rest

/-- Whether a node starts here, and what follows it passes the test. -/
def nodeBefore (test : List Token → Bool) (ahead : List Token) : Option Bool :=
  if nodeAhead ahead then do
    match ← afterGroup 0 ahead with
    | some rest => return test rest
    | none => return false
  else some false

/-- Whether a path of more than one node starts here. -/
def patternPredicateAhead (ahead : List Token) : Option Bool :=
  nodeBefore relationshipAhead ahead

/-- Whether a pattern comprehension goes on here. -/
def patternComprehensionAhead (ahead : List Token) : Option Bool :=
  nodeBefore
    (fun rest => relationshipAhead rest || kindAt rest 0 = some (.keyword .WHERE)
      || kindAt rest 0 = some (.operator .pipe))
    (match kindAt ahead 0, kindAt ahead 1 with
    | some (.identifier _), some (.operator .eq) => ahead.drop 2
    | _, _ => ahead)

/-- Where no bracket is open a closing one ends the skipping, so it is not counted. -/
theorem nestingAfter_eq {nesting : Nat} {kind : Kind}
    (h : ¬ (nesting = 0 ∧ endsExpression kind = true)) :
    nestingAfter nesting kind = some (Grammar.nestingAfter nesting kind) := by
  have hopen (hends : endsExpression kind = true) : 1 ≤ nesting :=
    Nat.pos_of_ne_zero fun hzero => h ⟨hzero, hends⟩
  cases kind with
  | punctuation mark =>
    cases mark with
    | rparen | rbracket | rbrace => exact sub_eq (hopen rfl)
    | _ => rfl
  | _ => rfl

theorem skipLength_eq (nesting : Nat) (tokens : List Token) :
    skipLength nesting tokens = some (Grammar.skipLength nesting tokens) := by
  induction tokens generalizing nesting with
  | nil => rfl
  | cons t rest ih =>
    unfold skipLength Grammar.skipLength
    split
    · rfl
    · next hgo =>
      rw [nestingAfter_eq fun hends => hgo (.inr hends)]
      show (skipLength _ rest >>= _) = _
      rw [ih]
      rfl

/-- Inside a group the count does not come below one before the group is closed. -/
theorem afterGroup_eq {nesting : Nat} (h : 0 < nesting) (tokens : List Token) :
    afterGroup nesting tokens = some (Grammar.afterGroup nesting tokens) := by
  fun_induction Grammar.afterGroup nesting tokens with
  | case1 => rfl
  | case2 nesting t rest hkind ih =>
    rw [afterGroup, hkind]
    exact ih (Nat.succ_pos _)
  | case3 nesting t rest hkind hlast =>
    rw [afterGroup, hkind]
    show (sub nesting 1 >>= _) = _
    rw [sub_eq h]
    exact if_pos hlast
  | case4 nesting t rest hkind hmore ih =>
    rw [afterGroup, hkind]
    show (sub nesting 1 >>= _) = _
    rw [sub_eq h, ← ih (Nat.pos_of_ne_zero hmore)]
    exact if_neg hmore
  | case5 nesting t rest hopen hclose ih =>
    unfold afterGroup
    split
    · next hkind => exact absurd hkind hopen
    · next hkind => exact absurd hkind hclose
    · exact ih h

/-- A node starts with the parenthesis that opens its group. -/
theorem afterGroup_of_nodeAhead {tokens : List Token} (h : nodeAhead tokens = true) :
    afterGroup 0 tokens = some (Grammar.afterGroup 0 tokens) := by
  unfold nodeAhead at h
  rw [Bool.and_eq_true, decide_eq_true_iff] at h
  cases tokens with
  | nil => cases h.1
  | cons t rest =>
    have hkind : t.kind = .punctuation .lparen := Option.some.inj h.1
    unfold afterGroup Grammar.afterGroup
    rw [hkind]
    exact afterGroup_eq Nat.one_pos rest

-- Without the test for a node, the parenthesis that closes nothing would be counted.
example : afterGroup 0 [⟨.punctuation .rparen, ⟨0, 1⟩, 1, ")"⟩] = none := rfl

theorem nodeBefore_eq (test : List Token → Bool) (ahead : List Token) :
    nodeBefore test ahead
      = some (nodeAhead ahead && match Grammar.afterGroup 0 ahead with
          | some rest => test rest
          | none => false) := by
  unfold nodeBefore
  split
  · next hnode =>
    rw [afterGroup_of_nodeAhead hnode, hnode]
    cases Grammar.afterGroup 0 ahead <;> rfl
  · next hnode => rw [Bool.eq_false_iff.2 hnode, Bool.false_and]

theorem patternPredicateAhead_eq (ahead : List Token) :
    patternPredicateAhead ahead = some (Grammar.patternPredicateAhead ahead) :=
  nodeBefore_eq _ ahead

theorem patternComprehensionAhead_eq (ahead : List Token) :
    patternComprehensionAhead ahead = some (Grammar.patternComprehensionAhead ahead) :=
  nodeBefore_eq _ _

/-! ## Productions -/

/-- The cause of a failed check: a matter of lexemes, which no production reports. -/
def mishap : Cause := .unclosed .comment

/-- Goes on with the answer of a check, or stops. -/
def checked (answer : Option α) : Parser α :=
  match answer with
  | some a => pure a
  | none => fail mishap

/-- Skips the operand due here. The length of what is skipped is taken for the log. -/
def skipOperand : Parser Expression := fun s =>
  let fault : Fault := ⟨.expectedExpression, s.current.site⟩
  let start := s.current.span.start
  match skipLength 0 s.ahead with
  | none => fail mishap s
  | some skipped =>
    let s' := { s with faults := s.faults ++ [fault] }.advanceBy skipped
    let stop := if skipped = 0 then start else s'.stop
    match sub stop start with
    | none => fail mishap s'
    | some _ => .ok (.hole ⟨start, stop⟩) s'

section Productions

variable (config : Config) (expr : Parser Expression) (begin : Nat)

/-- Reports the token due here as no start of an expression. -/
def recoverExpression : Parser Expression :=
  if config.recover then skipOperand else fail .expectedExpression

/-- What starts with a parenthesis. -/
def group : Parser Expression := do
  if ← checked (patternPredicateAhead (← lookAhead)) then
    return .patternPredicate (← patternChain expr none begin)
  else parenthesized expr

/-- What starts with a bracket. -/
def bracket : Parser Expression := do
  let ahead ← lookAhead
  if listComprehensionAhead ahead then listComprehension expr begin
  else if ← checked (patternComprehensionAhead (ahead.drop 1)) then
    patternComprehension expr begin
  else listLiteral expr begin

/-- An atom. -/
def atom : Parser Expression := do
  let t ← current
  match t.kind with
  | .integer digits => leaf (.literal (.integer digits))
  | .float digits => leaf (.literal (.float digits))
  | .string value => leaf (.literal (.string value))
  | .keyword .TRUE => leaf (.literal (.boolean true))
  | .keyword .FALSE => leaf (.literal (.boolean false))
  | .keyword .NULL => leaf (.literal .null)
  | .parameter name => leaf (.parameter name)
  | .operator .star => leaf .star
  | .punctuation .lparen => group expr t.span.start
  | .punctuation .lbracket => bracket expr t.span.start
  | .punctuation .lbrace => mapLiteral expr
  | .keyword .CASE => caseExpression expr t.span.start
  | .keyword .EXISTS => existsCall expr t.span.start
  | .identifier name => named expr name t.span
  | _ => recoverExpression config

/-- An atom with the suffixes behind it. -/
def operand : Parser Operand := do
  let tree ← atom config expr
  checkHeight config tree.height
  iterate (suffix config expr) ⟨tree, tree.height⟩

/-- An expression over the operands that `operand` reads. -/
def operators (operand : Parser Operand) : Parser Expression := do
  let reached ← iterate (round config operand) {}
  let reduced := reached.reduceAll config.maxDepth
  checkStacks config reduced
  match reduced.operands with
  | top :: _ => return top.tree
  | [] => recoverExpression config

/-- An expression that may nest `room` levels deep. -/
def expressionWithin : Nat → Parser Expression
  | 0 => tooDeep config
  | room + 1 => nested config (operators config (operand config (expressionWithin room)))

/-- An expression at the outermost level. -/
def expression : Parser Expression := expressionWithin config config.maxDepth

/-- A run of clauses. -/
def singleQuery : Parser SingleQuery := do
  let begin ← start
  let clauses ← many (clause (expression config))
  if clauses.isEmpty then fail (.unexpected .noClause)
  else return ⟨clauses, ← spanFrom begin⟩

/-- The next single query of a union. -/
def unionPart (left : Joined) : Parser Joined := do
  let height := left.height + 1
  checkHeight config height
  let all ← consume (.keyword .ALL)
  let right ← singleQuery config
  let span := ⟨left.body.span.start, right.span.stop⟩
  return ⟨.union all left.body right span, height⟩

/-- Joins one more single query to a union, if there is one. -/
def joinPart (left : Joined) : Parser (ForInStep Joined) := do
  if ← consume (.keyword .UNION) then return .yield (← unionPart config left)
  else return .done left

/-- A single query with all that are joined to it. -/
def queryBody : Parser QueryBody := do
  let first ← singleQuery config
  let whole ← iterate (joinPart config) ⟨.single first, 1⟩
  return whole.body

/-- A whole text. -/
def query : Parser Query := do
  let begin ← start
  let header ← version
  let body ← queryBody config
  endOfQuery
  return ⟨header, body, ← spanFrom begin⟩

end Productions

/-! ## The same runs -/

/-- The second parser runs as the first does wherever the tokens of the list are ahead,
and the first does not leave them. -/
structure Agrees (tokens : List Token) (α : Type) (p p' : Parser α) : Prop where
  same : ∀ {s}, s.ahead <:+ tokens → p' s = p s
  within : ∀ {s a s'}, s.ahead <:+ tokens → p s = .ok a s' → s'.ahead <:+ tokens

namespace Agrees

variable {tokens : List Token} {config : Config} {α β : Type} {p p' p'' : Parser α}
  {f f' : α → Parser β}

/-- A parser that consumes at most the token due next agrees with itself. -/
theorem of_moves (h : ∀ {s a s'}, p s = .ok a s' → s' = s ∨ s' = s.advance) :
    Agrees tokens α p p where
  same _ := rfl
  within {s _ _} hs hrun := by
    rcases h hrun with rfl | rfl
    · exact hs
    · exact s.ahead_advance.trans hs

theorem of_steps (h : Steps p) : Agrees tokens α p p := by
  apply of_moves
  intro s a s' hrun
  rcases h s with ⟨b, hstep | hstep⟩ | ⟨cause, -, hstep⟩ <;> cases hstep.symm.trans hrun
  · exact .inl rfl
  · exact .inr rfl

theorem fail (cause : Cause) : Agrees tokens α (fail cause) (fail cause) :=
  of_moves fun hrun => by cases hrun

theorem bind (hp : Agrees tokens α p p') (hf : ∀ a, Agrees tokens β (f a) (f' a)) :
    Agrees tokens β (p >>= f) (p' >>= f') where
  same {s} hs := by
    have hsame := hp.same hs
    cases hrun : p s with
    | ok a s' =>
      rw [bind_ok hrun, bind_ok (hsame.trans hrun)]
      exact (hf a).same (hp.within hs hrun)
    | error fault s' => rw [bind_error hrun, bind_error (hsame.trans hrun)]
  within hs hrun := by
    obtain ⟨a, s₁, hfirst, hsecond⟩ := bind_eq_ok hrun
    exact (hf a).within (hp.within hs hfirst) hsecond

theorem nested (h : Agrees tokens α p p') :
    Agrees tokens α (nested config p) (nested config p') where
  same {s} hs := by
    unfold Grammar.nested
    rw [h.same (s := { s with depth := s.depth + 1 }) hs]
  within {s a s'} hs hrun := by
    unfold Grammar.nested at hrun
    split at hrun
    · split at hrun
      · next hinner =>
        have hwithin := h.within (s := { s with depth := s.depth + 1 }) hs hinner
        cases hrun
        exact hwithin
      · cases hrun
    · cases hrun

/-- What runs in the same way can take the place of the second parser. -/
theorem trans (h : Agrees tokens α p p') (hsame : ∀ {s}, s.ahead <:+ tokens → p'' s = p' s) :
    Agrees tokens α p p'' :=
  ⟨fun hs => (hsame hs).trans (h.same hs), h.within⟩

end Agrees

/-! ## What is skipped -/

/-- Tokens that take up bytes, in the order in which they start. -/
structure Ordered (tokens : List Token) : Prop where
  nonempty : ∀ t ∈ tokens, t.span.start ≤ t.span.stop
  starts : tokens.Pairwise fun t u => t.span.start ≤ u.span.start

section Skipping

variable {tokens : List Token} {s : State}

/-- The token consumed last is one of those that were ahead. -/
theorem previous_advanceBy {ahead : List Token} {t : Token} (hprevious : s.previous = some t)
    (ht : t ∈ ahead) (hahead : ∀ u ∈ s.ahead, u ∈ ahead) (n : Nat) :
    ∃ u ∈ ahead, (s.advanceBy n).previous = some u := by
  induction n generalizing s t with
  | zero => exact ⟨t, ht, hprevious⟩
  | succ n ih =>
    rw [State.advanceBy]
    unfold State.advance
    cases hs : s.ahead with
    | nil => exact ih hprevious ht hahead
    | cons u rest =>
      rw [hs] at hahead
      exact ih rfl (hahead u List.mem_cons_self) fun v hv => hahead v (List.mem_cons_of_mem _ hv)

/-- What has been skipped stops behind the place where the skipping started. -/
theorem start_le_stop_advanceBy (horder : Ordered tokens) (hs : s.ahead <:+ tokens) {n : Nat}
    (hn : n ≠ 0) (hahead : s.ahead ≠ []) : s.current.span.start ≤ (s.advanceBy n).stop := by
  obtain ⟨t, rest, hcons⟩ := List.exists_cons_of_ne_nil hahead
  obtain ⟨m, rfl⟩ := Nat.exists_eq_succ_of_ne_zero hn
  have hadvance : s.advance = { s with previous := some t, ahead := rest } := by
    unfold State.advance
    rw [hcons]
  have hlast : s.advance.previous = some t := by rw [hadvance]
  have hrest : ∀ v ∈ s.advance.ahead, v ∈ t :: rest := by
    rw [hadvance]
    exact fun v hv => List.mem_cons_of_mem _ hv
  obtain ⟨u, hu, hprevious⟩ := previous_advanceBy hlast List.mem_cons_self hrest m
  have hcurrent : s.current = t := by rw [State.current, hcons, List.headD_cons]
  rw [hcons] at hs
  have hstarts : t.span.start ≤ u.span.start := by
    rcases List.mem_cons.1 hu with rfl | hu
    · exact Nat.le_refl _
    · exact (List.pairwise_cons.1 (horder.starts.sublist hs.sublist)).1 u hu
  rw [State.advanceBy, State.stop, hprevious, hcurrent]
  exact Nat.le_trans hstarts (horder.nonempty u (hs.mem hu))

theorem skipOperand_same (horder : Ordered tokens) (hs : s.ahead <:+ tokens) :
    skipOperand s = Grammar.skipOperand s := by
  have hstop : s.current.span.start ≤
      if Grammar.skipLength 0 s.ahead = 0 then s.current.span.start
      else (State.advanceBy (Grammar.skipLength 0 s.ahead)
        { s with faults := s.faults ++ [⟨.expectedExpression, s.current.site⟩] }).stop := by
    split
    · exact Nat.le_refl _
    · next hskipped =>
      have hahead : s.ahead ≠ [] := by
        intro hnil
        rw [hnil] at hskipped
        exact hskipped rfl
      exact start_le_stop_advanceBy
        (s := { s with faults := s.faults ++ [⟨.expectedExpression, s.current.site⟩] })
        horder hs hskipped hahead
  unfold skipOperand Grammar.skipOperand
  rw [skipLength_eq]
  dsimp only
  rw [sub_eq hstop]

end Skipping

/-! ## The whole grammar -/

section Grammar

variable {tokens : List Token} {config : Config}

theorem agrees_recoverExpression (horder : Ordered tokens) :
    Agrees tokens Expression (Grammar.recoverExpression config) (recoverExpression config) := by
  unfold Grammar.recoverExpression recoverExpression
  split
  · refine ⟨fun hs => skipOperand_same horder hs, fun {s a s'} hs hrun => ?_⟩
    have hwithin : ∀ (n : Nat) (s : State), s.ahead <:+ tokens →
        (s.advanceBy n).ahead <:+ tokens := by
      intro n
      induction n with
      | zero => exact fun s hs => hs
      | succ n ih => exact fun s hs => ih _ (s.ahead_advance.trans hs)
    cases hrun
    exact hwithin _ _ hs
  · exact .fail _

theorem closed_agrees (config : Config) (horder : Ordered tokens) :
    Closed config (Agrees tokens) where
  step := .of_steps
  bind := .bind
  nested := .nested
  recover := ⟨fun _ => rfl, (agrees_recoverExpression horder).within⟩

variable {expr expr' : Parser Expression} {begin : Nat}

theorem group_eq : group expr begin = Grammar.group expr begin := by
  unfold group Grammar.group
  simp only [patternPredicateAhead_eq]
  rfl

theorem bracket_eq : bracket expr begin = Grammar.bracket expr begin := by
  unfold bracket Grammar.bracket
  simp only [patternComprehensionAhead_eq]
  rfl

theorem agrees_atom (horder : Ordered tokens) (hexpr : Agrees tokens _ expr expr') :
    Agrees tokens Expression (Grammar.atom config expr) (atom config expr') := by
  apply ((closed_agrees config horder).atom hexpr).trans
  intro s hs
  unfold atom Grammar.atom
  simp only [group_eq, bracket_eq]
  rw [bind_ok (p := Grammar.current) (s := s) rfl, bind_ok (p := Grammar.current) (s := s) rfl]
  generalize s.current.kind = kind
  split
  case h_15 =>
    -- No operand starts here, which also decides the other match if that is one of its own.
    first
    | exact (agrees_recoverExpression horder).same hs
    | split <;> first | exact (agrees_recoverExpression horder).same hs | simp_all
  all_goals rfl

theorem agrees_operand (horder : Ordered tokens) (hexpr : Agrees tokens _ expr expr') :
    Agrees tokens Operand (Grammar.operand config expr) (operand config expr') := by
  have closed := closed_agrees config horder
  exact (agrees_atom horder hexpr).bind fun _ =>
    closed.next .checkHeight fun _ =>
    closed.iterate (fun _ => closed.suffix hexpr) _

theorem agrees_checkStacks {c : Stacks} :
    Agrees tokens Unit (checkStacks config c) (checkStacks config c) := by
  unfold checkStacks
  split
  · exact .fail _
  · exact .of_steps (.pure ())

theorem agrees_checkChain {level : Level} {c : Stacks} :
    Agrees tokens Unit (checkChain level c) (checkChain level c) := by
  unfold checkChain
  split
  · exact .of_steps (.pure ())
  · split
    · exact .fail _
    · exact .of_steps (.pure ())

theorem agrees_shift {role : Pending.Role} {level : Level} {c : Stacks} :
    Agrees tokens Stacks (shift role level c) (shift role level c) := by
  apply Agrees.of_moves
  intro s c' s' hrun
  cases hrun
  exact .inr rfl

/-- The run of operands and operators counts nothing by itself. -/
theorem agrees_round (horder : Ordered tokens) {operand operand' : Parser Operand}
    (hoperand : Agrees tokens _ operand operand') (c : Stacks) :
    Agrees tokens _ (round config operand c) (round config operand' c) := by
  have closed := closed_agrees config horder
  have hprefix (c : Stacks) : Agrees tokens _ (shiftPrefix c) (shiftPrefix c) := by
    apply closed.next .current
    intro t
    split
    · exact closed.map agrees_shift _
    · exact closed.step (.pure _)
  have hcheck (c : Stacks) :
      Agrees tokens _ (applyNullCheck config c) (applyNullCheck config c) := by
    apply closed.next .current
    intro t
    split
    · exact agrees_checkStacks.bind fun _ => closed.map (closed.step .advance) _
    · exact closed.step (.pure _)
  have hinfix (c : Stacks) : Agrees tokens _ (shiftInfix config c) (shiftInfix config c) := by
    apply closed.next .current
    intro t
    split
    · exact agrees_checkStacks.bind fun _ => agrees_checkChain.bind fun _ =>
        closed.map agrees_shift _
    · exact closed.step (.pure _)
  exact (closed.iterate hprefix c).bind fun _ => hoperand.bind fun _ =>
    (closed.iterate hcheck _).bind hinfix

theorem agrees_operators (horder : Ordered tokens) {operand operand' : Parser Operand}
    (hoperand : Agrees tokens _ operand operand') :
    Agrees tokens Expression (Grammar.operators config operand)
      (operators config operand') := by
  have closed := closed_agrees config horder
  apply (closed.iterate (agrees_round horder hoperand) _).bind
  intro reached
  apply agrees_checkStacks.bind
  intro _
  cases (reached.reduceAll config.maxDepth).operands with
  | nil => exact agrees_recoverExpression horder
  | cons top rest => exact closed.step (.pure _)

theorem agrees_expressionWithin (horder : Ordered tokens) (room : Nat) :
    Agrees tokens Expression (Grammar.expressionWithin config room)
      (expressionWithin config room) := by
  induction room with
  | zero => exact .of_steps .tooDeep
  | succ room ih => exact (agrees_operators horder (agrees_operand horder ih)).nested

theorem agrees_singleQuery (horder : Ordered tokens) :
    Agrees tokens SingleQuery (Grammar.singleQuery config) (singleQuery config) := by
  have closed := closed_agrees config horder
  apply closed.next .start
  intro begin
  apply (closed.many (closed.clause (agrees_expressionWithin horder config.maxDepth))).bind
  intro clauses
  split
  · exact .fail _
  · exact closed.spanned begin _

theorem agrees_joinPart (horder : Ordered tokens) (left : Joined) :
    Agrees tokens _ (Grammar.joinPart config left) (joinPart config left) := by
  have closed := closed_agrees config horder
  have hpart : Agrees tokens Joined (Grammar.unionPart config left) (unionPart config left) :=
    closed.next .checkHeight fun _ => closed.next .consume fun _ =>
      closed.map (agrees_singleQuery horder) _
  apply closed.next .consume
  intro due
  split
  · exact closed.map hpart _
  · exact closed.step (.pure _)

/-- The checked grammar reads every query as the grammar does. -/
theorem agrees_query (horder : Ordered tokens) :
    Agrees tokens Query (Grammar.query config) (query config) := by
  have closed := closed_agrees config horder
  have hbody : Agrees tokens QueryBody (Grammar.queryBody config) (queryBody config) :=
    (agrees_singleQuery horder).bind fun _ =>
      closed.map (closed.iterate (agrees_joinPart horder) _) _
  exact closed.next .start fun begin => closed.version.bind fun _ => hbody.bind fun _ =>
    closed.endOfQuery.bind fun _ => closed.spanned begin _

end Grammar

/-! ## Whole texts -/

/-- The lengths of the labels of a diagnostic, cut to the text that they point at. -/
def labelLengths (d : Diagnostic) (source : Source) : Option (List Nat) :=
  d.labels.mapM fun label =>
    let span := source.clamp label.span
    sub span.stop span.start

/-- Reads tokens as a query, unless a check fails. -/
def ofTokens (stream : TokenStream) (config : Config) : Option Outcome :=
  match query config { ahead := stream.tokens, eof := stream.eof } with
  | .ok query s => some ⟨some query, stream.faults ++ s.faults⟩
  | .error fault s =>
    if fault.cause = mishap then none
    else some ⟨none, stream.faults ++ s.faults ++ [fault]⟩

/-- Reads a text as a query, unless a check fails. -/
def ofText (text : String) (config : Config) : Option Outcome := do
  ofTokens (← ofChars text.toList) config

theorem labelLengths_eq (d : Diagnostic) (source : Source) :
    labelLengths d source
      = some ((d.report source).labels.map fun label => label.span.length) := by
  show _ = some ((d.labels.map _).map _)
  rw [List.map_map]
  exact mapM_eq fun label _ => sub_eq (Span.clamp_ordered source.length label.span)

theorem ofTokens_eq {stream : TokenStream} (heof : stream.eof.kind = .eof)
    (horder : Ordered stream.tokens) (config : Config) :
    ofTokens stream config = some (Outcome.ofTokens stream config) := by
  have hstart : State.Within stream { ahead := stream.tokens, eof := stream.eof } :=
    ⟨List.suffix_refl _, rfl, List.forall_mem_nil _⟩
  unfold ofTokens Outcome.ofTokens
  rw [(agrees_query horder).same (List.suffix_refl _)]
  cases hrun : Grammar.query config { ahead := stream.tokens, eof := stream.eof } with
  | ok q s => rfl
  | error fault s =>
    have hcause : fault.cause ≠ mishap := by
      intro hmishap
      have hgrammatical := ((keeps_query heof hstart).error hrun).2.cause
      rw [hmishap] at hgrammatical
      exact hgrammatical
    exact if_neg hcause

theorem ordered_tokens (text : List Char) : Ordered (TokenStream.ofChars text).tokens where
  nonempty t ht := Nat.le_of_lt ((TokenStream.apart_tokens text).nonempty t ht)
  starts := (List.pairwise_append.1 (TokenStream.pairwise_start_tokens text)).1

/-- Nothing that is read makes the reading break off, whatever the text and the nesting
limit. Cutting the text into tokens splits no character and runs backwards nowhere; no
count of brackets and no length comes below zero; and however many tokens have been
consumed, the look ahead and the look back find the tokens that are meant. -/
theorem completes (text : String) (config : Config) :
    ofChars text.toList = some (TokenStream.ofText text)
      ∧ ofText text config = some (Outcome.ofText text config)
      ∧ (∀ d ∈ (Outcome.ofText text config).diagnostics, ∀ source,
        labelLengths d source
          = some ((d.report source).labels.map fun label => label.span.length))
      ∧ ∀ consumed n,
        (cursorAfter text consumed).nth? n
            = some ((stateAfter text consumed).ahead[n]?.getD (stateAfter text consumed).eof)
          ∧ (cursorAfter text consumed).previous?
            = some ((stateAfter text consumed).previous.getD
                (stateAfter text consumed).current) := by
  refine ⟨ofChars_eq _, ?_, fun d _ source => labelLengths_eq d source, fun consumed n => ?_⟩
  · unfold ofText
    rw [ofChars_eq]
    exact ofTokens_eq rfl (ordered_tokens _) config
  · have hshows := shows_cursorAfter text consumed
    exact ⟨hshows.nth?_eq n, hshows.previous?_eq⟩

end Checked

end Cypher
