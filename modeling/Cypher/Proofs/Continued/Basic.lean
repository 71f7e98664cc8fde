import Cypher.Proofs.Leads
import Cypher.Proofs.Reading.Clause

/-!
# A text continued

What is read from a text that ends is compared with what is read from the
same text with more behind it, where the first token behind it can start a
clause or is `UNION`. No production takes such a token, except as the start
of a clause or as a name; so it makes no difference whether the text ends or
goes on, as long as nothing in it is left to what follows. Two things could
be: a parenthesis that is still open, because the look at what follows its
partner goes on until it is found, and a point or colon that stands last,
because it waits for a name.

A text that has been read leaves neither. So each production is told by two
things at once: with how many parentheses open it is left, and that it reads
the same from the text continued.
-/

namespace Cypher

open Token (Kind)

/-! ## Open parentheses -/

/-- The number of parentheses open behind a token, if it closes none that is
not open. The end of a text is not passed. -/
def Token.Kind.nest (n : Nat) : Kind → Option Nat
  | .punctuation .lparen => some (n + 1)
  | .punctuation .rparen => if n = 0 then none else some (n - 1)
  | .eof => none
  | _ => some n

/-- Whether a name or a value must follow. -/
def Token.Kind.awaits : Kind → Bool
  | .punctuation .dot | .punctuation .colon => true
  | _ => false

/-- Whether a token of this kind is no parenthesis and ends no clause. -/
def Token.Kind.isInner : Kind → Bool
  | .punctuation .lparen | .punctuation .rparen | .eof => false
  | kind => !kind.startsClause

namespace Grammar

theorem endsClause_of_inner {kind : Kind} (h : kind.isInner = true) : endsClause kind = false := by
  unfold Token.Kind.isInner at h
  unfold endsClause
  split at h <;> simp_all

theorem nest_of_inner {kind : Kind} (h : kind.isInner = true) (n : Nat) : kind.nest n = some n := by
  unfold Token.Kind.isInner at h
  unfold Token.Kind.nest
  split at h <;> simp_all

/-- The number of parentheses open behind a run of tokens, with `n` open in
front of it. -/
def nest (n : Nat) : List Token → Option Nat
  | [] => some n
  | t :: ts => (t.kind.nest n).bind fun m => nest m ts

theorem nest_append (n : Nat) (ts ts' : List Token) :
    nest n (ts ++ ts') = (nest n ts).bind fun m => nest m ts' := by
  induction ts generalizing n with
  | nil => rfl
  | cons t ts ih =>
    rw [List.cons_append, nest, nest, Option.bind_assoc]
    simp only [ih]

/-- Where all open parentheses are closed in the end, each of them is. -/
theorem afterGroup_ne_none {n m : Nat} {ts : List Token} (hnest : nest n ts = some 0)
    (hm : 0 < m) (hmn : m ≤ n) : afterGroup m ts ≠ none := by
  induction ts generalizing n m with
  | nil =>
    cases hnest
    omega
  | cons t ts ih =>
    obtain ⟨k, hk, hrest⟩ := Option.bind_eq_some_iff.1 hnest
    unfold afterGroup
    unfold Token.Kind.nest at hk
    split
    · next hkind =>
      rw [hkind] at hk
      cases hk
      exact ih hrest (by omega) (by omega)
    · next hkind =>
      rw [hkind] at hk
      simp only [Option.ite_none_left_eq_some, Option.some.injEq] at hk
      split
      · exact nofun
      · exact ih hrest (by omega) (by omega)
    · next hopen hclose =>
      have hkn : k = n := by
        split at hk <;> simp_all
      exact ih hrest hm (hkn ▸ hmn)

/-- Nothing in the text is left to what follows it. -/
structure Complete (whole : List Token) : Prop where
  closed : ∀ ts, ts <:+ whole → kindAt ts 0 = some (.punctuation .lparen) →
    afterGroup 0 ts ≠ none
  settled : ∀ t, [t] <:+ whole → t.kind.awaits = false

/-! ## Two texts -/

/-- What stands behind a text: tokens of which the first may start a clause or
is `UNION`. -/
structure Sequel where
  first : Token
  rest : List Token
  eof : Token
  word : Keyword
  kind : first.kind = .keyword word
  starts : word.startsClause = true

namespace Sequel

def tokens (more : Sequel) : List Token := more.first :: more.rest

theorem endsClause_first (more : Sequel) : endsClause more.first.kind = true := by
  unfold endsClause
  rw [more.kind]
  exact Bool.or_eq_true_iff.2 (.inr more.starts)

end Sequel

namespace State

variable {more : Sequel} {s : State}

/-- The state with more behind what is ahead. -/
def followed (more : Sequel) (s : State) : State :=
  { s with ahead := s.ahead ++ more.tokens, eof := more.eof }

/-- The end of the text is where the sequel starts. -/
structure Before (more : Sequel) (s : State) : Prop where
  ended : s.Ended
  span : s.eof.span = more.first.span

theorem Before.endsClause_eof (hs : s.Before more) : endsClause s.eof.kind = true := by
  rw [hs.ended]
  rfl

theorem Reaches.before {s' : State} (h : s.Reaches s') (hs : s.Before more) : s'.Before more :=
  ⟨h.ended hs.ended, by rw [h.eof, hs.span]⟩

theorem ahead_ne_nil (hs : s.Ended) (h : s.current.kind ≠ .eof) : s.ahead ≠ [] := by
  rw [State.ahead_eq hs h]
  exact List.cons_ne_nil _ _

theorem current_of_nil (h : s.ahead = []) : s.current = s.eof := by
  rw [State.current, h]
  rfl

theorem current_followed (h : s.ahead ≠ []) : (s.followed more).current = s.current := by
  obtain ⟨t, rest, hahead⟩ := List.exists_cons_of_ne_nil h
  simp only [State.current, followed, hahead, List.cons_append, List.headD_cons]

theorem current_followed_of_nil (h : s.ahead = []) : (s.followed more).current = more.first := by
  simp only [State.current, followed, h, List.nil_append, Sequel.tokens, List.headD_cons]

theorem advance_followed (h : s.ahead ≠ []) :
    (s.followed more).advance = s.advance.followed more := by
  obtain ⟨t, rest, hahead⟩ := List.exists_cons_of_ne_nil h
  simp only [State.advance, followed, hahead, List.cons_append]

/-- No kind that cannot follow a clause is due in one text and not in the other. -/
theorem kind_followed (hs : s.Before more) {kind : Kind} (hkind : endsClause kind = false) :
    (s.followed more).current.kind = kind ↔ s.current.kind = kind := by
  by_cases hahead : s.ahead = []
  · rw [current_followed_of_nil hahead, current_of_nil hahead]
    exact iff_of_false (ne_of_endsClause more.endsClause_first hkind)
      (ne_of_endsClause hs.endsClause_eof hkind)
  · rw [current_followed hahead]

theorem span_followed (hs : s.Before more) :
    (s.followed more).current.span = s.current.span := by
  by_cases hahead : s.ahead = []
  · rw [current_followed_of_nil hahead, current_of_nil hahead, hs.span]
  · rw [current_followed hahead]

theorem stop_followed (hs : s.Before more) : (s.followed more).stop = s.stop := by
  show (s.previous.getD (s.followed more).current).span.stop = s.stop
  unfold State.stop
  cases s.previous with
  | none => exact congrArg Span.stop (span_followed hs)
  | some t => rfl

end State

/-- What the parser answers from here it answers from the text continued, if
the text is complete, and `Q` holds of the answer and of the state behind it. -/
def Continues (more : Sequel) (whole : List Token) (p : Parser α) (s : State)
    (Q : α → State → Prop) : Prop :=
  s.Before more → ∀ a s', p s = .ok a s' →
    s.Reaches s' ∧ Q a s'
      ∧ (Complete whole → p (s.followed more) = .ok a (s'.followed more))

namespace Continues

variable {α β : Type} {more : Sequel} {whole : List Token} {p : Parser α} {f : α → Parser β}
  {s : State} {Q Q' : α → State → Prop} {R : β → State → Prop}

theorem bind (hp : Continues more whole p s Q)
    (hf : ∀ a s', Q a s' → Continues more whole (f a) s' R) :
    Continues more whole (p >>= f) s R := by
  intro hs b s' hrun
  obtain ⟨a, s₁, hfirst, hsecond⟩ := bind_eq_ok hrun
  obtain ⟨hreaches, hQ, hsame⟩ := hp hs a s₁ hfirst
  obtain ⟨hreaches', hR, hsame'⟩ := hf a s₁ hQ (hreaches.before hs) b s' hsecond
  refine ⟨hreaches.trans hreaches', hR, fun hwhole => ?_⟩
  rw [bind_ok (hsame hwhole)]
  exact hsame' hwhole

theorem mono (hp : Continues more whole p s Q) (h : ∀ a s', s.Reaches s' → Q a s' → Q' a s') :
    Continues more whole p s Q' := by
  intro hs a s' hrun
  obtain ⟨hreaches, hQ, hsame⟩ := hp hs a s' hrun
  exact ⟨hreaches, h a s' hreaches hQ, hsame⟩

/-- What has to be so for the parser to answer may be assumed. -/
theorem assume {φ : Prop} (hφ : s.Before more → ∀ {a s'}, p s = .ok a s' → φ)
    (h : φ → Continues more whole p s Q) : Continues more whole p s Q :=
  fun hs a s' hrun => h (hφ hs hrun) hs a s' hrun

theorem pure {a : α} (h : Q a s) : Continues more whole (pure a) s Q := by
  intro _ b s' hrun
  cases hrun
  exact ⟨.refl s, h, fun _ => rfl⟩

theorem fail {cause : Cause} : Continues more whole (fail cause) s Q := by
  intro _ a s' hrun
  cases hrun

/-- What is made of the current token must be the same where the text ends and
where it goes on. -/
theorem current {f : Token → Parser β}
    (hend : s.Before more → s.ahead = [] → f more.first = f s.eof)
    (h : Continues more whole (f s.current) s R) :
    Continues more whole (current >>= f) s R := by
  intro hs b s' hrun
  obtain ⟨hreaches, hR, hsame⟩ := h hs b s' hrun
  refine ⟨hreaches, hR, fun hwhole => ?_⟩
  rw [← hsame hwhole]
  show f (s.followed more).current _ = f s.current _
  by_cases hahead : s.ahead = []
  · rw [State.current_followed_of_nil hahead, State.current_of_nil hahead, hend hs hahead]
  · rw [State.current_followed hahead]

/-- A token that is due is the same in both texts. -/
theorem currentDue {f : Token → Parser β} (hdue : s.current.kind ≠ .eof)
    (h : Continues more whole (f s.current) s R) :
    Continues more whole (Grammar.current >>= f) s R :=
  current (fun hs hnil => absurd hnil (State.ahead_ne_nil hs.ended hdue)) h

theorem lookAhead {f : List Token → Parser β}
    (hmore : Complete whole → f (s.ahead ++ more.tokens) = f s.ahead)
    (h : Continues more whole (f s.ahead) s R) :
    Continues more whole (lookAhead >>= f) s R := by
  intro hs b s' hrun
  obtain ⟨hreaches, hR, hsame⟩ := h hs b s' hrun
  refine ⟨hreaches, hR, fun hwhole => ?_⟩
  rw [← hsame hwhole]
  show f (s.ahead ++ more.tokens) _ = _
  rw [hmore hwhole]

theorem start {f : Nat → Parser β} (h : Continues more whole (f s.current.span.start) s R) :
    Continues more whole (start >>= f) s R := by
  intro hs b s' hrun
  obtain ⟨hreaches, hR, hsame⟩ := h hs b s' hrun
  refine ⟨hreaches, hR, fun hwhole => ?_⟩
  rw [← hsame hwhole]
  show f (s.followed more).current.span.start _ = _
  rw [State.span_followed hs]

theorem spanFrom {f : Span → Parser β} {begin : Nat}
    (h : Continues more whole (f ⟨begin, max s.stop begin⟩) s R) :
    Continues more whole (spanFrom begin >>= f) s R := by
  intro hs b s' hrun
  obtain ⟨hreaches, hR, hsame⟩ := h hs b s' hrun
  refine ⟨hreaches, hR, fun hwhole => ?_⟩
  rw [← hsame hwhole]
  show f ⟨begin, max (s.followed more).stop begin⟩ _ = _
  rw [State.stop_followed hs]

/-- Consumes the token due next, which is not the end. -/
theorem advance {f : Unit → Parser β} (hdue : s.current.kind ≠ .eof)
    (h : Continues more whole (f ()) s.advance R) :
    Continues more whole (advance >>= f) s R := by
  intro hs b s' hrun
  have hreaches := State.Reaches.advance s
  obtain ⟨hreaches', hR, hsame⟩ := h (hreaches.before hs) b s' hrun
  refine ⟨hreaches.trans hreaches', hR, fun hwhole => ?_⟩
  rw [← hsame hwhole, ← State.advance_followed (State.ahead_ne_nil hs.ended hdue)]
  rfl

/-- The token must be due in both texts or in none of them. -/
theorem consumeSame {f : Bool → Parser β} {kind : Kind} (hkind : kind ≠ .eof)
    (hsame : s.Before more → ((s.followed more).current.kind = kind ↔ s.current.kind = kind))
    (hdue : s.current.kind = kind → Continues more whole (f true) s.advance R)
    (hother : s.current.kind ≠ kind → Continues more whole (f false) s R) :
    Continues more whole (Grammar.consume kind >>= f) s R := by
  by_cases hcurrent : s.current.kind = kind
  · have hrun : (Grammar.consume kind >>= f) s = (Grammar.advance >>= fun _ => f true) s :=
      bind_ok (if_pos hcurrent)
    intro hs b s' h
    obtain ⟨hreaches, hR, hsame'⟩ :=
      advance (hcurrent ▸ hkind) (hdue hcurrent) hs b s' (hrun ▸ h)
    refine ⟨hreaches, hR, fun hwhole => ?_⟩
    rw [← hsame' hwhole]
    exact bind_ok (if_pos ((hsame hs).2 hcurrent))
  · have hrun : (Grammar.consume kind >>= f) s = f false s := bind_ok (if_neg hcurrent)
    intro hs b s' h
    obtain ⟨hreaches, hR, hsame'⟩ := hother hcurrent hs b s' (hrun ▸ h)
    refine ⟨hreaches, hR, fun hwhole => ?_⟩
    rw [← hsame' hwhole]
    exact bind_ok (if_neg (mt (hsame hs).1 hcurrent))

theorem consume {f : Bool → Parser β} {kind : Kind} (hkind : endsClause kind = false)
    (hdue : s.current.kind = kind → Continues more whole (f true) s.advance R)
    (hother : s.current.kind ≠ kind → Continues more whole (f false) s R) :
    Continues more whole (Grammar.consume kind >>= f) s R :=
  consumeSame (by rintro rfl; cases hkind) (fun hs => State.kind_followed hs hkind) hdue hother

/-- Where something is due, the kind may be any. -/
theorem consumeDue {f : Bool → Parser β} {kind : Kind} (hkind : kind ≠ .eof)
    (hne : s.current.kind ≠ .eof)
    (hdue : s.current.kind = kind → Continues more whole (f true) s.advance R)
    (hother : s.current.kind ≠ kind → Continues more whole (f false) s R) :
    Continues more whole (Grammar.consume kind >>= f) s R :=
  consumeSame hkind
    (fun hs => by rw [State.current_followed (State.ahead_ne_nil hs.ended hne)]) hdue hother

theorem expect {f : Unit → Parser β} {kind : Kind} (hkind : kind ≠ .eof)
    (h : s.current.kind = kind → Continues more whole (f ()) s.advance R) :
    Continues more whole (expect kind >>= f) s R := by
  by_cases hcurrent : s.current.kind = kind
  · intro hs b s' hrun
    have hne : s.current.kind ≠ .eof := hcurrent ▸ hkind
    have hexpect : (Grammar.expect kind >>= f) s = (Grammar.advance >>= f) s :=
      bind_ok (if_pos hcurrent)
    obtain ⟨hreaches, hR, hsame⟩ := advance hne (h hcurrent) hs b s' (hexpect ▸ hrun)
    refine ⟨hreaches, hR, fun hwhole => ?_⟩
    rw [← hsame hwhole]
    have hfollowed : (s.followed more).current = s.current :=
      State.current_followed (State.ahead_ne_nil hs.ended hne)
    exact bind_ok (if_pos (hfollowed.symm ▸ hcurrent))
  · intro _ b s' hrun
    obtain ⟨_, s₁, hexpect, -⟩ := bind_eq_ok hrun
    exact absurd (expect_eq_ok hexpect).1 hcurrent

theorem checkHeight {f : Unit → Parser β} {config : Config} {height : Nat}
    (h : Continues more whole (f ()) s R) :
    Continues more whole (checkHeight config height >>= f) s R := by
  unfold Grammar.checkHeight
  split
  · exact h
  · exact fail.bind (Q := fun _ _ => False) fun _ _ h => h.elim

end Continues

/-! ## Where a text has been read to -/

/-- The text up to here leaves `n` parentheses open. If it is settled, its last
token awaits no name. -/
structure Along (whole : List Token) (n : Nat) (settled : Bool) (s : State) : Prop where
  read : ∃ read, whole = read ++ s.ahead ∧ nest 0 read = some n
    ∧ (settled = true → ∀ t ∈ read.getLast?, t.kind.awaits = false)
  ended : s.Ended

namespace Along

variable {whole : List Token} {n m : Nat} {settled : Bool} {s s' : State} {kind : Kind}

theorem suffix (h : Along whole n settled s) : s.ahead <:+ whole := by
  obtain ⟨read, hwhole, -⟩ := h.read
  exact ⟨read, hwhole.symm⟩

/-- Past a token. -/
theorem pass (h : Along whole n settled s) (hdue : s.current.kind = kind)
    (hnest : kind.nest n = some m) : Along whole m (!kind.awaits) s.advance := by
  obtain ⟨read, hwhole, hread, -⟩ := h.read
  have hne : s.current.kind ≠ .eof := by
    intro heof
    rw [← hdue, heof] at hnest
    cases hnest
  have hahead := State.ahead_eq h.ended hne
  refine ⟨⟨read ++ [s.current], ?_, ?_, fun hawaits t ht => ?_⟩,
    (State.Reaches.advance s).ended h.ended⟩
  · rw [hwhole, List.append_assoc, List.singleton_append, ← hahead]
  · rw [nest_append, hread, Option.bind_some, nest, hdue, hnest]
    rfl
  · rw [List.getLast?_concat, Option.mem_some_iff] at ht
    rw [← ht, hdue]
    simpa using hawaits

/-- How deep a reading is nested does not tell where it is. -/
theorem deeper (h : Along whole n settled s) (depth : Nat) :
    Along whole n settled { s with depth } := ⟨h.read, h.ended⟩

/-- A text that has been read to its end is complete. -/
theorem complete (h : Along whole 0 true s) (hend : s.ahead = []) : Complete whole := by
  obtain ⟨read, hwhole, hnest, hlast⟩ := h.read
  rw [hend, List.append_nil] at hwhole
  subst hwhole
  constructor
  · rintro ts ⟨before, rfl⟩ hopen
    rw [nest_append, Option.bind_eq_some_iff] at hnest
    obtain ⟨k, -, hts⟩ := hnest
    cases ts with
    | nil => cases hopen
    | cons t ts =>
      have hkind : t.kind = .punctuation .lparen := Option.some.inj hopen
      rw [nest, hkind] at hts
      rw [afterGroup, hkind]
      exact afterGroup_ne_none hts (by omega) (by omega)
  · rintro t ⟨before, rfl⟩
    exact hlast rfl t (by simp)

end Along

/-! ## Names, nesting and loops -/

theorem nested_eq_ok {α : Type} {config : Config} {p : Parser α} {s s' : State} {a : α} :
    nested config p s = .ok a s' ↔ s.depth < config.maxDepth
      ∧ ∃ s₁, p { s with depth := s.depth + 1 } = .ok a s₁
        ∧ s' = { s₁ with depth := s₁.depth - 1 } := by
  unfold nested
  by_cases hroom : s.depth < config.maxDepth
  · rw [if_pos hroom]
    cases p { s with depth := s.depth + 1 } with
    | ok b s₁ => simp [hroom, eq_comm, and_assoc]
    | error fault s₁ => simp
  · rw [if_neg hroom]
    exact iff_of_false nofun fun h => hroom h.1

theorem variableName_eq_ok {role : VariableRole} {s s' : State} {name : String}
    (h : variableName role s = .ok name s') :
    s.current.kind = .identifier name ∧ s' = s.advance := by
  unfold variableName at h
  split at h
  · next hname =>
    cases h
    exact ⟨hname, rfl⟩
  · cases h

namespace Continues

variable {α β : Type} {more : Sequel} {whole : List Token} {p : Parser α} {f : α → Parser β}
  {s : State} {Q Q' : α → State → Prop} {R : β → State → Prop}

theorem symbolicName {role : NameRole} {Q : String → State → Prop}
    (h : ∀ name, s.current.symbolicName? = some name → Q name s.advance) :
    Continues more whole (symbolicName role) s Q := by
  intro hs name s' hrun
  unfold Grammar.symbolicName at hrun
  split at hrun
  · next hname =>
    cases hrun
    have hne : s.current.kind ≠ .eof := by
      intro heof
      rw [Token.symbolicName?, heof] at hname
      cases hname
    have hahead := State.ahead_ne_nil hs.ended hne
    refine ⟨.advance s, h name hname, fun _ => ?_⟩
    unfold Grammar.symbolicName
    rw [State.current_followed hahead, hname, State.advance_followed hahead]
  · cases hrun

theorem variableName {role : VariableRole} {Q : String → State → Prop}
    (h : ∀ name, s.current.kind = .identifier name → Q name s.advance) :
    Continues more whole (variableName role) s Q := by
  intro hs name s' hrun
  obtain ⟨hname, rfl⟩ := variableName_eq_ok hrun
  have hahead := State.ahead_ne_nil hs.ended (by rw [hname]; exact nofun)
  refine ⟨.advance s, h name hname, fun _ => ?_⟩
  unfold Grammar.variableName
  rw [State.current_followed hahead, hname, State.advance_followed hahead]

theorem optionalVariable {Q : Option String → State → Prop}
    (hdue : ∀ name, s.current.kind = .identifier name → Q (some name) s.advance)
    (hother : Q none s) : Continues more whole optionalVariable s Q := by
  intro hs r s' hrun
  unfold Grammar.optionalVariable at hrun
  split at hrun
  · next name hname =>
    cases hrun
    have hahead := State.ahead_ne_nil hs.ended (by rw [hname]; exact nofun)
    refine ⟨.advance s, hdue name hname, fun _ => ?_⟩
    unfold Grammar.optionalVariable
    rw [State.current_followed hahead, hname, State.advance_followed hahead]
  · next hnone =>
    cases hrun
    refine ⟨.refl s, hother, fun _ => ?_⟩
    unfold Grammar.optionalVariable
    split
    · next name hname =>
      have hinner : endsClause (.identifier name) = false := rfl
      exact absurd ((State.kind_followed hs hinner).1 hname) (hnone name)
    · rfl

/-- How deep a reading is nested is the same in both texts. -/
theorem nested {config : Config} (hp : Continues more whole p { s with depth := s.depth + 1 } Q)
    (hQ : ∀ a s' depth, Q a s' → Q' a { s' with depth }) :
    Continues more whole (nested config p) s Q' := by
  intro hs a s' hrun
  obtain ⟨hroom, s₁, hinner, rfl⟩ := nested_eq_ok.1 hrun
  obtain ⟨hreaches, hQa, hsame⟩ := hp ⟨hs.ended, hs.span⟩ _ _ hinner
  refine ⟨⟨hreaches.length, hreaches.eof⟩, hQ _ _ _ hQa, fun hwhole => ?_⟩
  exact nested_eq_ok.2 ⟨hroom, _, hsame hwhole, rfl⟩

section Loops

variable {I : State → Prop}

/-- A loop has more rounds in the longer text, but the round that ends it is the
same. -/
theorem many {step : Parser (Option α)}
    (hstep : ∀ s, I s → Continues more whole step s fun r s' =>
      I s' ∧ (r ≠ none → s'.ahead.length < s.ahead.length))
    (h : I s) : Continues more whole (many step) s fun as s' =>
      I s' ∧ (as ≠ [] → s'.ahead.length < s.ahead.length) := by
  have hrounds (n : Nat) {s : State} (h : I s) (hs : s.Before more) (hn : s.ahead.length < n)
      {as : List α} {s' : State} (hrun : manyUpTo step n s = .ok as s') :
      s.Reaches s' ∧ (I s' ∧ (as ≠ [] → s'.ahead.length < s.ahead.length))
        ∧ (Complete whole → ∀ n', n ≤ n' →
          manyUpTo step n' (s.followed more) = .ok as (s'.followed more)) := by
    induction n generalizing s as with
    | zero => omega
    | succ n ih =>
      unfold manyUpTo at hrun
      obtain ⟨r, s₁, hround, hrest⟩ := bind_eq_ok hrun
      obtain ⟨hreaches, ⟨hI, hless⟩, hsame⟩ := hstep s h hs r s₁ hround
      cases r with
      | none =>
        cases hrest
        refine ⟨hreaches, ⟨hI, fun h => absurd rfl h⟩, fun hwhole n' hn' => ?_⟩
        obtain ⟨n', rfl⟩ : ∃ k, n' = k + 1 := ⟨n' - 1, by omega⟩
        exact bind_ok (hsame hwhole)
      | some a =>
        obtain ⟨as, s₂, hmore, hlast⟩ := bind_eq_ok hrest
        cases hlast
        have hlt := hless (Option.some_ne_none a)
        obtain ⟨hreaches', ⟨hI', -⟩, hsame'⟩ := ih hI (hreaches.before hs) (by omega) hmore
        refine ⟨hreaches.trans hreaches',
          ⟨hI', fun _ => Nat.lt_of_le_of_lt hreaches'.length hlt⟩, fun hwhole n' hn' => ?_⟩
        obtain ⟨n', rfl⟩ : ∃ k, n' = k + 1 := ⟨n' - 1, by omega⟩
        unfold manyUpTo
        rw [bind_ok (hsame hwhole)]
        exact bind_ok (hsame' hwhole n' (by omega))
  intro hs as s' hrun
  obtain ⟨hreaches, hI, hsame⟩ := hrounds _ h hs (Nat.lt_succ_self _) hrun
  refine ⟨hreaches, hI, fun hwhole => hsame hwhole _ ?_⟩
  show s.ahead.length + 1 ≤ (s.ahead ++ more.tokens).length + 1
  rw [List.length_append]
  omega

theorem iterate {step : α → Parser (ForInStep α)} {J : State → Prop}
    (hstep : ∀ a s, I s → Continues more whole (step a) s fun r s' =>
      J s' ∧ (∀ b, r = .yield b → s'.ahead.length < s.ahead.length))
    (hJ : ∀ s, J s → I s) (h : I s) (a : α) :
    Continues more whole (iterate step a) s fun _ => J := by
  have hrounds (n : Nat) {a : α} {s : State} (h : I s) (hs : s.Before more)
      (hn : s.ahead.length < n) {b : α} {s' : State} (hrun : iterateUpTo step n a s = .ok b s') :
      s.Reaches s' ∧ J s' ∧ (Complete whole → ∀ n', n ≤ n' →
        iterateUpTo step n' a (s.followed more) = .ok b (s'.followed more)) := by
    induction n generalizing a s with
    | zero => omega
    | succ n ih =>
      unfold iterateUpTo at hrun
      obtain ⟨r, s₁, hround, hrest⟩ := bind_eq_ok hrun
      obtain ⟨hreaches, ⟨hI, hless⟩, hsame⟩ := hstep a s h hs r s₁ hround
      cases r with
      | done b =>
        cases hrest
        refine ⟨hreaches, hI, fun hwhole n' hn' => ?_⟩
        obtain ⟨n', rfl⟩ : ∃ k, n' = k + 1 := ⟨n' - 1, by omega⟩
        exact bind_ok (hsame hwhole)
      | yield b =>
        have hlt := hless b rfl
        obtain ⟨hreaches', hI', hsame'⟩ := ih (hJ _ hI) (hreaches.before hs) (by omega) hrest
        refine ⟨hreaches.trans hreaches', hI', fun hwhole n' hn' => ?_⟩
        obtain ⟨n', rfl⟩ : ∃ k, n' = k + 1 := ⟨n' - 1, by omega⟩
        unfold iterateUpTo
        rw [bind_ok (hsame hwhole)]
        exact hsame' hwhole n' (by omega)
  intro hs b s' hrun
  obtain ⟨hreaches, hI, hsame⟩ := hrounds _ h hs (Nat.lt_succ_self _) hrun
  refine ⟨hreaches, hI, fun hwhole => hsame hwhole _ ?_⟩
  show s.ahead.length + 1 ≤ (s.ahead ++ more.tokens).length + 1
  rw [List.length_append]
  omega

end Loops

end Continues

/-! ## Productions -/

section Productions

variable {α β : Type} (more : Sequel)

/-- From a place where no name is awaited, the parser leads to another one with as
many parentheses open, and reads the same in the text continued. -/
def Rests (p : Parser α) : Prop :=
  ∀ ⦃whole n s⦄, Along whole n true s → Continues more whole p s fun _ => Along whole n true

/-- The same from any place. Such a parser takes the name that is awaited. -/
def Settles (p : Parser α) : Prop :=
  ∀ ⦃whole n settled s⦄, Along whole n settled s →
    Continues more whole p s fun _ => Along whole n true

variable {more} {whole : List Token} {n : Nat} {settled : Bool} {s : State} {p : Parser α}
  {item : Parser α} {kind : Kind} {Q : α → State → Prop}

/-- What is read behind a token leaves fewer tokens ahead. -/
theorem Continues.shorter (hs : s.Ended) (hdue : s.current.kind ≠ .eof)
    (hp : Continues more whole p s.advance Q) :
    Continues more whole p s.advance fun a s' => Q a s' ∧ s'.ahead.length < s.ahead.length :=
  hp.mono fun _ _ hreaches hQ =>
    ⟨hQ, Nat.lt_of_le_of_lt hreaches.length (State.length_advance hs hdue)⟩

namespace Settles

theorem rests (h : Settles more p) : Rests more p := fun _ _ _ hs => h hs

/-- Such a parser takes at least one token: behind a point it would not settle
anything else. -/
theorem length_lt (hp : Settles more p) {a : α} {s' : State} (hs : s.Before more)
    (hrun : p s = .ok a s') : s'.ahead.length < s.ahead.length := by
  let point : Token := ⟨.punctuation .dot, ⟨0, 0⟩, 0, ""⟩
  have hbehind : Along (point :: s.ahead) 0 false s := ⟨⟨[point], rfl, rfl, nofun⟩, hs.ended⟩
  obtain ⟨hreaches, hsettled, -⟩ := hp hbehind hs a s' hrun
  obtain ⟨read, hwhole, -, hlast⟩ := hsettled.read
  by_contra hnone
  have hlength := congrArg List.length hwhole
  rw [List.length_cons, List.length_append] at hlength
  cases read with
  | nil =>
    have := hreaches.length
    rw [List.length_nil] at hlength
    omega
  | cons t rest =>
    rw [List.length_cons] at hlength
    obtain rfl : rest = [] := List.eq_nil_of_length_eq_zero (by omega)
    rw [List.singleton_append, List.cons.injEq] at hwhole
    have hpoint := hlast rfl t rfl
    rw [← hwhole.1] at hpoint
    cases hpoint

theorem less (hp : Settles more p) (h : Along whole n settled s) :
    Continues more whole p s fun _ s' =>
      Along whole n true s' ∧ s'.ahead.length < s.ahead.length := by
  intro hs a s' hrun
  obtain ⟨hreaches, hsettled, hsame⟩ := hp h hs a s' hrun
  exact ⟨hreaches, ⟨hsettled, hp.length_lt hs hrun⟩, hsame⟩

end Settles

theorem settles_symbolicName (role : NameRole) : Settles more (symbolicName role) := by
  intro whole n settled s h
  apply Continues.symbolicName
  intro name hname
  unfold Token.symbolicName? at hname
  split at hname
  · next hkind => exact h.pass hkind rfl
  · next hkind => exact h.pass hkind rfl
  · cases hname

theorem settles_variableName (role : VariableRole) : Settles more (variableName role) := by
  intro whole n settled s h
  exact Continues.variableName fun name hname => h.pass hname rfl

theorem rests_optionalVariable : Rests more optionalVariable := by
  intro whole n s h
  exact Continues.optionalVariable (fun name hname => h.pass hname rfl) h

/-- A round of a loop: if it reads something, it leaves fewer tokens ahead. -/
def RestsRound (more : Sequel) (step : Parser (Option α)) : Prop :=
  ∀ ⦃whole n s⦄, Along whole n true s → Continues more whole step s fun r s' =>
    Along whole n true s' ∧ (r ≠ none → s'.ahead.length < s.ahead.length)

theorem RestsRound.many {step : Parser (Option α)} (hstep : RestsRound more step) :
    Rests more (many step) :=
  fun _ _ _ h => (Continues.many (fun _ h => hstep h) h).mono fun _ _ _ h => h.1

/-- An item behind a token, if the token is due. -/
theorem continues_behind {f : Option α → Parser β} {R : β → State → Prop}
    (hkind : endsClause kind = false)
    (hdue : s.current.kind = kind → Continues more whole (item >>= fun a => f (some a)) s.advance R)
    (hother : Continues more whole (f none) s R) :
    Continues more whole (behind kind item >>= f) s R := by
  unfold behind
  rw [bind_assoc]
  refine Continues.consume hkind (fun h => ?_) fun _ => ?_
  · rw [if_pos rfl, bind_assoc]
    simpa only [pure_bind] using hdue h
  · rw [if_neg Bool.false_ne_true, pure_bind]
    exact hother

namespace Settles

theorem round (hitem : Settles more item) (hkind : kind.isInner = true) :
    RestsRound more (behind kind item) := by
  intro whole n s h
  refine Continues.consume (endsClause_of_inner hkind) (fun hdue => ?_) fun _ =>
    Continues.pure ⟨h, fun h => absurd rfl h⟩
  have hread := hitem (h.pass hdue (nest_of_inner hkind n))
  refine (hread.shorter h.ended ?_).bind fun a s' h => Continues.pure ⟨h.1, fun _ => h.2⟩
  rintro heof
  rw [← hdue, heof] at hkind
  cases hkind

theorem behind (hitem : Settles more item) (hkind : kind.isInner = true) :
    Rests more (behind kind item) :=
  fun _ _ _ h => (hitem.round hkind h).mono fun _ _ _ h => h.1

theorem many (hitem : Settles more item) (hkind : kind.isInner = true) :
    Rests more (many (Grammar.behind kind item)) := (hitem.round hkind).many

theorem commaSeparated (hitem : Settles more item) : Settles more (commaSeparated item) := by
  intro whole n settled s h
  refine (hitem h).bind fun first s h => ?_
  exact (hitem.many rfl h).bind fun others s h => Continues.pure h

theorem unlessDue (hitem : Settles more item) (hkind : endsClause kind = false) :
    Rests more (unlessDue kind item) := by
  intro whole n s h
  refine Continues.current (fun hs _ => ?_) ?_
  · rw [if_neg (ne_of_endsClause more.endsClause_first hkind),
      if_neg (ne_of_endsClause hs.endsClause_eof hkind)]
  · split
    · exact Continues.pure h
    · exact (hitem h).bind fun a s h => Continues.pure h

theorem commaSeparatedUntil (hitem : Settles more item) (hkind : endsClause kind = false) :
    Rests more (commaSeparatedUntil kind item) :=
  fun _ _ _ h => (hitem.commaSeparated.unlessDue hkind h).bind fun _ _ h => Continues.pure h

end Settles

/-- There is a label, so a token is taken. -/
theorem continues_labelList (h : Along whole n true s) :
    Continues more whole labelList s fun _ s' =>
      Along whole n true s' ∧ s'.ahead.length < s.ahead.length := by
  have hround : RestsRound more (behind (.punctuation .colon) (symbolicName .label)) :=
    (settles_symbolicName .label).round rfl
  refine (Continues.many (fun _ h => hround h) h).bind fun labels s h => ?_
  split
  · exact Continues.fail
  · next hlabels =>
    refine Continues.pure ⟨h.1, h.2 fun hnil => hlabels ?_⟩
    rw [hnil]
    rfl

theorem rests_labelList : Rests more labelList :=
  fun _ _ _ h => (continues_labelList h).mono fun _ _ _ h => h.1

end Productions

end Grammar

end Cypher
