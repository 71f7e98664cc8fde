import Cypher.Proofs.Leaves.Tokens

/-!
# Names in disguise

Where a name is due, a reserved word is one. So a name can be DISGUISED there:
its token is given the kind of a reserved word, and still spells the name. The
grammar is to read the same tree, because at these places it asks a token for
its name and for nothing else, and from afar it does not tell names from words.

A parser is BLIND to the disguise if it reads from the disguised tokens what it
reads from the others, up to the same place. The scan tells which parser may
meet a disguised token and which may not.
-/

namespace Cypher

open Token (Kind)

/-! ## Places of names -/

/-- The token that the scan comes to, in front of `rest`, is a name whatever it
spells: by what is in front of it, or as the key of an entry. -/
def Scan.Names (σ : Scan) (rest : List Token) : Prop :=
  σ.mode = .name ∨ σ.mode = .entry ∧ Grammar.kindAt rest 0 = some (.punctuation .colon)

instance (σ : Scan) (rest : List Token) : Decidable (σ.Names rest) :=
  inferInstanceAs (Decidable (_ ∨ _ ∧ _))

/-- Some names among the tokens, where a name is due, look like reserved words. -/
structure Disguise (f : Token → Token) (tokens : List Token) : Prop where
  look : ∀ t, f t = t ∨ ∃ name word,
    t.kind = .identifier name ∧ f t = { t with kind := .keyword word, text := name }
  place : ∀ passed t rest, tokens = passed ++ t :: rest → f t ≠ t →
    (({} : Scan).passAll passed (t :: rest)).Names rest

/-- Neither a name nor a reserved word. -/
def Token.Kind.isSign : Kind → Bool
  | .identifier _ | .keyword _ => false
  | _ => true

namespace Disguise

variable {f : Token → Token} {tokens : List Token} (hf : Disguise f tokens) {kind : Kind} (t : Token)

include hf

theorem span_eq : (f t).span = t.span := by
  rcases hf.look t with h | ⟨name, word, -, h⟩ <;> rw [h]

/-- The name is still there to be asked for. -/
theorem symbolicName?_eq : (f t).symbolicName? = t.symbolicName? := by
  rcases hf.look t with h | ⟨name, word, hkind, h⟩
  · rw [h]
  · rw [h, Token.symbolicName?, Token.symbolicName?, hkind]

/-- No sign is hidden, and none is made up. -/
theorem kind_iff (hkind : kind.isSign = true) : (f t).kind = kind ↔ t.kind = kind := by
  rcases hf.look t with h | ⟨name, word, hname, h⟩
  · rw [h]
  · rw [h, hname]
    constructor
    · rintro rfl
      cases hkind
    · rintro rfl
      cases hkind

theorem fixed_of_not_identifier (h : ∀ name, t.kind ≠ .identifier name) : f t = t := by
  rcases hf.look t with hsame | ⟨name, -, hname, -⟩
  · exact hsame
  · exact absurd hname (h name)

end Disguise

namespace Grammar

/-- The same place among the disguised tokens. -/
def State.disguise (f : Token → Token) (s : State) : State :=
  { s with previous := s.previous.map f, ahead := s.ahead.map f, eof := f s.eof }

/-- What the parser answers from here it also answers from the disguised tokens,
and it comes to the same place. -/
def Alike (f : Token → Token) (p : Parser α) (s : State) : Prop :=
  ∀ a s', p s = .ok a s' → p (s.disguise f) = .ok a (s'.disguise f)

variable {α β : Type} {f : Token → Token} {tokens : List Token} {p : Parser α} {s : State}
  {kind : Kind}

namespace State

variable (f) (s)

theorem current_disguise : (s.disguise f).current = f s.current := by
  unfold disguise current
  cases s.ahead <;> rfl

theorem advance_disguise : (s.disguise f).advance = s.advance.disguise f := by
  unfold disguise advance
  cases hahead : s.ahead <;> simp [hahead]

variable {f} in
theorem stop_disguise (hf : Disguise f tokens) : (s.disguise f).stop = s.stop := by
  unfold stop
  rw [current_disguise]
  show ((s.previous.map f).getD (f s.current)).span.stop = _
  cases s.previous with
  | none => exact congrArg Span.stop (hf.span_eq _)
  | some t => exact congrArg Span.stop (hf.span_eq t)

end State

/-! ## Composition -/

namespace Alike

theorem pure (a : α) : Alike f (pure a) s := by
  intro b s' h
  cases h
  rfl

theorem fail {cause : Cause} : Alike f (fail cause : Parser α) s := by
  intro a s' h
  cases h

theorem bind {k : α → Parser β} {Q : α → State → Prop} (hp : Alike f p s) (hleads : Leads p s Q)
    (hk : ∀ a s', Q a s' → Alike f (k a) s') : Alike f (p >>= k) s := by
  intro b s' h
  obtain ⟨a, s₁, hfirst, hsecond⟩ := bind_eq_ok h
  rw [bind_ok (hp a s₁ hfirst)]
  exact hk a s₁ (hleads a s₁ hfirst) b s' hsecond

/-- A sequence whose second part is alike wherever the first has come to. -/
theorem andThen {k : α → Parser β} (hp : Alike f p s) (hk : ∀ a s', Alike f (k a) s') :
    Alike f (p >>= k) s :=
  hp.bind (Q := fun _ _ => True) (fun _ _ _ => trivial) fun a s' _ => hk a s'

/-- A sequence whose second part only puts the answer of the first into another
shape. -/
theorem map {shape : α → β} (hp : Alike f p s) :
    Alike f (p >>= fun a => Pure.pure (shape a)) s :=
  hp.andThen fun _ _ => pure _

/-- What has to be so for the parser to answer may be assumed. -/
theorem assume {φ : Prop} (hφ : ∀ {a s'}, p s = .ok a s' → φ) (h : φ → Alike f p s) :
    Alike f p s :=
  fun a s' hrun => h (hφ hrun) a s' hrun

/-! ## Tokens -/

section Tokens

variable (hf : Disguise f tokens)

theorem current {k : Token → Parser β} (hsame : k (f s.current) = k s.current)
    (h : Alike f (k s.current) s) : Alike f (current >>= k) s := by
  intro b s' hrun
  show k (s.disguise f).current (s.disguise f) = _
  rw [State.current_disguise, hsame]
  exact h b s' hrun

theorem lookAhead {k : List Token → Parser β} (hsame : k (s.ahead.map f) = k s.ahead)
    (h : Alike f (k s.ahead) s) : Alike f (lookAhead >>= k) s := by
  intro b s' hrun
  show k (s.ahead.map f) (s.disguise f) = _
  rw [hsame]
  exact h b s' hrun

include hf in
theorem start {k : Nat → Parser β} (h : ∀ begin, Alike f (k begin) s) :
    Alike f (start >>= k) s := by
  intro b s' hrun
  show k (s.disguise f).current.span.start (s.disguise f) = _
  rw [State.current_disguise, hf.span_eq]
  exact h _ b s' hrun

include hf in
theorem spanFrom {k : Span → Parser β} {begin : Nat} (h : ∀ span, Alike f (k span) s) :
    Alike f (spanFrom begin >>= k) s := by
  intro b s' hrun
  show k ⟨begin, max (s.disguise f).stop begin⟩ (s.disguise f) = _
  rw [s.stop_disguise hf]
  exact h _ b s' hrun

theorem advance {k : Unit → Parser β} (h : Alike f (k ()) s.advance) :
    Alike f (advance >>= k) s := by
  intro b s' hrun
  show k () (s.disguise f).advance = _
  rw [State.advance_disguise]
  exact h b s' hrun

theorem consume {k : Bool → Parser β} (hsame : (f s.current).kind = kind ↔ s.current.kind = kind)
    (hdue : s.current.kind = kind → Alike f (k true) s.advance)
    (hother : s.current.kind ≠ kind → Alike f (k false) s) :
    Alike f (consume kind >>= k) s := by
  intro b s' hrun
  rw [← State.current_disguise f s] at hsame
  by_cases hkind : s.current.kind = kind
  · have hconsume : Grammar.consume kind s = .ok true s.advance := if_pos hkind
    have hconsume' : Grammar.consume kind (s.disguise f) = .ok true (s.disguise f).advance :=
      if_pos (hsame.2 hkind)
    rw [bind_ok hconsume] at hrun
    rw [bind_ok hconsume', State.advance_disguise]
    exact hdue hkind b s' hrun
  · have hconsume : Grammar.consume kind s = .ok false s := if_neg hkind
    have hconsume' : Grammar.consume kind (s.disguise f) = .ok false (s.disguise f) :=
      if_neg fun h => hkind (hsame.1 h)
    rw [bind_ok hconsume] at hrun
    rw [bind_ok hconsume']
    exact hother hkind b s' hrun

theorem expect {k : Unit → Parser β} (hsame : s.current.kind = kind → (f s.current).kind = kind)
    (h : s.current.kind = kind → Alike f (k ()) s.advance) : Alike f (expect kind >>= k) s := by
  intro b s' hrun
  obtain ⟨_, s₁, hexpect, hrun⟩ := bind_eq_ok hrun
  obtain ⟨hkind, rfl⟩ := expect_eq_ok hexpect
  have hexpect' : Grammar.expect kind (s.disguise f) = .ok () (s.disguise f).advance :=
    if_pos (by rw [State.current_disguise]; exact hsame hkind)
  rw [bind_ok hexpect', State.advance_disguise]
  exact h hkind b s' hrun

include hf in
/-- Where a name is asked for, a disguised one is as good. -/
theorem symbolicName {role : NameRole} : Alike f (symbolicName role) s := by
  intro name s' hrun
  obtain ⟨hname, rfl⟩ := Leads.symbolicName
    (Q := fun n s₁ => s.current.symbolicName? = some n ∧ s₁ = s.advance)
    (fun _ h => ⟨h, rfl⟩) _ _ hrun
  unfold Grammar.symbolicName
  rw [State.current_disguise, hf.symbolicName?_eq, hname, State.advance_disguise]

theorem variableName {role : VariableRole} (hsame : f s.current = s.current) :
    Alike f (variableName role) s := by
  intro name s' hrun
  obtain ⟨hname, rfl⟩ := Leads.variableName
    (Q := fun n s₁ => s.current.kind = .identifier n ∧ s₁ = s.advance)
    (fun _ h => ⟨h, rfl⟩) _ _ hrun
  unfold Grammar.variableName
  rw [State.current_disguise, hsame, hname, State.advance_disguise]

theorem optionalVariable (hsame : f s.current = s.current) : Alike f optionalVariable s := by
  intro name s' hrun
  unfold Grammar.optionalVariable at *
  rw [State.current_disguise, hsame, State.advance_disguise]
  cases hkind : s.current.kind with
  | identifier found =>
    rw [hkind] at hrun
    cases hrun
    rfl
  | _ =>
    rw [hkind] at hrun
    cases hrun
    rfl

end Tokens

theorem checkHeight {k : Unit → Parser β} {config : Config} {height : Nat}
    (h : Alike f (k ()) s) : Alike f (checkHeight config height >>= k) s := by
  unfold Grammar.checkHeight
  split
  · exact h
  · exact fail.bind (Q := fun _ _ => False) Leads.fail fun _ _ h => h.elim

theorem nested {config : Config} (h : ∀ depth, Alike f p { s with depth }) :
    Alike f (nested config p) s := by
  intro a s' hrun
  have hinner := h (s.depth + 1)
  unfold Grammar.nested at hrun ⊢
  split at hrun
  · next hroom =>
    have hroom : (s.disguise f).depth < config.maxDepth := hroom
    rw [if_pos hroom]
    generalize hfirst : p { s with depth := s.depth + 1 } = r at hrun
    cases r with
    | error fault s₁ => cases hrun
    | ok b s₁ =>
      cases hrun
      have hsecond : p { s.disguise f with depth := (s.disguise f).depth + 1 }
          = .ok a (s₁.disguise f) := hinner a s₁ hfirst
      rw [hsecond]
      rfl
  · cases hrun

/-! ## Repetition -/

theorem iterate {step : α → Parser (ForInStep α)} {Q : α → State → Prop} {a : α} (h : Q a s)
    (hleads : ∀ a s, Q a s → Leads (step a) s fun r s' => ∀ b, r = .yield b → Q b s')
    (hstep : ∀ a s, Q a s → Alike f (step a) s) : Alike f (iterate step a) s := by
  have hrounds (n : Nat) : Alike f (iterateUpTo step n a) s := by
    induction n generalizing a s with
    | zero => exact pure a
    | succ n ih =>
      unfold iterateUpTo
      refine (hstep a s h).bind (hleads a s h) fun r s' hr => ?_
      cases r with
      | done b => exact pure b
      | yield b => exact ih (hr b rfl)
  exact lookAhead (by rw [List.length_map]) (hrounds _)

theorem many {step : Parser (Option α)} {Q : State → Prop} (h : Q s)
    (hleads : ∀ s, Q s → Leads step s fun _ => Q) (hstep : ∀ s, Q s → Alike f step s) :
    Alike f (many step) s := by
  have hrounds (n : Nat) : Alike f (manyUpTo step n) s := by
    induction n generalizing s with
    | zero => exact pure []
    | succ n ih =>
      unfold manyUpTo
      refine (hstep s h).bind (hleads s h) fun r s' hr => ?_
      cases r with
      | none => exact pure []
      | some a => exact (ih hr).map
  exact lookAhead (by rw [List.length_map]) (hrounds _)

end Alike

/-! ## Where no name is disguised -/

/-- In these modes a name is what it looks like. -/
def Plain (modes : List Mode) : Prop := .name ∉ modes ∧ .entry ∉ modes

section Met

variable {o : Outlook} {read : List Leaf} {brackets : List Bracket} {modes : List Mode}
  (hf : Disguise f o.tokens)

include hf

theorem Outlook.Met.fixed {σ : Scan} {t : Token} {rest : List Token} (h : o.Met σ (t :: rest))
    (hplace : ¬ σ.Names rest) : f t = t := by
  obtain ⟨passed, htokens, rfl⟩ := h
  by_cases hsame : f t = t
  · exact hsame
  · exact absurd (hf.place passed t rest htokens hsame) hplace

theorem Outlook.Met.fixed_head {σ : Scan} {ahead : List Token} (h : o.Met σ ahead)
    (hmode : σ.mode ≠ .name ∧ σ.mode ≠ .entry) : ∀ t ∈ ahead.head?, f t = t := by
  intro t ht
  obtain ⟨rest, rfl⟩ := List.head?_eq_some_iff.1 ht
  exact h.fixed hf fun hnames => hnames.elim hmode.1 fun hentry => hmode.2 hentry.1

/-- The end of the text is nothing to disguise. -/
theorem At.fixed_eof (h : At o read brackets modes s) : f s.eof = s.eof :=
  hf.fixed_of_not_identifier _ fun name hname => by
    have hended : s.eof.kind = .eof := h.ended
    rw [hname] at hended
    cases hended

theorem At.fixed_of_not_names (h : At o read brackets modes s)
    (hplace : ∀ m ∈ modes, ¬ (⟨brackets, m⟩ : Scan).Names s.advance.ahead) :
    f s.current = s.current := by
  obtain ⟨m, hm, -, hmet⟩ := h.scan
  by_cases heof : s.current.kind = .eof
  · exact hf.fixed_of_not_identifier _ fun name hname => by
      rw [hname] at heof
      cases heof
  · rw [State.ahead_eq h.ended heof] at hmet
    exact hmet.fixed hf (hplace m hm)

theorem At.fixed (h : At o read brackets modes s) (hmodes : Plain modes) :
    f s.current = s.current :=
  h.fixed_of_not_names hf fun _ hm hnames =>
    hnames.elim (fun hname => hmodes.1 (hname ▸ hm)) fun hentry => hmodes.2 (hentry.1 ▸ hm)

end Met

/-! ## Blindness -/

/-- In any of the modes, the parser is blind to every disguise. -/
def Blind (f : Token → Token) (p : Parser α) (brackets : List Bracket) (modes : List Mode) : Prop :=
  ∀ ⦃o read s⦄, Disguise f o.tokens → At o read brackets modes s → Alike f p s

section Single

variable {o : Outlook} {read : List Leaf} {brackets : List Bracket} {modes : List Mode}

theorem blind_symbolicName {role : NameRole} : Blind f (symbolicName role) brackets modes :=
  fun _ _ _ hf _ => .symbolicName hf

theorem blind_variableName {role : VariableRole} (hmodes : Plain modes) :
    Blind f (variableName role) brackets modes :=
  fun _ _ _ hf h => .variableName (h.fixed hf hmodes)

theorem blind_optionalVariable (hmodes : Plain modes) :
    Blind f optionalVariable brackets modes :=
  fun _ _ _ hf h => .optionalVariable (h.fixed hf hmodes)

variable (hf : Disguise f o.tokens)

include hf

/-- Whether the token due next is of a kind can be told of a sign wherever it
stands, and of a word where no name is disguised. -/
theorem At.kind_iff (h : At o read brackets modes s) (hkind : kind.isSign = true ∨ Plain modes) :
    (f s.current).kind = kind ↔ s.current.kind = kind := by
  rcases hkind with hsign | hmodes
  · exact hf.kind_iff _ hsign
  · rw [h.fixed hf hmodes]

/-- Where no name is disguised, the token due next is what it looks like. -/
theorem Alike.currentPlain {k : Token → Parser β} (h : At o read brackets modes s)
    (hmodes : Plain modes) (hk : Alike f (k s.current) s) : Alike f (Grammar.current >>= k) s :=
  .current (by rw [h.fixed hf hmodes]) hk

theorem Alike.expectSign {k : Unit → Parser β} (hkind : kind.isSign = true)
    (h : s.current.kind = kind → Alike f (k ()) s.advance) : Alike f (Grammar.expect kind >>= k) s :=
  .expect (hf.kind_iff _ hkind).2 h

/-- A word that is due is no name. -/
theorem Alike.expectWord {k : Unit → Parser β} {word : Keyword}
    (h : s.current.kind = .keyword word → Alike f (k ()) s.advance) :
    Alike f (Grammar.expect (.keyword word) >>= k) s := by
  refine .expect (fun hdue => ?_) h
  rw [hf.fixed_of_not_identifier _ fun name hname => by rw [hname] at hdue; cases hdue]
  exact hdue

end Single

namespace Blind

variable {item : Parser α} {leaves : α → List Leaf} {brackets brackets' : List Bracket}
  {modes modes' : List Mode} {mode : Mode}

theorem mono {before : List Mode} (h : Blind f item brackets modes) (hbefore : before ⊆ modes) :
    Blind f item brackets before :=
  fun _ _ _ hf hat => h hf (hat.mono hbefore)

theorem pure (a : α) : Blind f (pure a) brackets modes := fun _ _ _ _ _ => .pure a

theorem fail {cause : Cause} : Blind f (fail cause : Parser α) brackets modes :=
  fun _ _ _ _ _ => .fail

theorem bind {k : α → Parser β} (hp : Blind f item brackets modes)
    (hcovers : Covers item leaves brackets modes modes') (hk : ∀ a, Blind f (k a) brackets modes') :
    Blind f (item >>= k) brackets modes :=
  fun _ _ _ hf h => (hp hf h).bind (hcovers h) fun a _ h' => hk a hf h'

theorem map {shape : α → β} (hp : Blind f item brackets modes) :
    Blind f (item >>= fun a => Pure.pure (shape a)) brackets modes :=
  fun _ _ _ hf h => (hp hf h).map

theorem start {k : Nat → Parser β} (hk : ∀ begin, Blind f (k begin) brackets modes) :
    Blind f (start >>= k) brackets modes :=
  fun _ _ _ hf h => .start hf fun begin => hk begin hf h

theorem spanFrom {k : Span → Parser β} {begin : Nat} (hk : ∀ span, Blind f (k span) brackets modes) :
    Blind f (spanFrom begin >>= k) brackets modes :=
  fun _ _ _ hf h => .spanFrom hf fun span => hk span hf h

theorem checkHeight {k : Unit → Parser β} {config : Config} {height : Nat}
    (hk : Blind f (k ()) brackets modes) :
    Blind f (checkHeight config height >>= k) brackets modes :=
  fun _ _ _ hf h => .checkHeight (hk hf h)

theorem current {k : Token → Parser β} (hmodes : Plain modes)
    (hk : ∀ ⦃o read s⦄, Disguise f o.tokens → At o read brackets modes s →
      Alike f (k s.current) s) : Blind f (current >>= k) brackets modes :=
  fun _ _ _ hf h => .currentPlain hf h hmodes (hk hf h)

section Due

variable (hkind : ∀ {t : Token}, t.kind = kind → Passes t brackets modes [] brackets' mode)

include hkind

theorem expectSign {k : Unit → Parser β} (hsign : kind.isSign = true)
    (hk : Blind f (k ()) brackets' [mode]) : Blind f (expect kind >>= k) brackets modes :=
  fun _ _ _ hf h => .expectSign hf hsign fun hdue => hk hf (h.advance_nil (hkind hdue))

theorem consume {k : Bool → Parser β} (hsame : kind.isSign = true ∨ Plain modes)
    (hdue : Blind f (k true) brackets' [mode]) (hother : Blind f (k false) brackets modes) :
    Blind f (consume kind >>= k) brackets modes :=
  fun _ _ _ hf h => .consume (h.kind_iff hf hsame)
    (fun hhere => hdue hf (h.advance_nil (hkind hhere))) fun _ => hother hf h

end Due

theorem expectWord {k : Unit → Parser β} {word : Keyword}
    (hkind : ∀ {t : Token}, t.kind = .keyword word → Passes t brackets modes [] brackets' mode)
    (hk : Blind f (k ()) brackets' [mode]) : Blind f (expect (.keyword word) >>= k) brackets modes :=
  fun _ _ _ hf h => .expectWord hf fun hdue => hk hf (h.advance_nil (hkind hdue))

theorem behind (hsame : kind.isSign = true ∨ Plain modes)
    (hkind : ∀ {t : Token}, t.kind = kind → Passes t brackets modes [] brackets mode)
    (hitem : Blind f item brackets [mode]) : Blind f (behind kind item) brackets modes := by
  exact .consume hkind hsame hitem.map (.pure none)

theorem unlessDue (hsame : kind.isSign = true ∨ Plain modes)
    (hitem : Blind f item brackets modes) : Blind f (unlessDue kind item) brackets modes := by
  intro o read s hf h
  have hdue := h.kind_iff hf hsame
  refine .current ?_ ?_
  · simp only [hdue]
  · split
    · exact .pure _
    · exact (hitem hf h).map

/-- Items that lead from one to the next. -/
theorem many {step : Parser (Option α)} {leaves : Option α → List Leaf}
    (hcovers : Covers step leaves brackets modes modes) (hstep : Blind f step brackets modes) :
    Blind f (many step) brackets modes := by
  intro o read s hf h
  have hkept : ∀ s, (∃ read, At o read brackets modes s) →
      Leads step s fun _ s' => ∃ read, At o read brackets modes s' :=
    fun s hat => (hcovers hat.choose_spec).mono fun _ _ hat' => ⟨_, hat'⟩
  exact .many ⟨read, h⟩ hkept fun s hat => hstep hf hat.choose_spec

variable (hcomma : ∀ {t : Token}, t.kind = .punctuation .comma →
    Passes t brackets modes' [] brackets mode)
  (hcovers : Covers item leaves brackets [mode] modes') (hitem : Blind f item brackets [mode])

include hcomma hcovers hitem

theorem commaSeparated : Blind f (commaSeparated item) brackets [mode] := by
  have hothers := Blind.many
    ((hcovers.behind hcomma).mono (List.Subset.refl _)
      (List.append_subset.2 ⟨List.Subset.refl _, List.Subset.refl _⟩))
    (hitem.behind (.inl rfl) hcomma)
  exact hitem.bind hcovers fun _ => hothers.map

theorem commaSeparatedUntil (hsame : kind.isSign = true) :
    Blind f (commaSeparatedUntil kind item) brackets [mode] :=
  ((commaSeparated hcomma hcovers hitem).unlessDue (.inl hsame)).map

end Blind

/-! ## Rows of names -/

section Names

variable {brackets : List Bracket}

theorem blind_dottedNames {role : NameRole} :
    Blind f (many (behind (.punctuation .dot) (symbolicName role))) brackets [.call] := by
  have hpart : Covers (behind (.punctuation .dot) (symbolicName role)) _ brackets
      [.call] [.call, .call] := .behind .dot (covers_symbolicName _)
  have hname : Blind f (symbolicName role) brackets [.name] := blind_symbolicName
  exact .many (hpart.mono (List.Subset.refl _) (by simp)) (hname.behind (.inl rfl) .dot)

theorem blind_labelList : Blind f labelList brackets [.value, .call] := by
  have hlabel : Covers (behind (.punctuation .colon) (symbolicName .label)) _ brackets
      [.value, .call] [.value, .call, .call] := .behind (.colon (by simp)) (covers_symbolicName _)
  have hlabels := Blind.many (hlabel.mono (List.Subset.refl _) (by simp))
    (blind_symbolicName.behind (f := f) (.inl rfl) (.colon (by simp)))
  refine hlabels.bind (hlabel.mono (List.Subset.refl _) (by simp)).many fun labels => ?_
  split
  · exact .fail
  · exact .pure _

end Names

end Grammar

end Cypher
