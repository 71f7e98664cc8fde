import Cypher.Proofs.Enclosed.Basic

/-!
# Reading side by side along with the scan

The scan tells what the seam can be. A parenthesis that opens a group stands in
front of an operand, so the scan comes to it where a value is due; one that
closes a group stands further out than anything in a bracket opened since.
-/

namespace Cypher.Grammar

open Token (Kind)
open Insertion

variable {α β : Type} {κ : Insertion} {o : Outlook} {read : List Leaf}
  {brackets brackets' : List Bracket} {modes modes' : List Mode} {mode : Mode} {d e : Nat}
  {s : State} {kind : Kind}

/-! ## The scan at the seam -/

theorem Outlook.Met.scan_of_seam {σ : Scan} (h : o.Met σ κ.seam) (hfits : o.tokens = κ.front ++ κ.seam) :
    κ.scan = σ := by
  obtain ⟨passed, htokens, rfl⟩ := h
  rw [hfits] at htokens
  obtain rfl := List.append_cancel_right htokens
  rfl

theorem At.scan_of_seam (h : At o read brackets modes s) (hfits : κ.Fits d o brackets)
    (hs : s.ahead = κ.seam) : κ.scan.brackets = brackets ∧ κ.scan.mode ∈ modes := by
  obtain ⟨m, hm, -, hmet⟩ := h.scan
  rw [hs] at hmet
  rw [hmet.scan_of_seam hfits.tokens]
  exact ⟨rfl, hm⟩

/-- What is further in is not at a parenthesis that closes a group. -/
theorem At.opens_of_seam (h : At o read brackets modes s) (hfits : κ.Fits (d + 1) o brackets)
    (hs : s.ahead = κ.seam) : κ.opens = true := by
  cases hopens : κ.opens with
  | true => rfl
  | false =>
    have hlevel := hfits.level hopens
    rw [(h.scan_of_seam hfits hs).1] at hlevel
    omega

/-- In these modes no operand is due. -/
theorem At.not_seam (h : At o read brackets modes s) (hfits : κ.Fits (d + 1) o brackets)
    (law : κ.Lawful) (hmodes : .value ∉ modes) (hs : s.ahead = κ.seam) : ¬ κ.apt := by
  intro hapt
  have hmode := (law.opening (h.opens_of_seam hfits hs) hapt).mode
  exact hmodes (hmode ▸ (h.scan_of_seam hfits hs).2)

namespace Insertion

theorem Fits.mono (h : κ.Fits d o brackets) (hle : brackets.length + e ≤ brackets'.length + d) :
    κ.Fits e o brackets' :=
  ⟨h.tokens, fun hopens => by have := h.level hopens; omega⟩

theorem Fits.inside {rest : Option (List Token)} (h : κ.Fits d o brackets) :
    κ.Fits d (o.inside rest) brackets := ⟨h.tokens, h.level⟩

theorem Fits.within {bracket : Bracket} (h : κ.Fits d o brackets) :
    κ.Fits (d + 1) o (bracket :: brackets) := h.mono (by rw [List.length_cons]; omega)

theorem Fits.into {rest : Option (List Token)} {bracket : Bracket} (h : κ.Fits d o brackets) :
    κ.Fits (d + 1) (o.inside rest) (bracket :: brackets) := h.inside.within

theorem Lawful.paren_ne (law : κ.Lawful) (hkind : kind.isOrdinary = true) : κ.paren.kind ≠ kind := by
  rw [law.kind]
  rintro rfl
  cases hopens : κ.opens <;> rw [hopens] at hkind <;> cases hkind

theorem Lawful.parenthesis (law : κ.Lawful) :
    κ.paren.kind = .punctuation .lparen ∨ κ.paren.kind = .punctuation .rparen := by
  rw [law.kind]
  cases κ.opens
  · exact .inr rfl
  · exact .inl rfl

theorem Opening.startsAtom_current (h : κ.Opening) (hs : s.ahead = κ.seam) :
    startsAtom s.current.kind = true := by
  obtain ⟨t, rest, hseam, hstarts⟩ := h.starts
  rw [State.current, hs, hseam]
  exact hstarts

/-- At the seam stands an operand, so no token that starts none. -/
theorem Opening.current_ne (h : κ.Opening) (hs : s.ahead = κ.seam)
    (hkind : startsAtom kind = false) : s.current.kind ≠ kind := by
  rintro rfl
  exact absurd (h.startsAtom_current hs) (by rw [hkind]; exact Bool.false_ne_true)

end Insertion

/-! ## Parsers -/

/-- In any of the modes, the parsers read side by side. -/
def Shadowed (κ : Insertion) (d : Nat) (p r p' : Parser α) (brackets : List Bracket)
    (modes : List Mode) : Prop :=
  ∀ ⦃o read s⦄, κ.Fits d o brackets → At o read brackets modes s → Shadows κ p r p' s

namespace Shadowed

variable {p r p' : Parser α} {item itemr item' : Parser α} {leaves : α → List Leaf}

theorem mono {before : List Mode} (h : Shadowed κ d p r p' brackets modes)
    (hbefore : before ⊆ modes) : Shadowed κ d p r p' brackets before :=
  fun _ _ _ hfits hat => h hfits (hat.mono hbefore)

theorem deeper (h : Shadowed κ 0 p r p' brackets modes) : Shadowed κ d p r p' brackets modes :=
  fun _ _ _ hfits hat => h (hfits.mono (Nat.add_le_add_left (Nat.zero_le _) _)) hat

theorem pure (a : α) : Shadowed κ d (pure a) (pure a) (pure a) brackets modes :=
  fun _ _ _ _ _ => .pure a

theorem fail {cause : Cause} : Shadowed κ d (fail cause) r p' brackets modes :=
  fun _ _ _ _ _ => .fail

theorem bind {k kr k' : α → Parser β} (hp : Shadowed κ d p r p' brackets modes)
    (hcovers : Covers p leaves brackets modes modes')
    (hk : ∀ a, Shadowed κ d (k a) (kr a) (k' a) brackets modes') :
    Shadowed κ d (p >>= k) (r >>= kr) (p' >>= k') brackets modes :=
  fun _ _ _ hfits h => (hp hfits h).bind (hcovers h) fun a _ h' => hk a hfits h'

theorem map {shape : α → β} (hp : Shadowed κ d p r p' brackets modes) :
    Shadowed κ d (p >>= fun a => Pure.pure (shape a)) (r >>= fun a => Pure.pure (shape a))
      (p' >>= fun a => Pure.pure (shape a)) brackets modes :=
  fun _ _ _ hfits h => (hp hfits h).map

theorem spanFrom {k kr k' : Span → Parser β} {begin : Nat}
    (hk : ∀ span, Shadowed κ d (k span) (kr span) (k' span) brackets modes) :
    Shadowed κ d (spanFrom begin >>= k) (spanFrom begin >>= kr) (spanFrom begin >>= k')
      brackets modes :=
  fun _ _ _ hfits h => .spanFrom fun span => hk span hfits h

theorem current {k kr k' : Token → Parser β}
    (hk : ∀ ⦃o read s⦄, κ.Fits d o brackets → At o read brackets modes s →
      Shadows κ (k s.current) (kr s.current) (k' s.current) s)
    (hseam : ∀ ⦃o read s⦄, κ.Fits d o brackets → At o read brackets modes s → s.ahead = κ.seam →
      κ.apt → Shadows κ (k s.current) (kr s.current) (k' κ.paren) s) :
    Shadowed κ d (current >>= k) (current >>= kr) (current >>= k') brackets modes :=
  fun _ _ _ hfits h => .current (hk hfits h) (hseam hfits h)

theorem checkHeight {k kr k' : Unit → Parser β} {config config' : Config} {height : Nat}
    (room : κ.Roomier config config') (hk : Shadowed κ d (k ()) (kr ()) (k' ()) brackets modes) :
    Shadowed κ d (checkHeight config height >>= k) (checkHeight config height >>= kr)
      (checkHeight config' height >>= k') brackets modes :=
  fun _ _ _ hfits h => .checkHeight room fun _ => hk hfits h

variable (law : κ.Lawful)

include law

theorem start {k kr k' : Nat → Parser β}
    (hk : ∀ begin, Shadowed κ d (k begin) (kr begin) (k' begin) brackets modes) :
    Shadowed κ d (start >>= k) (start >>= kr) (start >>= k') brackets modes :=
  fun _ _ _ hfits h => .start law fun begin => hk begin hfits h

theorem symbolicName {role : NameRole} :
    Shadowed κ d (symbolicName role) (symbolicName role) (symbolicName role) brackets modes :=
  fun _ _ _ _ _ => .symbolicName law

theorem variableName {role : VariableRole} :
    Shadowed κ d (variableName role) (variableName role) (variableName role) brackets modes :=
  fun _ _ _ _ _ => .variableName law

theorem optionalVariable :
    Shadowed κ d optionalVariable optionalVariable optionalVariable brackets modes :=
  fun _ _ _ _ _ => .optionalVariable law

section Due

variable {bracket : Bracket} (hordinary : kind.isOrdinary = true)

include hordinary

/-- A token that may lead into a bracket or out of one. What is behind it may be as much further in
as brackets have been opened. -/
theorem expectBetween (hle : brackets.length + e ≤ brackets'.length + d)
    (hkind : ∀ {t : Token}, t.kind = kind → Passes t brackets modes [] brackets' mode)
    {k kr k' : Unit → Parser β} (hk : Shadowed κ e (k ()) (kr ()) (k' ()) brackets' [mode]) :
    Shadowed κ d (expect kind >>= k) (expect kind >>= kr) (expect kind >>= k') brackets modes := by
  intro o read s hfits h
  refine .expect law (by rintro rfl; cases hordinary) fun hdue => ?_
  exact hk (hfits.mono hle) (h.advance_nil (hkind hdue))

theorem expect (hkind : ∀ {t : Token}, t.kind = kind → Passes t brackets modes [] brackets mode)
    {k kr k' : Unit → Parser β} (hk : Shadowed κ d (k ()) (kr ()) (k' ()) brackets [mode]) :
    Shadowed κ d (expect kind >>= k) (expect kind >>= kr) (expect kind >>= k') brackets modes :=
  expectBetween law hordinary (Nat.le_refl _) hkind hk

/-- A token that leads into a bracket. -/
theorem expectInto
    (hkind : ∀ {t : Token}, t.kind = kind → Passes t brackets modes [] (bracket :: brackets) mode)
    {k kr k' : Unit → Parser β}
    (hk : Shadowed κ (d + 1) (k ()) (kr ()) (k' ()) (bracket :: brackets) [mode]) :
    Shadowed κ d (Grammar.expect kind >>= k) (Grammar.expect kind >>= kr)
      (Grammar.expect kind >>= k') brackets modes :=
  expectBetween law hordinary (by rw [List.length_cons]; omega) hkind hk

/-- A token that leads out of the innermost bracket. -/
theorem expectOut
    (hkind : ∀ {t : Token}, t.kind = kind → Passes t (bracket :: brackets) modes [] brackets mode)
    {k kr k' : Unit → Parser β} (hk : Shadowed κ d (k ()) (kr ()) (k' ()) brackets [mode]) :
    Shadowed κ (d + 1) (Grammar.expect kind >>= k) (Grammar.expect kind >>= kr)
      (Grammar.expect kind >>= k') (bracket :: brackets) modes :=
  expectBetween law hordinary (by rw [List.length_cons]; omega) hkind hk

theorem consumeBetween (hle : brackets.length + e ≤ brackets'.length + d)
    (hkind : ∀ {t : Token}, t.kind = kind → Passes t brackets modes [] brackets' mode)
    {k kr k' : Bool → Parser β}
    (hdue : Shadowed κ e (k true) (kr true) (k' true) brackets' [mode])
    (hother : Shadowed κ d (k false) (kr false) (k' false) brackets modes) :
    Shadowed κ d (consume kind >>= k) (consume kind >>= kr) (consume kind >>= k')
      brackets modes := by
  intro o read s hfits h
  refine .consume law (by rintro rfl; cases hordinary) (fun _ _ => law.paren_ne hordinary)
    (fun hhere => ?_) fun _ => hother hfits h
  exact hdue (hfits.mono hle) (h.advance_nil (hkind hhere))

theorem consume (hkind : ∀ {t : Token}, t.kind = kind → Passes t brackets modes [] brackets mode)
    {k kr k' : Bool → Parser β}
    (hdue : Shadowed κ d (k true) (kr true) (k' true) brackets [mode])
    (hother : Shadowed κ d (k false) (kr false) (k' false) brackets modes) :
    Shadowed κ d (consume kind >>= k) (consume kind >>= kr) (consume kind >>= k')
      brackets modes :=
  consumeBetween law hordinary (Nat.le_refl _) hkind hdue hother

theorem consumeInto
    (hkind : ∀ {t : Token}, t.kind = kind → Passes t brackets modes [] (bracket :: brackets) mode)
    {k kr k' : Bool → Parser β}
    (hdue : Shadowed κ (d + 1) (k true) (kr true) (k' true) (bracket :: brackets) [mode])
    (hother : Shadowed κ d (k false) (kr false) (k' false) brackets modes) :
    Shadowed κ d (Grammar.consume kind >>= k) (Grammar.consume kind >>= kr)
      (Grammar.consume kind >>= k') brackets modes :=
  consumeBetween law hordinary (by rw [List.length_cons]; omega) hkind hdue hother

end Due

theorem behind (hordinary : kind.isOrdinary = true)
    (hkind : ∀ {t : Token}, t.kind = kind → Passes t brackets modes [] brackets mode)
    (hitem : Shadowed κ d item itemr item' brackets [mode]) :
    Shadowed κ d (behind kind item) (behind kind itemr) (behind kind item') brackets modes :=
  consume law hordinary hkind hitem.map (pure none)

/-- In a bracket, where something else than an operand ends the items. -/
theorem unlessDue (hkind : startsAtom kind = false)
    (hitem : Shadowed κ (d + 1) item itemr item' brackets modes) :
    Shadowed κ (d + 1) (unlessDue kind item) (unlessDue kind itemr) (unlessDue kind item')
      brackets modes := by
  refine fun o read s hfits h => .unlessDue (hitem hfits h) fun hs hapt => ?_
  have hopens := h.opens_of_seam hfits hs
  refine ⟨(law.opening hopens hapt).current_ne hs hkind, ?_⟩
  rw [law.kind, hopens]
  rintro rfl
  cases hkind

/-- Items that lead from one to the next. -/
theorem many {step stepr step' : Parser (Option α)} {leaves : Option α → List Leaf}
    (hshortens : Shortens step) (hcovers : Covers step leaves brackets modes modes)
    (hstep : Shadowed κ d step stepr step' brackets modes) :
    Shadowed κ d (many step) (many stepr) (many step') brackets modes := by
  intro o read s hfits h
  have hkept : ∀ s, (∃ read, At o read brackets modes s) →
      Leads step s fun _ s' => ∃ read, At o read brackets modes s' :=
    fun s hat => (hcovers hat.choose_spec).mono fun _ _ hat' => ⟨_, hat'⟩
  exact .many law h.ended ⟨read, h⟩ hshortens hkept fun s _ hat => hstep hfits hat.choose_spec

section Separated

variable (hcomma : ∀ {t : Token}, t.kind = .punctuation .comma →
    Passes t brackets modes' [] brackets mode)
  (hmoves : Moves item) (hcovers : Covers item leaves brackets [mode] modes')

include hcomma hmoves hcovers

theorem commaSeparated (hitem : Shadowed κ d item itemr item' brackets [mode]) :
    Shadowed κ d (commaSeparated item) (commaSeparated itemr) (commaSeparated item')
      brackets [mode] := by
  have hothers := many law (shortens_behind (by simp) hmoves)
    ((hcovers.behind hcomma).mono (List.Subset.refl _)
      (List.append_subset.2 ⟨List.Subset.refl _, List.Subset.refl _⟩))
    (hitem.behind law rfl hcomma)
  exact hitem.bind hcovers fun _ => hothers.map

theorem commaSeparatedUntil (hkind : startsAtom kind = false)
    (hitem : Shadowed κ (d + 1) item itemr item' brackets [mode]) :
    Shadowed κ (d + 1) (commaSeparatedUntil kind item) (commaSeparatedUntil kind itemr)
      (commaSeparatedUntil kind item') brackets [mode] :=
  ((commaSeparated law hcomma hmoves hcovers hitem).unlessDue law hkind).map

end Separated

/-! ### Rows of names -/

theorem dottedNames {role : NameRole} :
    Shadowed κ d (Grammar.many (Grammar.behind (.punctuation .dot) (Grammar.symbolicName role)))
      (Grammar.many (Grammar.behind (.punctuation .dot) (Grammar.symbolicName role)))
      (Grammar.many (Grammar.behind (.punctuation .dot) (Grammar.symbolicName role)))
      brackets [.call] := by
  have hpart : Covers (Grammar.behind (.punctuation .dot) (Grammar.symbolicName role)) _ brackets
      [.call] [.call, .call] := .behind .dot (covers_symbolicName _)
  have hmoves : Moves (Grammar.symbolicName role) := .of ((closed_moves {}).step .symbolicName)
  exact many law (shortens_behind (by simp) hmoves) (hpart.mono (List.Subset.refl _) (by simp))
    ((symbolicName law).behind law rfl .dot)

theorem labelList :
    Shadowed κ d Grammar.labelList Grammar.labelList Grammar.labelList brackets [.value, .call] := by
  have hlabel : Covers (Grammar.behind (.punctuation .colon) (Grammar.symbolicName .label)) _
      brackets [.value, .call] [.value, .call, .call] :=
    .behind (.colon (by simp)) (covers_symbolicName _)
  have hmoves : Moves (Grammar.symbolicName .label) := .of ((closed_moves {}).step .symbolicName)
  have hlabels := many (d := d) law (shortens_behind (by simp) hmoves)
    (hlabel.mono (List.Subset.refl _) (by simp))
    ((symbolicName law).behind law rfl (.colon (by simp)))
  refine hlabels.bind (hlabel.mono (List.Subset.refl _) (by simp)).many fun labels => ?_
  split
  · exact fail
  · exact pure _

end Shadowed

end Cypher.Grammar
