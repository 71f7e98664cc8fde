import Cypher.Proofs.Laid.Basic

/-!
# Laying out rows of items

A parser lays out the nodes of its answer wherever it is run from; where it may
miss an operand at once, it is to be run from a fresh place only. A row of items
lays out the nodes of its items, because a comma or the like is consumed before
each further one.
-/

namespace Cypher

/-- A kind that tokens of a text have, any but that of its end. -/
class Token.Kind.Written (kind : Kind) : Prop where
  ne_eof : kind ≠ .eof

namespace Token.Kind.Written

instance keyword {word : Keyword} : Written (.keyword word) := ⟨by simp⟩

instance identifier {name : String} : Written (.identifier name) := ⟨by simp⟩

instance integer {digits : String} : Written (.integer digits) := ⟨by simp⟩

instance operator {op : Operator} : Written (.operator op) := ⟨by simp⟩

instance punctuation {mark : Punctuation} : Written (.punctuation mark) := ⟨by simp⟩

end Token.Kind.Written

theorem Token.ne_eof_of_symbolicName? {t : Token} {name : String}
    (h : t.symbolicName? = some name) : t.kind ≠ .eof := by
  intro heof
  rw [symbolicName?, heof] at h
  cases h

namespace Grammar

open Token (Kind)

/-- Items with commas between them are not none. -/
theorem Leads.commaSeparated_ne_nil {α : Type} (item : Parser α) (s : State) :
    Leads (commaSeparated item) s fun as _ => as ≠ [] := by
  intro as s' hrun
  obtain ⟨first, s₁, -, hrun⟩ := bind_eq_ok hrun
  obtain ⟨others, s₂, -, hrun⟩ := bind_eq_ok hrun
  cases hrun
  exact List.cons_ne_nil _ _

/-- The parser lays out these nodes of its answer, from any place that is fresh if
it has to be. -/
def Lays (tokens : List Token) (fresh : Bool) (p : Parser α) (out : α → List Outline) : Prop :=
  ∀ s, Since tokens false fresh s [] s → Leads p s fun a => Since tokens false false s (out a)

variable {α β : Type} {tokens : List Token} {b f : Bool} {s₀ s : State} {l : List Outline}
  {kind : Kind} {p item : Parser α} {out : α → List Outline}

namespace Since

/-! ## Tokens -/

/-- Past a token of a kind that is due. -/
theorem pass [kind.Written] (h : Since tokens b f s₀ l s) (hdue : s.current.kind = kind) :
    Since tokens true true s₀ l s.advance :=
  h.advance (hdue ▸ Kind.Written.ne_eof)

theorem expect [kind.Written] (h : Since tokens b f s₀ l s) :
    Leads (expect kind) s fun _ => Since tokens true true s₀ l := by
  intro _ s' hrun
  obtain ⟨hdue, rfl⟩ := expect_eq_ok hrun
  exact h.pass hdue

theorem symbolicName (h : Since tokens b f s₀ l s) {role : NameRole} :
    Leads (symbolicName role) s fun _ => Since tokens true true s₀ l :=
  Leads.symbolicName fun _ hname => h.advance (Token.ne_eof_of_symbolicName? hname)

theorem variableName (h : Since tokens b f s₀ l s) {role : VariableRole} :
    Leads (variableName role) s fun _ => Since tokens true true s₀ l :=
  Leads.variableName fun _ hname => h.pass hname

theorem optionalVariable (h : Since tokens b f s₀ l s) :
    Leads optionalVariable s fun _ => Since tokens b f s₀ l := by
  intro name s' hrun
  unfold Grammar.optionalVariable at hrun
  split at hrun
  · next found hname =>
    cases hrun
    exact (h.pass hname).mono (fun _ => rfl) fun _ => rfl
  · cases hrun
    exact h

/-- Whether or not the token is there. -/
theorem consume [kind.Written] (h : Since tokens b f s₀ l s) :
    Leads (consume kind) s fun _ => Since tokens b f s₀ l := by
  intro due s' hrun
  unfold Grammar.consume at hrun
  split at hrun
  · next hdue =>
    cases hrun
    exact (h.pass hdue).mono (fun _ => rfl) fun _ => rfl
  · cases hrun
    exact h

end Since

/-! ## Rows of items -/

namespace Lays

/-- A place that is fresh will do for a parser that needs no such place. -/
theorem weaken (hp : Lays tokens f p out) : Lays tokens true p out :=
  fun s h => hp s (h.mono id fun _ => rfl)

/-- What has been laid out before stays. -/
theorem after (hp : Lays tokens f p out) (h : Since tokens b f s₀ l s) :
    Leads p s fun a => Since tokens b false s₀ (l ++ out a) := by
  refine (hp s h.restart).mono fun a s' h' => (h.trans h').mono (fun hb => ?_) id
  rw [hb, Bool.true_or]

theorem behind [kind.Written] (hp : Lays tokens true p out) :
    Lays tokens false (behind kind p) fun o => o.toList.flatMap out := by
  intro s h
  refine Leads.consume (fun hdue => ?_) fun _ => Leads.pure h
  refine (hp.after (h.pass hdue)).bind fun a s h => Leads.pure ?_
  exact (h.of_eq (by simp)).mono (fun _ => rfl) id

theorem unlessDue (hp : Lays tokens f p out) :
    Lays tokens f (unlessDue kind p) fun o => o.toList.flatMap out := by
  intro s h
  refine Leads.current ?_
  split
  · exact Leads.pure (h.mono id fun hf => by cases hf)
  · refine (hp s h).bind fun a s h => Leads.pure ?_
    exact h.of_eq (by simp)

theorem many {step : Parser (Option α)}
    (hstep : Lays tokens false step fun o => o.toList.flatMap out) :
    Lays tokens false (many step) (·.flatMap out) := by
  intro s h
  refine Leads.many (Q := fun as => Since tokens false false s (as.flatMap out)) h
    fun as s h => (hstep.after h).mono fun o s h => ?_
  exact h.of_eq List.flatMap_append.symm

theorem commaSeparated (hitem : Lays tokens f item out) :
    Lays tokens f (commaSeparated item) (·.flatMap out) := by
  intro s h
  refine (hitem s h).bind fun first s h => ?_
  refine (hitem.weaken.behind.many.after h).bind fun others s h => Leads.pure ?_
  exact h

theorem commaSeparatedUntil (hitem : Lays tokens f item out) :
    Lays tokens f (commaSeparatedUntil kind item) (·.flatMap out) := by
  intro s h
  refine (hitem.commaSeparated.unlessDue s h).bind fun o s h => Leads.pure ?_
  refine h.of_eq ?_
  cases o with
  | none => rfl
  | some as => exact List.append_nil _

end Lays

/-! ## Names -/

theorem lays_symbolicName {role : NameRole} :
    Lays tokens false (symbolicName role) fun _ => [] :=
  fun _ h => h.symbolicName.mono fun _ _ h => h.mono (fun _ => rfl) fun _ => rfl

/-- The further parts of a name with points in it. -/
theorem lays_dottedNames {role : NameRole} :
    Lays tokens false (many (behind (.punctuation .dot) (symbolicName role))) fun _ => [] :=
  fun s h => (lays_symbolicName.weaken.behind.many s h).mono fun _ _ h => h.of_eq (by simp)

theorem lays_labelList : Lays tokens false labelList fun _ => [] := by
  intro s h
  refine (lays_symbolicName.weaken.behind.many s h).bind fun labels s h => ?_
  split
  · exact Leads.fail
  · exact Leads.pure (h.of_eq (by simp))

end Grammar

end Cypher
