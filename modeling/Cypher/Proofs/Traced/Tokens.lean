import Cypher.Proofs.Traced.Basic

/-!
# Tracing rows of items

A parser traces the nodes of its answer if, wherever it is run from, they are the
nodes of the stretch that it reads, with no bracket left open and no star left over.
What is known of that stretch differs from parser to parser: behind a row of items
that end with tokens of their own every hole is sealed, and so it is if there are none.
-/

namespace Cypher

open Token (Kind)

/-- A token of this kind is neither a bracket nor a star. -/
class Token.Kind.Plain (kind : Kind) : Prop where
  closing_eq : ∀ due, kind.closing due = some due
  isStar_eq : kind.isStar = false

namespace Token.Kind.Plain

instance keyword {word : Keyword} : Plain (.keyword word) := ⟨fun _ => rfl, rfl⟩

instance identifier {name : String} : Plain (.identifier name) := ⟨fun _ => rfl, rfl⟩

instance comma : Plain (.punctuation .comma) := ⟨fun _ => rfl, rfl⟩

instance dot : Plain (.punctuation .dot) := ⟨fun _ => rfl, rfl⟩

instance colon : Plain (.punctuation .colon) := ⟨fun _ => rfl, rfl⟩

instance pipe : Plain (.operator .pipe) := ⟨fun _ => rfl, rfl⟩

instance dotDot : Plain (.operator .dotDot) := ⟨fun _ => rfl, rfl⟩

instance lt : Plain (.operator .lt) := ⟨fun _ => rfl, rfl⟩

end Token.Kind.Plain

namespace Grammar

/-- The token leaves the ledger as it is. -/
theorem Ledger.past_plain (k : Ledger) (kind : Kind) [kind.Plain] : k.past kind = k := by
  obtain ⟨due, stars⟩ := k
  rw [past, Kind.Plain.isStar_eq]
  cases due with
  | none => rfl
  | some due => exact congrArg (Ledger.mk · stars) (Kind.Plain.closing_eq due)

/-- The parser traces these nodes of its answer. -/
def Traces (tokens : List Token) (f : Known) (p : Parser α) (out : α → List Sketch) : Prop :=
  ∀ ⦃s⦄, s.Underway tokens → Leads p s fun a => Traced tokens {} f s (out a)

variable {α : Type} {tokens : List Token} {k : Ledger} {f f' : Known} {b : Bool}
  {s₀ s : State} {l : List Sketch} {kind : Kind} {p item : Parser α} {out : α → List Sketch}

namespace Traced

/-! ## Tokens -/

theorem expect [kind.Written] (h : Traced tokens k f s₀ l s) :
    Leads (expect kind) s fun _ => Traced tokens (k.past kind) .token s₀ l := by
  intro _ s' hrun
  obtain ⟨hdue, rfl⟩ := expect_eq_ok hrun
  exact h.pass hdue

/-- A name takes no part in brackets. -/
theorem symbolicName (h : Traced tokens k f s₀ l s) {role : NameRole} :
    Leads (symbolicName role) s fun _ => Traced tokens k .token s₀ l := by
  refine Leads.symbolicName fun name hname => ?_
  have hnext := h.advance (Token.ne_eof_of_symbolicName? hname)
  have hplain : k.past s.current.kind = k := by
    unfold Token.symbolicName? at hname
    split at hname
    · next hkind => exact hkind ▸ k.past_plain _
    · next hkind => exact hkind ▸ k.past_plain _
    · cases hname
  rwa [hplain] at hnext

theorem variableName (h : Traced tokens k f s₀ l s) {role : VariableRole} :
    Leads (variableName role) s fun _ => Traced tokens k .token s₀ l := by
  refine Leads.variableName fun name hname => ?_
  exact k.past_plain (.identifier name) ▸ h.pass hname

/-- Whether or not a variable is there. -/
theorem optionalVariable (h : Traced tokens k f s₀ l s) :
    Leads optionalVariable s fun _ => Traced tokens k { f with framed := false } s₀ l := by
  intro found s' hrun
  unfold Grammar.optionalVariable at hrun
  split at hrun
  · next name hname =>
    cases hrun
    exact (k.past_plain (.identifier name) ▸ h.pass hname).mono (fun _ => rfl) (fun _ => rfl) id
  · cases hrun
    exact h.mono id id (fun hf => by cases hf)

/-- Whether or not the token is there. -/
theorem consume [kind.Written] [kind.Plain] (h : Traced tokens k f s₀ l s) :
    Leads (consume kind) s fun _ => Traced tokens k { f with framed := false } s₀ l := by
  intro due s' hrun
  unfold Grammar.consume at hrun
  split at hrun
  · next hdue =>
    cases hrun
    exact (k.past_plain kind ▸ h.pass hdue).mono (fun _ => rfl) (fun _ => rfl) id
  · cases hrun
    exact h.mono id id (fun hf => by cases hf)

end Traced

/-! ## Rows of items -/

namespace Traces

/-- What has been traced before stays. -/
theorem after (hp : Traces tokens f' p out) (h : Traced tokens k f s₀ l s) :
    Leads p s fun a => Traced tokens k (f.andThen f') s₀ (l ++ out a) :=
  (hp h.here).mono fun _ _ h' => h.trans h'

theorem behind [kind.Written] [kind.Plain] (hp : Traces tokens f p out) :
    Traces tokens { sealed := f.sealed } (behind kind p) fun o => o.toList.flatMap out := by
  intro s hs
  have h := Traced.nothing hs
  refine Leads.consume (fun hdue => ?_) fun _ =>
    Leads.pure (h.mono id (fun _ => rfl) fun hf => by cases hf)
  have hpast := Ledger.past_plain {} kind ▸ h.pass hdue
  refine (hp.after hpast).bind fun a s h => Leads.pure ?_
  refine (h.of_eq (by simp)).mono (fun hb => by cases hb) (fun hsealed => ?_) fun hf => by cases hf
  simpa [Known.andThen, Known.token] using hsealed

theorem unlessDue (hp : Traces tokens f p out) :
    Traces tokens { sealed := f.sealed } (unlessDue kind p) fun o => o.toList.flatMap out := by
  intro s hs
  refine Leads.current ?_
  split
  · exact Leads.pure ((Traced.nothing hs).mono id (fun _ => rfl) fun hf => by cases hf)
  · refine (hp hs).bind fun a s h => Leads.pure ?_
    exact (h.of_eq (by simp)).mono (fun hb => by cases hb) id fun hf => by cases hf

theorem many {step : Parser (Option α)}
    (hstep : Traces tokens { sealed := b } step fun o => o.toList.flatMap out) :
    Traces tokens { sealed := b } (many step) (·.flatMap out) := by
  intro s hs
  refine Leads.many (Q := fun as => Traced tokens {} { sealed := b } s (as.flatMap out))
    ((Traced.nothing hs).mono id (fun _ => rfl) fun hf => by cases hf)
    fun as s h => (hstep.after h).mono fun o s h => ?_
  refine (h.of_eq List.flatMap_append.symm).mono (fun hb => by cases hb) (fun hsealed => ?_)
    fun hf => by cases hf
  simpa [Known.andThen] using hsealed

theorem commaSeparated (hitem : Traces tokens f item out) :
    Traces tokens { sealed := f.sealed } (commaSeparated item) (·.flatMap out) := by
  intro s hs
  refine (hitem hs).bind fun first s h => ?_
  refine (hitem.behind.many.after h).bind fun others s h => Leads.pure ?_
  refine h.mono (fun hb => by cases hb) (fun hsealed => ?_) fun hf => by cases hf
  have hone : f.sealed = true := hsealed
  simp [Known.andThen, hone]

theorem commaSeparatedUntil (hitem : Traces tokens f item out) :
    Traces tokens { sealed := f.sealed } (commaSeparatedUntil kind item) (·.flatMap out) := by
  intro s hs
  refine (hitem.commaSeparated.unlessDue hs).bind fun o s h => Leads.pure ?_
  refine h.of_eq ?_
  cases o with
  | none => rfl
  | some as => exact List.append_nil _

end Traces

/-! ## Names -/

theorem traces_symbolicName {role : NameRole} :
    Traces tokens .token (symbolicName role) fun _ => [] :=
  fun _ hs => (Traced.nothing hs).symbolicName

/-- The further parts of a name with points in it. -/
theorem traces_dottedNames {role : NameRole} :
    Traces tokens { sealed := true }
      (many (behind (.punctuation .dot) (symbolicName role))) fun _ => [] :=
  fun _ hs => (traces_symbolicName.behind.many hs).mono fun _ _ h => h.of_eq (by simp)

/-- Labels are never none. -/
theorem traces_labelList : Traces tokens .token labelList fun _ => [] := by
  intro s hs
  refine Leads.bind (Q := fun labels => Traced tokens {}
    { begun := !labels.isEmpty, sealed := true } s []) ?_ fun labels s h => ?_
  · refine Leads.many (Traced.nothing hs) fun labels s h => ?_
    refine Leads.consume (fun hdue => ?_) fun _ => Leads.pure ?_
    · refine (h.pass hdue).symbolicName.bind fun name s h => Leads.pure ?_
      exact h.mono (fun _ => rfl) (fun _ => rfl) id
    · rwa [Option.toList_none, List.append_nil]
  · split
    · exact Leads.fail
    · next hsome =>
      refine Leads.pure (h.mono (fun _ => ?_) (fun _ => rfl) fun hf => by cases hf)
      simpa using hsome

end Grammar

end Cypher
