import Cypher.Grammar.State
import Cypher.Proofs.Token.Tree

/-!
# What it means to read tokens

`Reads depth p before after Q` says that the parser `p`, wherever `before`
lies ahead, SUCCEEDS, leaves `after` ahead, answers something of which `Q`
holds, stays at its depth and reports nothing. Tokens are bare here: no
parser of the grammar decides anything by a span, a line or the text of a
token that is not a reserved word.

`before` is all that lies ahead and not only what is read. So reading
composes like a path, from `before` to `mid` to `after`, and what may
follow a production is said of `after` alone.
-/

namespace Cypher.Grammar

open Token (Kind)

/-- The kind of the token due when these lie ahead. -/
def headKind (ahead : List Token) : Kind := (ahead.head?.map Token.kind).getD .eof

@[simp] theorem headKind_nil : headKind [] = .eof := rfl

@[simp] theorem headKind_cons (t : Token) (ts : List Token) :
    headKind (t :: ts) = t.kind := rfl

/-- The state with these tokens ahead, up to their places. -/
structure State.Ready (s : State) (depth : Nat) (ahead : List Token) : Prop where
  ahead_eq : s.ahead.map Token.bare = ahead
  eof_eq : s.eof.kind = .eof
  depth_eq : s.depth = depth

/-- The parser reads what lies in `before` ahead of `after`. -/
def Reads (depth : Nat) (p : Parser α) (before after : List Token) (Q : α → Prop) :
    Prop :=
  ∀ s : State, s.Ready depth before →
    ∃ a s', p s = .ok a s' ∧ Q a ∧ s'.Ready depth after ∧ s'.faults = s.faults

namespace State.Ready

variable {s : State} {d : Nat} {t : Token} {ts : List Token}

theorem current_kind (h : s.Ready d ts) : s.current.kind = headKind ts := by
  obtain ⟨rfl, heof, -⟩ := h
  unfold State.current headKind
  cases s.ahead with
  | nil => exact heof
  | cons t rest => simp

theorem current_bare (h : s.Ready d (t :: ts)) : s.current.bare = t := by
  obtain ⟨hahead, -, -⟩ := h
  unfold State.current
  cases hs : s.ahead with
  | nil => simp [hs] at hahead
  | cons u rest =>
    rw [hs, List.map_cons, List.cons.injEq] at hahead
    exact hahead.1

theorem advance (h : s.Ready d (t :: ts)) : s.advance.Ready d ts := by
  obtain ⟨hahead, heof, hdepth⟩ := h
  unfold State.advance
  cases hs : s.ahead with
  | nil => simp [hs] at hahead
  | cons u rest =>
    rw [hs, List.map_cons, List.cons.injEq] at hahead
    exact ⟨hahead.2, heof, hdepth⟩

end State.Ready

namespace Reads

variable {α β γ δ : Type} {d : Nat} {t : Token} {ts before mid after : List Token}
  {p : Parser α} {f : α → Parser β} {Q Q' : α → Prop} {R : β → Prop}

/-! ## Composition -/

theorem pure {a : α} (h : Q a) : Reads d (pure a) ts ts Q :=
  fun s hs => ⟨a, s, rfl, h, hs, rfl⟩

theorem bind (hp : Reads d p before mid Q)
    (hf : ∀ a, Q a → Reads d (f a) mid after R) : Reads d (p >>= f) before after R := by
  intro s hs
  obtain ⟨a, s₁, hrun, ha, hs₁, hfaults₁⟩ := hp s hs
  obtain ⟨b, s₂, hrun₂, hb, hs₂, hfaults₂⟩ := hf a ha s₁ hs₁
  refine ⟨b, s₂, ?_, hb, hs₂, hfaults₂.trans hfaults₁⟩
  show EStateM.bind p f s = _
  rw [EStateM.bind, hrun]
  exact hrun₂

theorem mono (hp : Reads d p before after Q) (h : ∀ a, Q a → Q' a) :
    Reads d p before after Q' := by
  intro s hs
  obtain ⟨a, s', hrun, ha, hs', hfaults⟩ := hp s hs
  exact ⟨a, s', hrun, h a ha, hs', hfaults⟩

/-- A bind whose first part answers one known value. -/
theorem bindEq {a : α} (hp : Reads d p before mid (· = a))
    (hf : Reads d (f a) mid after R) : Reads d (p >>= f) before after R :=
  hp.bind fun _ h => h ▸ hf

/-! ## Tokens -/

theorem current : Reads d current ts ts fun t => t.kind = headKind ts :=
  fun s hs => ⟨s.current, s, rfl, hs.current_kind, hs, rfl⟩

theorem lookAhead : Reads d lookAhead ts ts fun ahead => ahead.map Token.bare = ts :=
  fun s hs => ⟨s.ahead, s, rfl, hs.ahead_eq, hs, rfl⟩

theorem advance : Reads d advance (t :: ts) ts fun _ => True :=
  fun s hs => ⟨(), s.advance, rfl, trivial, hs.advance, State.faults_advance s⟩

theorem expect {kind : Kind} (h : t.kind = kind) :
    Reads d (expect kind) (t :: ts) ts fun _ => True := by
  intro s hs
  have hkind : s.current.kind = kind := by rw [hs.current_kind, headKind_cons, h]
  refine ⟨(), s.advance, ?_, trivial, hs.advance, State.faults_advance s⟩
  rw [Grammar.expect, if_pos hkind]

theorem consume {kind : Kind} (h : t.kind = kind) :
    Reads d (consume kind) (t :: ts) ts (· = true) := by
  intro s hs
  have hkind : s.current.kind = kind := by rw [hs.current_kind, headKind_cons, h]
  refine ⟨true, s.advance, ?_, rfl, hs.advance, State.faults_advance s⟩
  rw [Grammar.consume, if_pos hkind]

theorem consume_absent {kind : Kind} (h : headKind ts ≠ kind) :
    Reads d (Grammar.consume kind) ts ts (· = false) := by
  intro s hs
  have hkind : ¬ s.current.kind = kind := by rw [hs.current_kind]; exact h
  refine ⟨false, s, ?_, rfl, hs, rfl⟩
  rw [Grammar.consume, if_neg hkind]

theorem start : Reads d start ts ts fun _ => True :=
  fun s hs => ⟨s.current.span.start, s, rfl, trivial, hs, rfl⟩

theorem spanFrom {begin : Nat} : Reads d (spanFrom begin) ts ts fun _ => True :=
  fun s hs => ⟨_, s, rfl, trivial, hs, rfl⟩

/-! ## Names -/

theorem variableName {role : VariableRole} {n : String} (h : t.kind = .identifier n) :
    Reads d (variableName role) (t :: ts) ts (· = n) := by
  intro s hs
  have hkind : s.current.kind = .identifier n := by rw [hs.current_kind, headKind_cons, h]
  refine ⟨n, s.advance, ?_, rfl, hs.advance, State.faults_advance s⟩
  simp only [Grammar.variableName, hkind]

theorem optionalVariable {n : String} (h : t.kind = .identifier n) :
    Reads d optionalVariable (t :: ts) ts (· = some n) := by
  intro s hs
  have hkind : s.current.kind = .identifier n := by rw [hs.current_kind, headKind_cons, h]
  refine ⟨some n, s.advance, ?_, rfl, hs.advance, State.faults_advance s⟩
  simp only [Grammar.optionalVariable, hkind]

theorem optionalVariable_absent (h : ∀ n, headKind ts ≠ .identifier n) :
    Reads d Grammar.optionalVariable ts ts (· = none) := by
  intro s hs
  refine ⟨none, s, ?_, rfl, hs, rfl⟩
  unfold Grammar.optionalVariable
  split
  · next n hn => exact absurd (hs.current_kind ▸ hn) (h n)
  · rfl

theorem symbolicName {role : NameRole} {n : String} (h : t.symbolicName? = some n) :
    Reads d (symbolicName role) (t :: ts) ts (· = n) := by
  intro s hs
  have hname : s.current.symbolicName? = some n := by
    rw [← Token.symbolicName?_bare, hs.current_bare, h]
  refine ⟨n, s.advance, ?_, rfl, hs.advance, State.faults_advance s⟩
  simp only [Grammar.symbolicName, hname]

/-! ## Optional parts -/

theorem behind {kind : Kind} (h : t.kind = kind) (hp : Reads d p ts after Q) :
    Reads d (behind kind p) (t :: ts) after fun o => ∃ a, o = some a ∧ Q a := by
  unfold Grammar.behind
  refine (consume h).bindEq ?_
  rw [if_pos rfl]
  exact hp.bind fun a ha => .pure ⟨a, rfl, ha⟩

theorem behind_absent {kind : Kind} (h : headKind ts ≠ kind) :
    Reads d (Grammar.behind kind p) ts ts (· = none) := by
  unfold Grammar.behind
  refine (consume_absent h).bindEq ?_
  rw [if_neg Bool.false_ne_true]
  exact .pure rfl

theorem unlessDue {kind : Kind} (h : headKind before ≠ kind)
    (hp : Reads d p before after Q) :
    Reads d (unlessDue kind p) before after fun o => ∃ a, o = some a ∧ Q a := by
  unfold Grammar.unlessDue
  refine current.bind fun t ht => ?_
  rw [if_neg (ht ▸ h)]
  exact hp.bind fun a ha => .pure ⟨a, rfl, ha⟩

theorem unlessDue_due {kind : Kind} (h : headKind ts = kind) :
    Reads d (Grammar.unlessDue kind p) ts ts (· = none) := by
  unfold Grammar.unlessDue
  refine current.bind fun t ht => ?_
  rw [if_pos (ht.trans h)]
  exact .pure rfl

/-! ## Repetition -/

section Repetition

variable {step : Parser (Option α)} {xs : List β} {f : β → List Token}
  {g : α → γ} {h : β → γ} {S : List Token → Prop}

private theorem manyUpTo (hafter : S after)
    (hnone : Reads d step after after (· = none))
    (hstep : ∀ x ∈ xs, ∀ rest, S rest →
      S (f x ++ rest) ∧
        Reads d step (f x ++ rest) rest fun o => ∃ a, o = some a ∧ g a = h x)
    {n : Nat} (hn : xs.length < n) :
    S (xs.flatMap f ++ after) ∧
      Reads d (manyUpTo step n) (xs.flatMap f ++ after) after
        fun as => as.map g = xs.map h := by
  induction xs generalizing n with
  | nil =>
    obtain ⟨n, rfl⟩ : ∃ m, n = m + 1 := ⟨n - 1, by simp at hn; omega⟩
    refine ⟨hafter, ?_⟩
    unfold Grammar.manyUpTo
    exact hnone.bindEq (.pure rfl)
  | cons x xs ih =>
    obtain ⟨n, rfl⟩ : ∃ m, n = m + 1 := ⟨n - 1, by simp at hn; omega⟩
    rw [List.forall_mem_cons] at hstep
    obtain ⟨hstop, hrest⟩ := ih hstep.2 (n := n) (by simpa using hn)
    obtain ⟨hstop', hx⟩ := hstep.1 _ hstop
    rw [List.flatMap_cons, List.append_assoc]
    refine ⟨hstop', ?_⟩
    unfold Grammar.manyUpTo
    refine hx.bind ?_
    rintro _ ⟨a, rfl, ha⟩
    exact hrest.bind fun as has => .pure (by rw [List.map_cons, List.map_cons, ha, has])

/-- A repetition reads item after item. Each item is read wherever one
that may follow it stands, and no item is empty. -/
theorem many (hafter : S after) (hnone : Reads d step after after (· = none))
    (hpos : ∀ x ∈ xs, f x ≠ [])
    (hstep : ∀ x ∈ xs, ∀ rest, S rest →
      S (f x ++ rest) ∧
        Reads d step (f x ++ rest) rest fun o => ∃ a, o = some a ∧ g a = h x) :
    Reads d (many step) (xs.flatMap f ++ after) after fun as => as.map g = xs.map h := by
  unfold Grammar.many
  refine lookAhead.bind fun ahead hahead => ?_
  refine (manyUpTo hafter hnone hstep ?_).2
  have hlen : xs.length ≤ (xs.flatMap f).length := by
    rw [List.length_flatMap]
    clear hstep hahead
    induction xs with
    | nil => simp
    | cons x xs ih =>
      rw [List.forall_mem_cons] at hpos
      have hx := List.length_pos_iff.2 hpos.1
      have := ih hpos.2
      simp only [List.map_cons, List.sum_cons, List.length_cons]
      omega
  have hahead := congrArg List.length hahead
  simp only [List.length_map, List.length_append] at hahead
  omega

end Repetition

end Reads

/-- The loop reads what lies in `before` ahead of `after`, under every
bound on its rounds that leaves one for each token and one more. -/
def Iterates (depth : Nat) (step : α → Parser (ForInStep α)) (a : α)
    (before after : List Token) (Q : α → Prop) : Prop :=
  ∀ n, before.length < n → Reads depth (iterateUpTo step n a) before after Q

namespace Iterates

variable {α : Type} {d : Nat} {before mid after : List Token} {a : α}
  {step : α → Parser (ForInStep α)} {Q S : α → Prop}

/-- The last round ends the loop. -/
theorem last (h : Reads d (step a) before after fun r => ∃ b, r = .done b ∧ Q b) :
    Iterates d step a before after Q := by
  intro n hn
  obtain ⟨n, rfl⟩ : ∃ m, n = m + 1 := ⟨n - 1, by omega⟩
  unfold iterateUpTo
  refine h.bind ?_
  rintro _ ⟨b, rfl, hb⟩
  exact .pure hb

/-- A round that consumes something leads to the next. -/
theorem next (h : Reads d (step a) before mid fun r => ∃ b, r = .yield b ∧ S b)
    (hlen : mid.length < before.length)
    (hnext : ∀ b, S b → Iterates d step b mid after Q) :
    Iterates d step a before after Q := by
  intro n hn
  obtain ⟨n, rfl⟩ : ∃ m, n = m + 1 := ⟨n - 1, by omega⟩
  unfold iterateUpTo
  refine h.bind ?_
  rintro _ ⟨b, rfl, hb⟩
  exact hnext b hb n (by omega)

theorem reads (h : Iterates d step a before after Q) :
    Reads d (iterate step a) before after Q := by
  unfold iterate
  refine Reads.lookAhead.bind fun ahead hahead => h _ ?_
  rw [← hahead, List.length_map]
  exact Nat.lt_succ_self _

theorem mono {Q' : α → Prop} (h : Iterates d step a before after Q)
    (hQ : ∀ b, Q b → Q' b) : Iterates d step a before after Q' :=
  fun n hn => (h n hn).mono hQ

end Iterates

/-! ## Items with commas between them -/

namespace Reads

variable {α β γ : Type} {d : Nat} {after : List Token} {item : Parser α} {xs : List β}
  {f : β → List Token} {g : α → γ} {h : β → γ} {S : Kind → Prop}

/-- Items with commas between them are read one by one. An item is read
wherever a comma or what follows the last one may stand. -/
theorem commaSeparated (hne : xs ≠ []) (hcomma : S (.punctuation .comma))
    (hafter : S (headKind after)) (hend : headKind after ≠ .punctuation .comma)
    (hitem : ∀ x ∈ xs, ∀ rest, S (headKind rest) →
      Reads d item (f x ++ rest) rest fun a => g a = h x) :
    Reads d (commaSeparated item) (commaTokens (xs.map f) ++ after) after
      fun as => as.map g = xs.map h := by
  cases xs with
  | nil => exact absurd rfl hne
  | cons x xs =>
    rw [List.forall_mem_cons] at hitem
    unfold Grammar.commaSeparated
    rw [List.map_cons, commaTokens, List.flatMap_map, List.append_assoc]
    refine (hitem.1 _ ?_).bind fun a ha => ?_
    · cases xs with
      | nil => exact hafter
      | cons y ys => exact hcomma
    · have hmany := many (d := d) (S := fun rest => S (headKind rest)) 
        (f := fun y => Token.ofKind (.punctuation .comma) :: f y) hafter
        (behind_absent (p := item) hend) (fun y _ => List.cons_ne_nil _ _)
        fun y hy rest hrest => ⟨hcomma, (hitem.2 y hy rest hrest).behind rfl⟩
      exact hmany.bind fun as has => .pure (by rw [List.map_cons, List.map_cons, ha, has])

/-- The same where there may be no item before the closing token. -/
theorem commaSeparatedUntil {close : Kind} (hcomma : S (.punctuation .comma))
    (hafter : headKind after = close) (hstop : S close)
    (hend : close ≠ .punctuation .comma)
    (hfirst : ∀ x ∈ xs, ∀ rest, headKind (f x ++ rest) ≠ close)
    (hitem : ∀ x ∈ xs, ∀ rest, S (headKind rest) →
      Reads d item (f x ++ rest) rest fun a => g a = h x) :
    Reads d (commaSeparatedUntil close item) (commaTokens (xs.map f) ++ after) after
      fun as => as.map g = xs.map h := by
  unfold Grammar.commaSeparatedUntil
  cases hxs : xs with
  | nil => exact (unlessDue_due hafter).bindEq (.pure rfl)
  | cons x ys =>
    rw [← hxs]
    have hne : xs ≠ [] := by simp [hxs]
    have hdue : headKind (commaTokens (xs.map f) ++ after) ≠ close := by
      rw [hxs, List.map_cons, commaTokens, List.append_assoc]
      exact hfirst x (by simp [hxs]) _
    refine (unlessDue hdue (commaSeparated hne hcomma (hafter ▸ hstop) (hafter ▸ hend)
      hitem)).bind ?_
    rintro _ ⟨as, rfl, has⟩
    exact .pure has

end Reads

end Cypher.Grammar
